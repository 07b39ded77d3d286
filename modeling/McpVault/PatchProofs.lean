import McpVault.TextProofs

/-! # Text transformations — unified diffs and heading sections

The pure half of the derived edits of Vault Core: a text goes in, the edited text or the reason
of the refusal comes out.  Texts are handled as their lines, each with the line end it has in the
file. -/

namespace Patch

open List
open PlainText (parseUnsigned startsWith)

abbrev Line := List Char

/-- `split_inclusive('\n')`. -/
def splitLines : List Char → List Line
  | [] => []
  | c :: rest =>
    if c = '\n' then [c] :: splitLines rest
    else
      match splitLines rest with
      | [] => [[c]]
      | line :: lines => (c :: line) :: lines

def stripSuffix (c : Char) (line : Line) : Option Line :=
  if line.getLast? = some c then some line.dropLast else none

/-- A line without its newline or its CRLF. -/
def lineContent (line : Line) : Line :=
  let body := (stripSuffix '\n' line).getD line
  (stripSuffix '\r' body).getD body

/-- `str::lines`: the return goes with the newline. -/
def unterminated (line : Line) : Line :=
  match stripSuffix '\n' line with
  | none => line
  | some body => (stripSuffix '\r' body).getD body

/-- `char::is_whitespace`. -/
def isWhitespace (c : Char) : Bool :=
  let n := c.toNat
  decide (9 ≤ n ∧ n ≤ 13 ∨ n = 32 ∨ n = 0x85 ∨ n = 0xA0 ∨ n = 0x1680 ∨
    0x2000 ≤ n ∧ n ≤ 0x200A ∨ n = 0x2028 ∨ n = 0x2029 ∨ n = 0x202F ∨
    n = 0x205F ∨ n = 0x3000)

/-- `split_whitespace`. -/
def splitWhitespace (line : Line) : List Line :=
  (line.splitBy fun a b => isWhitespace a == isWhitespace b).filter fun run =>
    !(run.any isWhitespace)

/-- `str::parse::<usize>`. -/
def parseUsize : Line → Option Nat := parseUnsigned (2 ^ 64)

/-- `start,count`; an absent count is one. -/
def parseRange (value : Line) : Except String (Nat × Nat) := do
  let start ← match parseUsize (value.takeWhile (· ≠ ',')) with
    | some n => pure n
    | none => .error "hunk range start is invalid"
  let count ← match value.dropWhile (· ≠ ',') with
    | [] => pure 1
    | _ :: count =>
      match parseUsize count with
      | some n => pure n
      | none => .error "hunk range count is invalid"
  pure (start, count)

/-- Old start, old count and new count. -/
def parseHunkHeader (line : Line) : Except String (Nat × Nat × Nat) :=
  match splitWhitespace line with
  | _ :: old :: new :: _ => do
    let old ← match old with
      | '-' :: range => parseRange range
      | _ => .error "old hunk range is invalid"
    let new ← match new with
      | '+' :: range => parseRange range
      | _ => .error "new hunk range is invalid"
    pure (old.1, old.2, new.2)
  | _ => .error "hunk header is invalid"

/-- The open hunk: what is promised, what is done. -/
structure Hunk where
  (oldCount newCount consumedOld producedNew : Nat)
  deriving DecidableEq

/-- How far a diff has been applied. -/
structure Patching where
  cursor : Nat
  output : List Line
  hunk : Option Hunk
  deriving DecidableEq

/-- The counts of a hunk are checked where it ends. -/
def closeHunk : Option Hunk → Except String Unit
  | none => pure ()
  | some hunk =>
    if hunk.consumedOld ≠ hunk.oldCount ∨ hunk.producedNew ≠ hunk.newCount then
      .error "hunk line counts do not match"
    else pure ()

/-- Lines up to the hunk are copied. -/
def openHunk (original : List Line) (p : Patching) (line : Line) :
    Except String Patching := do
  let (oldStart, oldCount, newCount) ← parseHunkHeader line
  if oldStart = 0 then .error "hunk starts before the file"
  else if oldStart - 1 < p.cursor ∨ original.length < oldStart - 1 then
    .error "hunk offset is not exact"
  else
    pure ⟨oldStart - 1, p.output ++ (original.take (oldStart - 1)).drop p.cursor,
      some ⟨oldCount, newCount, 0, 0⟩⟩

/-- One line of a hunk's body. -/
def hunkLine (original : List Line) (p : Patching) (hunk : Hunk) (line : Line) :
    Except String Patching :=
  if startsWith "\\ No newline" line then pure p
  else
    match line with
    | ' ' :: payload =>
      match original[p.cursor]? with
      | none => .error "context exceeds file"
      | some source =>
        if lineContent source ≠ payload then .error "context does not match"
        else pure ⟨p.cursor + 1, p.output ++ [source], some { hunk with
          consumedOld := hunk.consumedOld + 1,
          producedNew := hunk.producedNew + 1 }⟩
    | '-' :: payload =>
      match original[p.cursor]? with
      | none => .error "removal exceeds file"
      | some source =>
        if lineContent source ≠ payload then .error "removal does not match"
        else pure ⟨p.cursor + 1, p.output, some { hunk with
          consumedOld := hunk.consumedOld + 1 }⟩
    | '+' :: payload =>
      pure ⟨p.cursor, p.output ++ [payload ++ ['\n']], some { hunk with
        producedNew := hunk.producedNew + 1 }⟩
    | c :: _ =>
      -- `split_at_checked(1)` refuses a first character of several bytes
      if c.utf8Size = 1 then .error "unknown hunk line"
      else .error "empty hunk line"
    | [] => .error "empty hunk line"

/-- A header ends the hunk before it. -/
def patchLine (original : List Line) (p : Patching) (line : Line) : Except String Patching :=
  if startsWith "@@ " line then do
    closeHunk p.hunk
    openHunk original p line
  else
    match p.hunk with
    | none => pure p
    | some hunk => hunkLine original p hunk line

/-- `apply_unified_diff`, line by line. -/
def applyUnifiedDiff (original patch : List Char) : Except String (List Char) := do
  let source := splitLines original
  let p ← ((splitLines patch).map unterminated).foldlM (patchLine source) ⟨0, [], none⟩
  closeHunk p.hunk
  if p.hunk.isNone then .error "patch contains no hunks"
  else pure (p.output ++ source.drop p.cursor).flatten

/-- The text goes below the heading's line. -/
def insertAfterHeading (heading insertion original : List Char) : Except String (List Char) :=
  let lines := splitLines original
  match lines.findIdx? fun line => lineContent line == heading with
  | none => .error "heading was not found"
  | some index =>
    pure (lines.take (index + 1) ++ splitLines insertion ++ lines.drop (index + 1)).flatten

def headingLevel (line : Line) : Option Nat :=
  let level := (line.takeWhile (· = '#')).length
  if 1 ≤ level ∧ level ≤ 6 then some level else none

/-- It ends at a heading of its level or above. -/
def endsSection (level : Nat) (line : Line) : Bool :=
  match headingLevel (lineContent line) with
  | some next => decide (next ≤ level)
  | none => false

/-- The text takes the place of the section. -/
def replaceHeadingSection (heading replacement original : List Char) : Except String (List Char) :=
  let lines := splitLines original
  match lines.findIdx? fun line => lineContent line == heading with
  | none => .error "heading was not found"
  | some start =>
    match headingLevel heading with
    | none => .error "heading is invalid"
    | some level =>
      let below := lines.drop (start + 1)
      pure (lines.take (start + 1) ++ splitLines replacement ++
        below.drop ((below.findIdx? (endsSection level)).getD below.length)).flatten

theorem flatten_splitLines (text : List Char) : (splitLines text).flatten = text := by
  induction text with
  | nil => rfl
  | cons c rest ih =>
    rw [splitLines]
    by_cases hc : c = '\n'
    · rw [if_pos hc, flatten_cons, ih]
      rfl
    · rw [if_neg hc]
      cases hlines : splitLines rest with
      | nil =>
        rw [hlines] at ih
        simp [← ih]
      | cons line lines =>
        rw [hlines] at ih
        simp only [flatten_cons] at ih ⊢
        rw [cons_append, ih]

end Patch
