import McpVault.FallibleProofs
import McpVault.PatchProofs

/-! # Unified diffs — what an accepted diff does to the lines of a text

The fold over the lines of a diff accepts exactly the diffs that have an edit script for the
text, and its output is the new side of the script (`applyUnifiedDiff_ok_iff`).  In the joined
text a last line without a newline runs into a line added below it, and a carriage return at the
end of an added line becomes part of the line end. -/

namespace Patch

open List
open Fallible (bind_ok_iff)
open PlainText (startsWith)

/-! ## Lines -/

variable {line : Line} {lines : List Line}

/-- A text that `splitLines` does not cut. -/
def IsLine (line : Line) : Prop := line ≠ [] ∧ '\n' ∉ line.dropLast

def Terminated (line : Line) : Prop := line.getLast? = some '\n'

instance (line : Line) : Decidable (Terminated line) :=
  inferInstanceAs (Decidable (_ = _))

theorem splitLines_append (h : IsLine line) (rest : List Char) :
    splitLines (line ++ rest) =
      if Terminated line then line :: splitLines rest
      else (line ++ (splitLines rest).headD []) :: (splitLines rest).tail := by
  obtain ⟨hne, hinner⟩ := h
  induction line with
  | nil => exact absurd rfl hne
  | cons c line ih =>
    cases line with
    | nil =>
      by_cases hc : c = '\n'
      · simp [splitLines, Terminated, hc]
      · cases hrest : splitLines rest <;> simp [splitLines, Terminated, hrest]
    | cons d line =>
      have hc : c ≠ '\n' := by
        rintro rfl
        exact hinner (mem_cons_self ..)
      have ih := ih (cons_ne_nil _ _) fun h => hinner (mem_cons_of_mem _ h)
      rw [cons_append, splitLines, if_neg hc, ih]
      by_cases hend : Terminated (d :: line)
      · have hend' : Terminated (c :: d :: line) := hend
        simp only [hend, hend', if_true]
      · have hend' : ¬ Terminated (c :: d :: line) := hend
        simp only [hend, hend', if_false, cons_append]

variable {c : Char} {hunk : Hunk} {header last : Line} {original patch text : List Char}
  {s script : List Edit} {diff : List Line} {above cursor k : Nat} {p q : Patching}

theorem isLine_of_mem (h : line ∈ splitLines text) : IsLine line := by
  induction text generalizing line with
  | nil => cases h
  | cons c rest ih =>
    rw [splitLines] at h
    split at h
    next hc =>
      rcases mem_cons.mp h with rfl | h
      · exact ⟨cons_ne_nil _ _, not_mem_nil⟩
      · exact ih h
    next hc =>
      cases hlines : splitLines rest with
      | nil =>
        rw [hlines] at h
        cases mem_singleton.mp h
        exact ⟨cons_ne_nil _ _, not_mem_nil⟩
      | cons first others =>
        rw [hlines] at h ih
        rcases mem_cons.mp h with rfl | h
        · obtain ⟨hne, hinner⟩ := ih (mem_cons_self ..)
          refine ⟨cons_ne_nil _ _, ?_⟩
          rw [dropLast_cons_of_ne_nil hne]
          simp [Ne.symm hc, hinner]
        · exact ih (mem_cons_of_mem _ h)

/-- Lines stay iff each but the last has its newline. -/
theorem splitLines_flatten (h : ∀ line ∈ lines, IsLine line) :
    (splitLines lines.flatten).length ≤ lines.length ∧
      ((splitLines lines.flatten).length = lines.length ↔
        ∀ line ∈ lines.dropLast, Terminated line) ∧
      ((∀ line ∈ lines.dropLast, Terminated line) → splitLines lines.flatten = lines) := by
  induction lines with
  | nil => simp [splitLines]
  | cons line lines ih =>
    obtain ⟨hle, hiff, heq⟩ := ih fun l hl => h l (mem_cons_of_mem _ hl)
    have hcut := splitLines_append (h line (mem_cons_self ..)) lines.flatten
    rw [flatten_cons, hcut]
    cases lines with
    | nil =>
      by_cases hend : Terminated line <;> simp [splitLines]
    | cons next lines =>
      by_cases hend : Terminated line
      · rw [if_pos hend]
        refine ⟨Nat.succ_le_succ hle, ?_, fun hall => ?_⟩
        · rw [length_cons, length_cons, Nat.succ_inj, hiff]
          simp [hend]
        · rw [heq fun l hl => hall l (mem_cons_of_mem _ hl)]
      · have hlen : ((splitLines (next :: lines).flatten).tail).length + 1 ≤
            (next :: lines).length := by
          rw [length_tail]
          have hpos : 0 < (next :: lines).length := Nat.succ_pos _
          omega
        rw [if_neg hend]
        refine ⟨by simp only [length_cons] at hlen ⊢; omega, ?_, fun hall => ?_⟩
        · constructor
          · intro heq
            simp only [length_cons] at hlen heq
            omega
          · intro hall
            exact absurd (hall line (mem_cons_self ..)) hend
        · exact absurd (hall line (mem_cons_self ..)) hend

/-- The contents of the lines of a text. -/
def contents (text : List Char) : List Line := (splitLines text).map lineContent

/-- The lines of a diff, as the fold sees them. -/
def patchLines (patch : List Char) : List Line := (splitLines patch).map unterminated

theorem stripSuffix_append (c : Char) (line : Line) : stripSuffix c (line ++ [c]) = some line := by
  simp [stripSuffix]

theorem newline_notMem_patchLines (h : line ∈ patchLines patch) : '\n' ∉ line := by
  obtain ⟨raw, hraw, rfl⟩ := mem_map.mp h
  obtain ⟨hne, hinner⟩ := isLine_of_mem hraw
  unfold unterminated stripSuffix
  by_cases hend : raw.getLast? = some '\n'
  · rw [if_pos hend]
    by_cases hcr : raw.dropLast.getLast? = some '\r'
    · simp only [hcr]
      exact fun hmem => hinner (dropLast_subset _ hmem)
    · simpa only [hcr, if_false, Option.getD_none] using hinner
  · rw [if_neg hend]
    intro hmem
    rw [← dropLast_append_getLast hne] at hmem
    rcases mem_append.mp hmem with hmem | hmem
    · exact hinner hmem
    · apply hend
      rw [List.getLast?_eq_some_getLast hne, mem_singleton.mp hmem]

/-! ## Edit scripts -/

/-- A line stays, a line goes, or a line comes. -/
inductive Edit where
  | keep (line : Line)
  | remove (line : Line)
  | add (line : Line)

def Edit.old : Edit → Option Line
  | .keep line | .remove line => some line
  | .add _ => none

def Edit.new : Edit → Option Line
  | .keep line => some line
  | .remove _ => none
  | .add line => some line

def oldSide (script : List Edit) : List Line := script.filterMap Edit.old

def newSide (script : List Edit) : List Line := script.filterMap Edit.new

@[simp] theorem oldSide_nil : oldSide [] = [] := rfl
@[simp] theorem newSide_nil : newSide [] = [] := rfl
section

variable (line : Line) (s : List Edit)

@[simp] theorem oldSide_keep : oldSide (.keep line :: s) = line :: oldSide s := rfl
@[simp] theorem oldSide_remove : oldSide (.remove line :: s) = line :: oldSide s := rfl
@[simp] theorem oldSide_add : oldSide (.add line :: s) = oldSide s := rfl
@[simp] theorem newSide_keep : newSide (.keep line :: s) = line :: newSide s := rfl
@[simp] theorem newSide_remove : newSide (.remove line :: s) = newSide s := rfl
@[simp] theorem newSide_add : newSide (.add line :: s) = line :: newSide s := rfl

end

@[simp] theorem oldSide_append (s t : List Edit) : oldSide (s ++ t) = oldSide s ++ oldSide t :=
  filterMap_append

@[simp] theorem newSide_append (s t : List Edit) : newSide (s ++ t) = newSide s ++ newSide t :=
  filterMap_append

@[simp] theorem oldSide_map_keep (lines : List Line) : oldSide (lines.map .keep) = lines := by
  induction lines with
  | nil => rfl
  | cons line lines ih => rw [map_cons, oldSide_keep, ih]

@[simp] theorem newSide_map_keep (lines : List Line) : newSide (lines.map .keep) = lines := by
  induction lines with
  | nil => rfl
  | cons line lines ih => rw [map_cons, newSide_keep, ih]

/-! ## The script of a diff -/

/-- What a line of a hunk does to the file's. -/
inductive Acts : List Line → Line → List Edit → Prop where
  | note {source : List Line} {line : Line} (h : startsWith "\\ No newline" line) :
      Acts source line []
  | keep (line : Line) (source : List Line) :
      Acts (line :: source) (' ' :: lineContent line) [.keep line]
  | remove (line : Line) (source : List Line) :
      Acts (line :: source) ('-' :: lineContent line) [.remove line]
  | add (source : List Line) (payload : Line) :
      Acts source ('+' :: payload) [.add (payload ++ ['\n'])]

/-- What the lines of a hunk do, one by one. -/
inductive Reads : List Line → List Line → List Edit → Prop where
  | nil (source : List Line) : Reads source [] []
  | cons {source body : List Line} {line : Line} {edits rest : List Edit}
      (act : Acts source line edits)
      (below : Reads (source.drop (oldSide edits).length) body rest) :
      Reads source (line :: body) (edits ++ rest)

def isHeader (line : Line) : Bool := startsWith "@@ " line

/-- The lines up to the next header. -/
def bodyOf (lines : List Line) : List Line := lines.takeWhile fun line => !isHeader line

/-- The hunks of a diff, each with its header. -/
def hunks : List Line → List (Line × List Line)
  | [] => []
  | line :: rest => if isHeader line then (line, bodyOf rest) :: hunks rest else hunks rest

/-- The script from `cursor` on. -/
inductive Script (lines : List Line) : Nat → List (Line × List Line) → List Edit → Prop where
  | rest (cursor : Nat) : Script lines cursor [] ((lines.drop cursor).map .keep)
  | hunk {cursor start oldCount newCount : Nat} {header : Line} {body : List Line}
      {hunks : List (Line × List Line)} {edits below : List Edit}
      (parsed : parseHunkHeader header = .ok (start, oldCount, newCount))
      (positive : start ≠ 0) (behind : cursor ≤ start - 1) (inside : start - 1 ≤ lines.length)
      (reads : Reads (lines.drop (start - 1)) body edits)
      (oldCounted : (oldSide edits).length = oldCount)
      (newCounted : (newSide edits).length = newCount)
      (tail : Script lines (start - 1 + oldCount) hunks below) :
      Script lines cursor ((header, body) :: hunks)
        (((lines.take (start - 1)).drop cursor).map .keep ++ edits ++ below)

/-- The state of the fold after the edits of a line. -/
def Patching.after (p : Patching) (hunk : Hunk) (edits : List Edit) : Patching :=
  ⟨p.cursor + (oldSide edits).length, p.output ++ newSide edits,
    some { hunk with
      consumedOld := hunk.consumedOld + (oldSide edits).length,
      producedNew := hunk.producedNew + (newSide edits).length }⟩

theorem drop_eq_cons (h : lines[k]? = some line) : lines.drop k = line :: lines.drop (k + 1) := by
  obtain ⟨hk, rfl⟩ := List.getElem?_eq_some_iff.mp h
  exact drop_eq_getElem_cons hk

theorem getElem?_of_drop {source : List Line} (h : lines.drop k = line :: source) :
    lines[k]? = some line := by
  have h' := congrArg List.head? h
  rwa [List.head?_drop] at h'

theorem hunkLine_ok_iff (hp : p.hunk = some hunk) : hunkLine lines p hunk line = .ok q ↔
      ∃ edits, Acts (lines.drop p.cursor) line edits ∧ q = p.after hunk edits := by
  constructor
  · intro h
    unfold hunkLine at h
    split at h
    next hnote =>
      cases h
      exact ⟨[], .note hnote, by simp [Patching.after, ← hp]⟩
    next =>
      split at h
      next payload =>
        split at h
        next => cases h
        next source hsource =>
          split at h
          next => cases h
          next hmatch =>
            cases h
            rw [drop_eq_cons hsource, ← not_not.mp hmatch]
            exact ⟨_, .keep _ _, rfl⟩
      next payload =>
        split at h
        next => cases h
        next source hsource =>
          split at h
          next => cases h
          next hmatch =>
            cases h
            rw [drop_eq_cons hsource, ← not_not.mp hmatch]
            exact ⟨_, .remove _ _, by simp [Patching.after]⟩
      next payload =>
        cases h
        exact ⟨_, .add _ _, rfl⟩
      next => split at h <;> cases h
      next => cases h
  · rintro ⟨edits, hacts, rfl⟩
    generalize hsource : lines.drop p.cursor = source at hacts
    cases hacts with
    | note hnote => simp [hunkLine, hnote, Patching.after, ← hp, pure, Except.pure]
    | keep line source =>
      simp [hunkLine, startsWith, getElem?_of_drop hsource, Patching.after, pure, Except.pure]
    | remove line source =>
      simp [hunkLine, startsWith, getElem?_of_drop hsource, Patching.after, pure, Except.pure]
    | add source payload => simp [hunkLine, startsWith, Patching.after, pure, Except.pure]

theorem closeHunk_ok_iff : closeHunk (some hunk) = .ok () ↔
      hunk.consumedOld = hunk.oldCount ∧ hunk.producedNew = hunk.newCount := by
  simp only [closeHunk]
  by_cases h : hunk.consumedOld = hunk.oldCount ∧ hunk.producedNew = hunk.newCount
  · rw [if_neg (by simp [h])]
    exact ⟨fun _ => h, fun _ => rfl⟩
  · rw [if_pos (by rwa [ne_eq, ← not_and_or])]
    exact ⟨fun hfail => (by cases hfail), fun hcounted => absurd hcounted h⟩

theorem openHunk_ok_iff : openHunk lines p line = .ok q ↔
      ∃ start oldCount newCount, parseHunkHeader line = .ok (start, oldCount, newCount) ∧
        start ≠ 0 ∧ p.cursor ≤ start - 1 ∧ start - 1 ≤ lines.length ∧
        q = ⟨start - 1, p.output ++ (lines.take (start - 1)).drop p.cursor,
          some ⟨oldCount, newCount, 0, 0⟩⟩ := by
  unfold openHunk
  rw [bind_ok_iff]
  constructor
  · rintro ⟨⟨start, oldCount, newCount⟩, hparse, h⟩
    dsimp only at h
    split at h
    next => cases h
    next hzero =>
      split at h
      next => cases h
      next hplace =>
        cases h
        rw [not_or, not_lt, not_lt] at hplace
        exact ⟨start, oldCount, newCount, hparse, hzero, hplace.1, hplace.2, rfl⟩
  · rintro ⟨start, oldCount, newCount, hparse, hzero, hbehind, hinside, rfl⟩
    refine ⟨_, hparse, ?_⟩
    dsimp only
    rw [if_neg hzero, if_neg (by omega)]
    rfl

theorem script_cons_iff {body : List Line} {hunks : List (Line × List Line)} :
    Script lines cursor ((header, body) :: hunks) script ↔ ∃ start edits below,
        parseHunkHeader header = .ok (start, (oldSide edits).length, (newSide edits).length) ∧
        start ≠ 0 ∧ cursor ≤ start - 1 ∧ start - 1 ≤ lines.length ∧
        Reads (lines.drop (start - 1)) body edits ∧
        Script lines (start - 1 + (oldSide edits).length) hunks below ∧
        script = ((lines.take (start - 1)).drop cursor).map .keep ++ edits ++ below := by
  constructor
  · rintro (_ | ⟨parsed, positive, behind, inside, reads, rfl, rfl, tail⟩)
    exact ⟨_, _, _, parsed, positive, behind, inside, reads, tail, rfl⟩
  · rintro ⟨start, edits, below, parsed, positive, behind, inside, reads, tail, rfl⟩
    exact .hunk parsed positive behind inside reads rfl rfl tail

/-- The end of the fold. -/
def finish (lines : List Line) (p : Patching) : Except String (List Char) := do
  closeHunk p.hunk
  if p.hunk.isNone then .error "patch contains no hunks"
  else pure (p.output ++ lines.drop p.cursor).flatten

/-- What the rest of a diff does from within a hunk. -/
def Continues (lines diff : List Line) : Prop :=
  ∀ (p : Patching) (hunk : Hunk) (result : List Char), p.hunk = some hunk →
    ((diff.foldlM (patchLine lines) p >>= finish lines) = .ok result ↔
      ∃ edits below, Reads (lines.drop p.cursor) (bodyOf diff) edits ∧
        hunk.consumedOld + (oldSide edits).length = hunk.oldCount ∧
        hunk.producedNew + (newSide edits).length = hunk.newCount ∧
        Script lines (p.cursor + (oldSide edits).length) (hunks diff) below ∧
        result = (p.output ++ newSide edits ++ newSide below).flatten)

theorem fold_header_iff (ih : Continues lines diff) (p : Patching) (result : List Char) :
    (openHunk lines p header >>= fun q => diff.foldlM (patchLine lines) q >>= finish lines) =
        .ok result ↔
      ∃ script, Script lines p.cursor ((header, bodyOf diff) :: hunks diff) script ∧
        result = (p.output ++ newSide script).flatten := by
  rw [bind_ok_iff]
  constructor
  · rintro ⟨q, hopen, h⟩
    obtain ⟨start, oldCount, newCount, hparse, hzero, hbehind, hinside, rfl⟩ :=
      openHunk_ok_iff.mp hopen
    obtain ⟨edits, below, hreads, hold, hnew, htail, rfl⟩ := (ih _ _ result rfl).mp h
    simp only [Nat.zero_add] at hold hnew
    subst hold hnew
    refine ⟨_, script_cons_iff.mpr ⟨start, edits, below, hparse, hzero, hbehind, hinside, hreads,
      htail, rfl⟩, ?_⟩
    simp only [newSide_append, newSide_map_keep, append_assoc]
  · rintro ⟨script, hscript, rfl⟩
    obtain ⟨start, edits, below, hparse, hzero, hbehind, hinside, hreads, htail, rfl⟩ :=
      script_cons_iff.mp hscript
    refine ⟨_, openHunk_ok_iff.mpr ⟨start, _, _, hparse, hzero, hbehind, hinside, rfl⟩, ?_⟩
    refine (ih _ _ _ rfl).mpr ⟨edits, below, hreads, Nat.zero_add _, Nat.zero_add _, htail, ?_⟩
    simp only [newSide_append, newSide_map_keep, append_assoc]

theorem continues (lines diff : List Line) : Continues lines diff := by
  induction diff with
  | nil =>
    intro p hunk result hp
    show finish lines p = _ ↔ _
    unfold finish
    rw [bind_ok_iff, hp]
    constructor
    · rintro ⟨_, hclose, h⟩
      obtain ⟨hold, hnew⟩ := closeHunk_ok_iff.mp hclose
      cases h
      refine ⟨[], _, .nil _, hold, hnew, .rest _, ?_⟩
      rw [newSide_map_keep, newSide_nil, append_nil]
      rfl
    · rintro ⟨_, _, ⟨⟩, hold, hnew, ⟨⟩, rfl⟩
      refine ⟨(), closeHunk_ok_iff.mpr ⟨hold, hnew⟩, ?_⟩
      rw [newSide_map_keep, newSide_nil, append_nil]
      rfl
  | cons line diff ih =>
    intro p hunk result hp
    rw [foldlM_cons, bind_assoc]
    by_cases hline : isHeader line
    · -- the hunk ends here
      have hstep : patchLine lines p line = closeHunk p.hunk >>= fun _ => openHunk lines p line :=
        if_pos hline
      have hbody : bodyOf (line :: diff) = [] := by simp [bodyOf, hline]
      rw [hstep, bind_assoc, bind_ok_iff, hbody, hunks, if_pos hline, hp]
      constructor
      · rintro ⟨_, hclose, h⟩
        obtain ⟨hold, hnew⟩ := closeHunk_ok_iff.mp hclose
        obtain ⟨script, hscript, rfl⟩ := (fold_header_iff ih p result).mp h
        exact ⟨[], script, .nil _, hold, hnew, hscript, by simp⟩
      · rintro ⟨_, script, ⟨⟩, hold, hnew, hscript, rfl⟩
        refine ⟨(), closeHunk_ok_iff.mpr ⟨hold, hnew⟩, ?_⟩
        exact (fold_header_iff ih p _).mpr ⟨script, hscript, by simp⟩
    · have hstep : patchLine lines p line = hunkLine lines p hunk line := by
        unfold patchLine
        rw [if_neg (show ¬ startsWith "@@ " line from hline), hp]
      have hbody : bodyOf (line :: diff) = line :: bodyOf diff := by simp [bodyOf, hline]
      rw [hstep, bind_ok_iff, hbody, hunks, if_neg hline]
      constructor
      · rintro ⟨q, hq, h⟩
        obtain ⟨edits, hacts, rfl⟩ := (hunkLine_ok_iff hp).mp hq
        obtain ⟨rest, below, hreads, hold, hnew, htail, rfl⟩ := (ih _ _ result rfl).mp h
        refine ⟨edits ++ rest, below, .cons hacts ?_, ?_, ?_, ?_, ?_⟩
        · rwa [drop_drop]
        · rw [oldSide_append, length_append, ← Nat.add_assoc]; exact hold
        · rw [newSide_append, length_append, ← Nat.add_assoc]; exact hnew
        · rw [oldSide_append, length_append, ← Nat.add_assoc]; exact htail
        · simp [Patching.after]
      · rintro ⟨_, below, hreads, hold, hnew, htail, rfl⟩
        cases hreads with
        | @cons _ _ _ edits rest hacts hrest =>
          refine ⟨_, (hunkLine_ok_iff hp).mpr ⟨edits, hacts, rfl⟩, (ih _ _ _ rfl).mpr ?_⟩
          rw [oldSide_append, length_append, ← Nat.add_assoc] at hold htail
          rw [newSide_append, length_append, ← Nat.add_assoc] at hnew
          rw [drop_drop] at hrest
          exact ⟨rest, below, hrest, hold, hnew, htail, by simp [Patching.after]⟩

/-- Accepted: diffs with a script for the text. -/
theorem applyUnifiedDiff_ok_iff {result : List Char} :
    applyUnifiedDiff original patch = .ok result ↔ hunks (patchLines patch) ≠ [] ∧
      ∃ script, Script (splitLines original) 0 (hunks (patchLines patch)) script ∧
        result = (newSide script).flatten := by
  have hfold : applyUnifiedDiff original patch =
      (patchLines patch).foldlM (patchLine (splitLines original)) ⟨0, [], none⟩ >>=
        finish (splitLines original) := rfl
  rw [hfold]
  generalize patchLines patch = diff
  -- whatever stands before the first header changes nothing
  induction diff with
  | nil =>
    refine ⟨fun h => ?_, fun h => absurd rfl h.1⟩
    cases h
  | cons line diff ih =>
    rw [foldlM_cons, bind_assoc]
    by_cases hline : isHeader line
    · have hstep : patchLine (splitLines original) ⟨0, [], none⟩ line =
          openHunk (splitLines original) ⟨0, [], none⟩ line := if_pos hline
      rw [hstep, hunks, if_pos hline, fold_header_iff (continues _ _)]
      simp
    · have hstep : patchLine (splitLines original) ⟨0, [], none⟩ line = .ok ⟨0, [], none⟩ :=
        if_neg hline
      rw [hstep, hunks, if_neg hline]
      exact ih

/-! ## Exactness on lines -/

def oldLine : Line → Option Line
  | ' ' :: payload => some payload
  | '-' :: payload => some payload
  | _ => none

def newLine : Line → Option Line
  | ' ' :: payload => some payload
  | '+' :: payload => some payload
  | _ => none

/-- Every hunk's old lines are replaced. -/
def replaceHunks (lines : List Line) : Nat → List (Line × List Line) → Option (List Line)
  | cursor, [] => some (lines.drop cursor)
  | cursor, (header, body) :: hunks =>
    match parseHunkHeader header with
    | .error _ => none
    | .ok (start, _, _) =>
      if start ≠ 0 ∧ cursor ≤ start - 1 ∧ start - 1 ≤ lines.length ∧
          body.filterMap oldLine <+: lines.drop (start - 1) then
        (replaceHunks lines (start - 1 + (body.filterMap oldLine).length) hunks).map
          fun below => (lines.take (start - 1)).drop cursor ++ body.filterMap newLine ++ below
      else none

/-- Each line, with the number of lines above. -/
def placed : Nat → List Line → List (Nat × Line)
  | _, [] => []
  | above, line :: body => (above, line) :: placed (above + (oldLine line).toList.length) body

def startOf (header : Line) : Nat :=
  match parseHunkHeader header with
  | .error _ => 0
  | .ok (start, _, _) => start

def placedLines (hunks : List (Line × List Line)) : List (Nat × Line) :=
  hunks.flatMap fun hunk => placed (startOf hunk.1 - 1) hunk.2

/-- The content an edit leaves, without its end. -/
def Edit.content : Edit → Option Line
  | .keep line => some (lineContent line)
  | .remove _ => none
  | .add line => some line.dropLast

def Edit.mark : Edit → Char
  | .keep _ => ' '
  | .remove _ => '-'
  | .add _ => '+'

/-- The edits by kind, with the old lines above. -/
def marks : Nat → List Edit → List (Nat × Char)
  | _, [] => []
  | above, edit :: script => (above, edit.mark) :: marks (above + edit.old.toList.length) script

theorem length_oldSide_cons (edit : Edit) (s : List Edit) :
    edit.old.toList.length + (oldSide s).length = (oldSide (edit :: s)).length := by
  cases edit <;> simp [Edit.old, Nat.add_comm]

theorem marks_append (above : Nat) (s t : List Edit) :
    marks above (s ++ t) = marks above s ++ marks (above + (oldSide s).length) t := by
  induction s generalizing above with
  | nil => rfl
  | cons edit s ih =>
    rw [cons_append, marks, marks, ih, cons_append, Nat.add_assoc, length_oldSide_cons]

theorem marks_map_keep (h : (k, c) ∈ marks above (lines.map .keep)) : c = ' ' := by
  induction lines generalizing above with
  | nil => cases h
  | cons line lines ih =>
    rcases mem_cons.mp h with h | h
    · cases h
      rfl
    · exact ih h

/-- An edit stands below the old lines before it. -/
theorem marks_le (h : (k, c) ∈ marks above s) :
    above ≤ k ∧ k ≤ above + (oldSide s).length ∧ (c = '-' → k < above + (oldSide s).length) := by
  induction s generalizing above with
  | nil => cases h
  | cons edit s ih =>
    rcases mem_cons.mp h with h | h
    · cases h
      refine ⟨le_rfl, Nat.le_add_right _ _, fun hc => ?_⟩
      cases edit with
      | remove line => simp
      | keep line | add line => exact absurd hc (by simp [Edit.mark])
    · rw [← length_oldSide_cons, ← Nat.add_assoc]
      exact ⟨(Nat.le_add_right _ _).trans (ih h).1, (ih h).2⟩

theorem marks_of_added (h : oldSide s = []) : (above, '+') ∈ marks above s ↔ s ≠ [] := by
  cases s with
  | nil => simp [marks]
  | cons edit s =>
    cases edit with
    | keep line | remove line => cases h
    | add line => simp [marks, Edit.mark]

theorem newSide_ne_nil (h : oldSide s = []) (hs : s ≠ []) : newSide s ≠ [] := by
  cases s with
  | nil => exact absurd rfl hs
  | cons edit s =>
    cases edit with
    | keep line | remove line => cases h
    | add line => exact cons_ne_nil _ _

theorem note_cons (h : startsWith "\\ No newline" line) : ∃ rest, line = '\\' :: rest := by
  cases line with
  | nil => cases h
  | cons c rest =>
    rw [startsWith, show "\\ No newline".toList = '\\' :: " No newline".toList from rfl,
      isPrefixOf_cons_cons, Bool.and_eq_true, beq_iff_eq] at h
    exact ⟨rest, by rw [← h.1]⟩

section Readings

variable {source body : List Line} {line : Line} {edits : List Edit}

theorem Acts.prefix (h : Acts source line edits) :
    source = oldSide edits ++ source.drop (oldSide edits).length := by
  cases h <;> rfl

theorem Acts.oldLine (h : Acts source line edits) :
    (oldLine line).toList = (oldSide edits).map lineContent := by
  cases h with
  | note hnote => obtain ⟨rest, rfl⟩ := note_cons hnote; rfl
  | keep | remove | add => rfl

theorem Acts.newLine (h : Acts source line edits) :
    (newLine line).toList = edits.filterMap Edit.content := by
  cases h with
  | note hnote => obtain ⟨rest, rfl⟩ := note_cons hnote; rfl
  | keep | remove => rfl
  | add source payload => simp [Patch.newLine, Edit.content]

theorem Reads.prefix (h : Reads source body edits) : oldSide edits <+: source := by
  induction h with
  | nil source => exact nil_prefix
  | @cons source body line edits rest act below ih =>
    rw [oldSide_append, act.prefix]
    simpa using ih

theorem filterMap_cons_toList {α β : Type} (f : α → Option β) (a : α) (l : List α) :
    (a :: l).filterMap f = (f a).toList ++ l.filterMap f := by
  cases h : f a <;> simp [h]

theorem Reads.oldLines (h : Reads source body edits) :
    body.filterMap oldLine = (oldSide edits).map lineContent := by
  induction h with
  | nil source => rfl
  | cons act below ih =>
    rw [filterMap_cons_toList, act.oldLine, ih, oldSide_append, map_append]

theorem Reads.newLines (h : Reads source body edits) :
    body.filterMap newLine = edits.filterMap Edit.content := by
  induction h with
  | nil source => rfl
  | cons act below ih =>
    rw [filterMap_cons_toList, act.newLine, ih, filterMap_append]

theorem Reads.add_mem (h : Reads source body edits) {added : Line} :
    .add added ∈ edits ↔ ∃ payload, '+' :: payload ∈ body ∧ added = payload ++ ['\n'] := by
  induction h with
  | nil source => simp
  | @cons source body line edits rest act below ih =>
    rw [mem_append, ih]
    cases act with
    | note hnote => obtain ⟨rest, rfl⟩ := note_cons hnote; simp
    | keep | remove => simp
    | add source payload =>
      simp only [mem_cons, not_mem_nil, or_false, Edit.add.injEq, List.cons.injEq, true_and]
      constructor
      · rintro (rfl | ⟨payload', hmem, rfl⟩)
        · exact ⟨payload, .inl rfl, rfl⟩
        · exact ⟨payload', .inr hmem, rfl⟩
      · rintro ⟨payload', rfl | hmem, rfl⟩
        · exact .inl rfl
        · exact .inr ⟨payload', hmem, rfl⟩

theorem Reads.placed_iff (h : Reads source body edits) (hc : c ≠ '\\') :
    (∃ payload, (k, c :: payload) ∈ placed above body) ↔ (k, c) ∈ marks above edits := by
  induction h generalizing above with
  | nil source => simp [placed, marks]
  | @cons source body line edits rest act below ih =>
    rw [marks_append, mem_append, ← ih, placed, act.oldLine, length_map]
    have hhere : (∃ payload, (k, c :: payload) = (above, line)) ↔ (k, c) ∈ marks above edits := by
      cases act with
      | note hnote => obtain ⟨rest, rfl⟩ := note_cons hnote; simp [marks, hc]
      | keep | remove | add => simp [marks, Edit.mark]
    rw [← hhere, ← exists_or]
    simp only [mem_cons]

end Readings

section Scripts

variable {lines : List Line} {cursor : Nat} {hunks : List (Line × List Line)} {script : List Edit}

/-- A script goes through all lines of the file. -/
theorem Script.old (h : Script lines cursor hunks script) : oldSide script = lines.drop cursor := by
  induction h with
  | rest cursor => exact oldSide_map_keep _
  | @hunk cursor start oldCount newCount header body hunks edits below parsed positive behind inside
      reads oldCounted newCounted tail ih =>
      have hbelow : oldSide edits ++ lines.drop (start - 1 + oldCount) = lines.drop (start - 1) := by
        rw [← drop_drop, ← oldCounted]
        exact prefix_iff_eq_append.mp reads.prefix
      have hgap : (lines.take (start - 1)).drop cursor ++ lines.drop (start - 1) =
          lines.drop cursor := by
        have hsplit := congrArg (List.drop cursor) (take_append_drop (start - 1) lines)
        rwa [drop_append_of_le_length (by simpa using ⟨behind, behind.trans inside⟩)] at hsplit
      rw [oldSide_append, oldSide_append, oldSide_map_keep, ih, append_assoc, hbelow, hgap]

theorem filterMap_content_map_keep (lines : List Line) :
    (lines.map Edit.keep).filterMap Edit.content = lines.map lineContent := by
  induction lines with
  | nil => rfl
  | cons line lines ih => simpa [Edit.content] using ih

theorem Script.replaceHunks (h : Script lines cursor hunks script) :
    replaceHunks (lines.map lineContent) cursor hunks = some (script.filterMap Edit.content) := by
  induction h with
  | rest cursor =>
    rw [Patch.replaceHunks, filterMap_content_map_keep, map_drop]
  | @hunk cursor start oldCount newCount header body hunks edits below parsed positive behind inside
      reads oldCounted newCounted tail ih =>
      have hold : body.filterMap oldLine <+: (lines.map lineContent).drop (start - 1) := by
        rw [reads.oldLines, ← map_drop]
        exact reads.prefix.map _
      have hlen : (body.filterMap oldLine).length = oldCount := by
        rw [reads.oldLines, length_map, oldCounted]
      rw [Patch.replaceHunks, parsed]
      dsimp only
      rw [if_pos ⟨positive, behind, by rwa [length_map], hold⟩, hlen, ih, Option.map_some,
        reads.newLines, filterMap_append, filterMap_append, filterMap_content_map_keep,
        ← map_take, map_drop]

theorem Script.placed_iff (h : Script lines cursor hunks script) (hnote : c ≠ '\\')
    (hkeep : c ≠ ' ') :
    (∃ payload, (k, c :: payload) ∈ placedLines hunks) ↔ (k, c) ∈ marks cursor script := by
  induction h with
  | rest cursor =>
    exact ⟨fun ⟨_, h⟩ => (by cases h), fun h => absurd (marks_map_keep h) hkeep⟩
  | @hunk cursor start oldCount newCount header body hunks edits below parsed positive behind inside
      reads oldCounted newCounted tail ih =>
      have hstart : startOf header = start := by rw [startOf, parsed]
      have hgap : cursor + ((lines.take (start - 1)).drop cursor).length = start - 1 := by
        rw [length_drop, length_take, min_eq_left inside]
        omega
      have hgapMarks : (k, c) ∉ marks cursor (((lines.take (start - 1)).drop cursor).map .keep) :=
        fun h => hkeep (marks_map_keep h)
      rw [marks_append, marks_append, oldSide_append, oldSide_map_keep, hgap, length_append,
        ← Nat.add_assoc, hgap, oldCounted, mem_append, mem_append, ← ih,
        ← reads.placed_iff hnote, or_iff_right hgapMarks, ← exists_or]
      simp only [placedLines, flatMap_cons, mem_append, hstart]

theorem add_notMem_map_keep (added : Line) (lines : List Line) :
    Edit.add added ∉ lines.map Edit.keep := by
  intro h
  obtain ⟨_, _, h⟩ := mem_map.mp h
  cases h

theorem Script.add_mem (h : Script lines cursor hunks script) {added : Line} : .add added ∈ script ↔
      ∃ hunk ∈ hunks, ∃ payload, '+' :: payload ∈ hunk.2 ∧ added = payload ++ ['\n'] := by
  induction h with
  | rest cursor => exact ⟨fun h => absurd h (add_notMem_map_keep _ _), fun ⟨_, h, _⟩ => (by cases h)⟩
  | hunk parsed positive behind inside reads oldCounted newCounted tail ih =>
    rw [mem_append, mem_append, ih, reads.add_mem, or_iff_right (add_notMem_map_keep _ _)]
    simp

end Scripts

theorem mem_of_mem_hunks {hunk : Line × List Line} (h : hunk ∈ hunks diff)
    (hline : line ∈ hunk.2) : line ∈ diff := by
  induction diff with
  | nil => cases h
  | cons first diff ih =>
    rw [hunks] at h
    split at h
    next =>
      rcases mem_cons.mp h with rfl | h
      · exact mem_cons_of_mem _ (( takeWhile_prefix _).subset hline)
      · exact mem_cons_of_mem _ (ih h)
    next => exact mem_cons_of_mem _ (ih h)

theorem mem_newSide (h : line ∈ newSide script) : line ∈ oldSide script ∨ .add line ∈ script := by
  obtain ⟨edit, hedit, hnew⟩ := mem_filterMap.mp h
  cases edit with
  | keep kept => exact .inl (mem_filterMap.mpr ⟨_, hedit, hnew⟩)
  | remove gone => cases hnew
  | add added =>
    cases hnew
    exact .inr hedit

theorem length_filterMap_content (script : List Edit) :
    (script.filterMap Edit.content).length = (newSide script).length := by
  induction script with
  | nil => rfl
  | cons edit script ih => cases edit <;> simpa [filterMap_cons, Edit.content] using ih

theorem map_lineContent_newSide (script : List Edit) :
    (newSide script).map lineContent = script.filterMap Edit.content ↔
      ∀ added, .add added ∈ script → lineContent added = added.dropLast := by
  induction script with
  | nil => simp
  | cons edit script ih =>
    cases edit with
    | keep line | remove line => simpa [filterMap_cons, Edit.content] using ih
    | add line =>
      simp only [newSide_add, map_cons, filterMap_cons, Edit.content,
        List.cons.injEq, ih, mem_cons, Edit.add.injEq]
      exact ⟨fun ⟨hline, hrest⟩ added h => h.elim (fun h => h ▸ hline) (hrest added),
        fun h => ⟨h line (.inl rfl), fun added hmem => h added (.inr hmem)⟩⟩

theorem lineContent_append (payload : Line) :
    lineContent (payload ++ ['\n']) = payload ↔ payload.getLast? ≠ some '\r' := by
  rw [lineContent, stripSuffix_append, Option.getD_some, stripSuffix]
  by_cases hcr : payload.getLast? = some '\r'
  · rw [if_pos hcr]
    refine ⟨fun h => ?_, fun h => absurd hcr h⟩
    cases payload with
    | nil => cases hcr
    | cons c payload => exact absurd (congrArg List.length h) (by simp)
  · rw [if_neg hcr]
    exact ⟨fun _ => hcr, fun _ => rfl⟩

theorem terminated_of_mem_dropLast (h : line ∈ (splitLines text).dropLast) : Terminated line :=
  (splitLines_flatten fun _ hmem => isLine_of_mem hmem).2.1.mp
    (by rw [flatten_splitLines]) line h

theorem terminated_last_iff (h : splitLines text = lines ++ [last]) :
    Terminated last ↔ text.getLast? = some '\n' := by
  have hne : last ≠ [] := (isLine_of_mem (h ▸ mem_append_right _ (mem_singleton_self _))).1
  rw [← flatten_splitLines text, h, flatten_append, flatten_singleton,
    List.getLast?_append_of_ne_nil _ hne]
  rfl

theorem terminated_lines_iff :
    (∀ line ∈ splitLines text, Terminated line) ↔ text = [] ∨ text.getLast? = some '\n' := by
  rcases eq_nil_or_concat (splitLines text) with hnil | ⟨lines, last, hlines⟩
  · have hempty : text = [] := by rw [← flatten_splitLines text, hnil]; rfl
    simp [hempty, splitLines]
  · rw [concat_eq_append] at hlines
    have hinit : ∀ line ∈ lines, Terminated line := fun line hline =>
      terminated_of_mem_dropLast (by rwa [hlines, dropLast_concat])
    have hne : text ≠ [] := by
      rintro rfl
      exact absurd hlines.symm (by simp [splitLines])
    rw [← terminated_last_iff hlines, hlines]
    simp only [mem_append, mem_singleton, or_imp, forall_and, forall_eq, hne, false_or]
    exact and_iff_right hinit

theorem exists_last_old (h : oldSide script = lines ++ [last]) :
    ∃ s edit t, script = s ++ edit :: t ∧ oldSide s = lines ∧ edit.old = some last ∧
      oldSide t = [] := by
  obtain ⟨s, rest, rfl, hs, hrest⟩ := filterMap_eq_append_iff.mp h
  obtain ⟨skipped, edit, t, rfl, hskipped, hedit, ht⟩ := filterMap_eq_cons_iff.mp hrest
  refine ⟨s ++ skipped, edit, t, by simp, ?_, hedit, ht⟩
  rw [oldSide_append, show oldSide s = lines from hs,
    show oldSide skipped = [] from filterMap_eq_nil_iff.mpr hskipped, append_nil]

/-- New lines are ended, but for an open one's. -/
theorem terminated_newSide_iff (hold : oldSide script = splitLines original)
    (hadd : ∀ added, .add added ∈ script → Terminated added) :
    (∀ line ∈ (newSide script).dropLast, Terminated line) ↔
      original = [] ∨ original.getLast? = some '\n' ∨
        (((splitLines original).length, '+') ∈ marks 0 script →
          ((splitLines original).length - 1, '-') ∈ marks 0 script) := by
  rw [← or_assoc, ← terminated_lines_iff]
  by_cases hall : ∀ line ∈ splitLines original, Terminated line
  · refine iff_of_true (fun line hline => ?_) (.inl hall)
    rcases mem_newSide (dropLast_subset _ hline) with hmem | hmem
    · exact hall line (hold ▸ hmem)
    · exact hadd line hmem
  · -- only the last old line is without its newline
    rw [or_iff_right hall]
    obtain ⟨lines, last, hlines⟩ : ∃ lines last, splitLines original = lines ++ [last] := by
      rcases eq_nil_or_concat (splitLines original) with hnil | ⟨lines, last, hlines⟩
      · exact absurd (by simp [hnil]) hall
      · exact ⟨lines, last, hlines.trans concat_eq_append⟩
    have hinit : ∀ line ∈ lines, Terminated line := fun line hline =>
      terminated_of_mem_dropLast (by rwa [hlines, dropLast_concat])
    have hend : ¬Terminated last := fun hend => hall fun line hline => by
      rw [hlines, mem_append, mem_singleton] at hline
      exact hline.elim (hinit line) fun h => h ▸ hend
    obtain ⟨s, edit, t, rfl, hs, hedit, ht⟩ := exists_last_old (hold.trans hlines)
    have hnewS : ∀ line ∈ newSide s, Terminated line := fun line hline =>
      (mem_newSide hline).elim (fun h => hinit line (hs ▸ h)) fun h => hadd line (by simp [h])
    have hnewT : ∀ line ∈ newSide t, Terminated line := fun line hline =>
      (mem_newSide hline).elim (fun h => absurd (ht ▸ h) (by simp)) fun h => hadd line (by simp [h])
    have hplus : (lines.length + 1, '+') ∈ marks 0 (s ++ edit :: t) ↔ t ≠ [] := by
      rw [marks_append, hs, marks, hedit, mem_append, mem_cons, ← marks_of_added ht]
      refine ⟨fun h => ?_, fun h => .inr (.inr (by simpa using h))⟩
      rcases h with h | h | h
      · have hle := (marks_le h).2.1
        rw [hs] at hle
        omega
      · simp at h
      · simpa using h
    have hminus : (lines.length, '-') ∈ marks 0 (s ++ edit :: t) ↔ edit.mark = '-' := by
      rw [marks_append, hs, marks, hedit, mem_append, mem_cons]
      refine ⟨fun h => ?_, fun h => .inr (.inl (by simp [h]))⟩
      rcases h with h | h | h
      · have hlt := (marks_le h).2.2 rfl
        rw [hs] at hlt
        omega
      · exact (congrArg Prod.snd h).symm
      · have hge := (marks_le h).1
        simp only [Option.toList_some, length_singleton] at hge
        omega
    simp only [hlines, length_append, length_singleton, Nat.add_sub_cancel, hplus, hminus]
    cases edit with
    | add line => cases hedit
    | remove line =>
      refine ⟨fun _ _ => rfl, fun _ line hline => ?_⟩
      rw [newSide_append] at hline
      exact (mem_append.mp (dropLast_subset _ hline)).elim (hnewS line) (hnewT line)
    | keep line =>
      cases hedit
      rw [newSide_append, newSide_keep]
      constructor
      · intro hall ht'
        refine absurd (hall last ?_) hend
        rw [dropLast_append_cons, dropLast_cons_of_ne_nil (newSide_ne_nil ht ht')]
        simp
      · intro h line hline
        have ht' : t = [] := not_not.mp fun ht' => absurd (h ht') (by simp [Edit.mark])
        rw [ht', newSide_nil, dropLast_concat] at hline
        exact hnewS line hline

theorem Script.added (h : Script lines cursor (hunks (patchLines patch)) script) {added : Line}
    (hmem : .add added ∈ script) : IsLine added ∧ Terminated added := by
  obtain ⟨hunk, hhunk, payload, hline, rfl⟩ := h.add_mem.mp hmem
  have hclean := newline_notMem_patchLines (mem_of_mem_hunks hhunk hline)
  refine ⟨⟨by simp, ?_⟩, by simp [Terminated]⟩
  rw [dropLast_concat]
  exact fun h => hclean (mem_cons_of_mem _ h)

theorem Script.isLine_new (h : Script lines cursor (hunks (patchLines patch)) script)
    (hold : oldSide script = splitLines original) : ∀ line ∈ newSide script, IsLine line := by
  intro line hmem
  rcases mem_newSide hmem with hmem | hmem
  · exact isLine_of_mem (hold ▸ hmem)
  · exact (h.added hmem).1

/-- An accepted diff replaces exactly its old lines, unless it adds a line with a carriage
    return, or below an open last line that stays. -/
theorem applyUnifiedDiff_exact_iff {original patch result : List Char}
    (h : applyUnifiedDiff original patch = .ok result) :
    replaceHunks (contents original) 0 (hunks (patchLines patch)) = some (contents result) ↔
      (∀ hunk ∈ hunks (patchLines patch), ∀ payload, '+' :: payload ∈ hunk.2 →
        payload.getLast? ≠ some '\r') ∧
      (original = [] ∨ original.getLast? = some '\n' ∨
        ((∃ payload, ((splitLines original).length, '+' :: payload) ∈
            placedLines (hunks (patchLines patch))) →
          ∃ payload, ((splitLines original).length - 1, '-' :: payload) ∈
            placedLines (hunks (patchLines patch)))) := by
  obtain ⟨-, script, hscript, rfl⟩ := applyUnifiedDiff_ok_iff.mp h
  have hold : oldSide script = splitLines original := hscript.old
  have hend : ∀ added, .add added ∈ script → Terminated added := fun added hmem =>
    (hscript.added hmem).2
  have hreturns : (∀ added, .add added ∈ script → lineContent added = added.dropLast) ↔
      ∀ hunk ∈ hunks (patchLines patch), ∀ payload, '+' :: payload ∈ hunk.2 →
        payload.getLast? ≠ some '\r' := by
    constructor
    · intro hall hunk hhunk payload hmem
      have hcontent := hall _ (hscript.add_mem.mpr ⟨hunk, hhunk, payload, hmem, rfl⟩)
      rw [dropLast_concat] at hcontent
      exact (lineContent_append payload).mp hcontent
    · intro hall added hmem
      obtain ⟨hunk, hhunk, payload, hline, rfl⟩ := hscript.add_mem.mp hmem
      rw [dropLast_concat]
      exact (lineContent_append payload).mpr (hall hunk hhunk payload hline)
  obtain ⟨-, hlength, hsplit⟩ := splitLines_flatten (hscript.isLine_new hold)
  rw [hscript.placed_iff (by decide) (by decide), hscript.placed_iff (by decide) (by decide),
    ← terminated_newSide_iff hold hend, ← hreturns, ← map_lineContent_newSide, contents, contents,
    hscript.replaceHunks, Option.some_inj]
  constructor
  · intro heq
    have hsame := congrArg List.length heq
    rw [length_filterMap_content, length_map] at hsame
    have hterminated := hlength.mp hsame.symm
    rw [hsplit hterminated] at heq
    exact ⟨heq.symm, hterminated⟩
  · rintro ⟨heq, hterminated⟩
    rw [hsplit hterminated, heq]

theorem added_line_stays_apart : replaceHunks (contents "a\nb".toList) 0
        (hunks (patchLines "@@ -2 +2,2 @@\n-b\n+b\n+c\n".toList)) =
      some (contents "a\nb\nc\n".toList) := by
  have happly : applyUnifiedDiff "a\nb".toList "@@ -2 +2,2 @@\n-b\n+b\n+c\n".toList =
      .ok "a\nb\nc\n".toList := by decide
  have hhunks : hunks (patchLines "@@ -2 +2,2 @@\n-b\n+b\n+c\n".toList) =
      [("@@ -2 +2,2 @@".toList, ["-b".toList, "+b".toList, "+c".toList])] := by decide
  refine (applyUnifiedDiff_exact_iff happly).mpr ⟨?_, .inr (.inr fun _ => ⟨['b'], by decide⟩)⟩
  rw [hhunks]
  intro hunk hhunk payload hmem
  cases mem_singleton.mp hhunk
  have hpayload : payload = ['b'] ∨ payload = ['c'] := by simpa using hmem
  rcases hpayload with rfl | rfl <;> decide

/-- `b`, added below the unfinished `a`, is joined. -/
theorem added_line_is_joined :
    applyUnifiedDiff "a".toList "@@ -1 +1,2 @@\n a\n+b\n".toList = .ok "ab\n".toList ∧
      replaceHunks (contents "a".toList) 0 (hunks (patchLines "@@ -1 +1,2 @@\n a\n+b\n".toList)) =
        some ["a".toList, "b".toList] ∧
      contents "ab\n".toList = ["ab".toList] := by
  decide

end Patch
