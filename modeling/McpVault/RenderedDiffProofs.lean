import McpVault.UnifiedDiffProofs

/-! # Rendered diffs — which standard diffs turn the old text into the new one

Every choice of context lines is one way to cut an edit script into hunks, and the result is
stated for any cut.  A range of no lines names the line above it; `openHunk` takes one off the
number all the same, so a hunk without old lines lands one line too early, or nowhere at the top. -/

namespace Patch

open List
open PlainText (parseUnsigned_toDigits startsWith)
open Option (bind_some getD_some map_eq_some_iff)

/-! ## Rendering -/

/-- A hunk and the lines left out above it. -/
structure Cut where
  above : List Line
  body : List Edit
  (shortOld shortNew : Bool)

/-- The script; below the last hunk `rest` stays. -/
def scriptOf (cuts : List Cut) (rest : List Line) : List Edit :=
  cuts.flatMap (fun c => c.above.map .keep ++ c.body) ++ rest.map .keep

def renderRange (short : Bool) (before count : Nat) : Line :=
  Nat.toDigits 10 (if count = 0 then before else before + 1) ++
    if short ∧ count = 1 then [] else ',' :: Nat.toDigits 10 count

/-- A hunk's header, with the lines above it. -/
def Cut.header (c : Cut) (old new : Nat) : Line :=
  "@@ -".toList ++ renderRange c.shortOld old (oldSide c.body).length ++
    (" +".toList ++ renderRange c.shortNew new (newSide c.body).length) ++ " @@".toList

def Edit.line : Edit → Line
  | .keep line | .remove line | .add line => line

def Edit.render (edit : Edit) : Line := edit.mark :: edit.line

/-- The lines of a diff for these hunks. -/
def renderCuts : Nat → Nat → List Cut → List Line
  | _, _, [] => []
  | old, new, c :: cuts =>
    (c.header (old + c.above.length) (new + c.above.length) ++ ['\n']) ::
      (c.body.map Edit.render ++ renderCuts (old + c.above.length + (oldSide c.body).length)
        (new + c.above.length + (newSide c.body).length) cuts)

/-- A unified diff: an edit script cut into hunks. -/
structure UnifiedDiff (a b : List Char) where
  names : List Line
  cuts : List Cut
  rest : List Line
  old : oldSide (scriptOf cuts rest) = splitLines a
  new : newSide (scriptOf cuts rest) = splitLines b
  named : ∀ line ∈ names, IsLine line ∧ Terminated line ∧ isHeader line = false
  filled : ∀ c ∈ cuts, c.body ≠ []
  apart : ∀ c ∈ cuts.tail, c.above ≠ []

def UnifiedDiff.text {a b : List Char} (d : UnifiedDiff a b) : List Char :=
  (d.names ++ renderCuts 0 0 d.cuts).flatten

/-! ## Headers -/

variable {short : Bool} {c : Char} {edit : Edit} {last line : Line} {cuts : List Cut}
  {body edits : List Edit} {added rest : List Line} {before count n : Nat}

theorem isWhitespace_digit (h : c ∈ Nat.toDigits 10 n) :
    isWhitespace c = false ∧ c ≠ ',' := by
  have hdigit := Nat.isDigit_of_mem_toDigits (by decide) (by decide) h
  have hrange : 48 ≤ c.toNat ∧ c.toNat ≤ 57 := by
    simpa [Char.isDigit, UInt32.le_iff_toNat_le] using hdigit
  refine ⟨by unfold isWhitespace; simp only [decide_eq_false_iff_not]; omega, ?_⟩
  rintro rfl; exact absurd hrange (by decide)

theorem parseRange_renderRange (hstart : before + 1 < 2 ^ 64) (hcount : count < 2 ^ 64) :
    parseRange (renderRange short before count) =
      .ok (if count = 0 then before else before + 1, count) := by
  have hfits : (if count = 0 then before else before + 1) < 2 ^ 64 := by split <;> omega
  unfold parseRange renderRange
  generalize (if count = 0 then before else before + 1) = start at hfits ⊢
  have hdigits : ∀ c ∈ Nat.toDigits 10 start, decide (c ≠ ',') := fun c hc =>
    decide_eq_true (isWhitespace_digit hc).2
  by_cases hshort : short ∧ count = 1
  · rw [if_pos hshort, hshort.2, append_nil, takeWhile_eq_self_iff.mpr hdigits,
      dropWhile_eq_nil_iff.mpr hdigits, parseUsize, parseUnsigned_toDigits hfits]
    rfl
  · rw [if_neg hshort, takeWhile_append_of_pos hdigits, dropWhile_append_of_pos hdigits,
      takeWhile_cons_of_neg (by decide), dropWhile_cons_of_neg (by decide),
      append_nil, parseUsize, parseUnsigned_toDigits hfits]
    dsimp only [pure_bind]
    rw [parseUnsigned_toDigits hcount]
    rfl

theorem splitWhitespace_cons {word rest : Line} (hne : word ≠ [])
    (hword : ∀ d ∈ word, isWhitespace d = false) (hc : isWhitespace c = false) :
    splitWhitespace (word ++ ' ' :: c :: rest) = word :: splitWhitespace (c :: rest) := by
  have hspace : isWhitespace ' ' := by decide
  have hchain : word.splitBy (fun a b => isWhitespace a == isWhitespace b) = [word] := by
    refine splitBy_of_isChain hne (List.Pairwise.isChain ?_)
    refine pairwise_of_forall_mem_list fun a ha b hb => ?_
    rw [hword a ha, hword b hb]
    rfl
  unfold splitWhitespace
  rw [splitBy_append_cons, show (' ' :: c :: rest : Line) = [' '] ++ c :: rest from rfl,
    splitBy_append_cons, hchain, splitBy_of_isChain (by simp) (by simp)]
  · have hany : word.any isWhitespace = false := by
      rw [any_eq_false]
      exact fun d hd => by simp [hword d hd]
    simp [hany, hspace]
  · simp [hspace, hc]
  · intro d hd
    rw [hword d (mem_of_getLast? hd), hspace]
    rfl

theorem isWhitespace_renderRange (h : c ∈ renderRange short before count) :
    isWhitespace c = false := by
  rcases mem_append.mp h with h | h
  · exact (isWhitespace_digit h).1
  · split at h
    next => cases h
    next =>
      rcases mem_cons.mp h with rfl | h
      · decide
      · exact (isWhitespace_digit h).1

theorem parseHunkHeader_header {c : Cut} {old new : Nat}
    (hold : old + (oldSide c.body).length + 1 < 2 ^ 64)
    (hnew : new + (newSide c.body).length + 1 < 2 ^ 64) :
    parseHunkHeader (c.header old new) =
      .ok (if (oldSide c.body).length = 0 then old else old + 1, (oldSide c.body).length,
        (newSide c.body).length) := by
  have hwords : splitWhitespace (c.header old new) =
      ["@@".toList, '-' :: renderRange c.shortOld old (oldSide c.body).length,
        '+' :: renderRange c.shortNew new (newSide c.body).length, "@@".toList] := by
    have hrange : ∀ {mark : Char} {short before count}, isWhitespace mark = false →
        ∀ d ∈ mark :: renderRange short before count, isWhitespace d = false := by
      intro mark short before count hmark d hd
      rcases mem_cons.mp hd with rfl | hd
      · exact hmark
      · exact isWhitespace_renderRange hd
    have hsplit : c.header old new = "@@".toList ++ ' ' :: '-' ::
        (renderRange c.shortOld old (oldSide c.body).length ++ ' ' :: '+' ::
          (renderRange c.shortNew new (newSide c.body).length ++ ' ' :: '@' :: ['@'])) := by
      simp [Cut.header]
    have hsigns : ∀ d ∈ "@@".toList, isWhitespace d = false := by
      intro d hd
      have hat : d = '@' := by simpa using hd
      rw [hat]
      decide
    rw [hsplit, splitWhitespace_cons (by decide) hsigns (by decide), ← cons_append,
      splitWhitespace_cons (by simp) (hrange (by decide)) (by decide), ← cons_append,
      splitWhitespace_cons (by simp) (hrange (by decide)) (by decide)]
    rfl
  unfold parseHunkHeader
  rw [hwords]
  show (parseRange _ >>= fun old => parseRange _ >>= fun new => pure (old.1, old.2, new.2)) = _
  rw [parseRange_renderRange (by omega) (by omega), parseRange_renderRange (by omega) (by omega)]
  rfl

/-! ## Bodies -/

theorem unterminated_cons (hc : c ≠ '\r') (h : Terminated line) :
    unterminated (c :: line) = c :: lineContent line := by
  obtain ⟨body, rfl⟩ := List.getLast?_eq_some_iff.mp h
  rw [unterminated, ← cons_append, stripSuffix_append, lineContent, stripSuffix_append]
  dsimp only [getD_some]
  cases body with
  | nil => simp [stripSuffix, hc]
  | cons d body =>
    unfold stripSuffix
    rw [List.getLast?_cons_cons]
    split <;> rfl

/-- A line as the fold adds it. -/
def ended (line : Line) : Line := lineContent line ++ ['\n']

/-- What the fold makes of an edit. -/
def Edit.landed : Edit → Edit
  | .add line => .add (ended line)
  | edit => edit

theorem Acts.of_mark {source : List Line} {payload : Line}
    (h : Acts source (edit.mark :: payload) edits) :
    (edit.mark = ' ' → ∃ line below, source = line :: below ∧ edits = [.keep line]) ∧
      (edit.mark = '-' → ∃ line below, source = line :: below ∧ edits = [.remove line]) ∧
      (edit.mark = '+' → edits = [.add (payload ++ ['\n'])]) := by
  generalize hline : edit.mark :: payload = line at h
  cases h with
  | note hnote =>
    obtain ⟨rest, rfl⟩ := note_cons hnote
    have hmark := (List.cons.inj hline).1
    cases edit <;> exact absurd hmark (by simp [Edit.mark])
  | keep line below =>
    have hmark := (List.cons.inj hline).1
    exact ⟨fun _ => ⟨line, below, rfl, rfl⟩, fun h => absurd (hmark.symm.trans h) (by decide),
      fun h => absurd (hmark.symm.trans h) (by decide)⟩
  | remove line below =>
    have hmark := (List.cons.inj hline).1
    exact ⟨fun h => absurd (hmark.symm.trans h) (by decide), fun _ => ⟨line, below, rfl, rfl⟩,
      fun h => absurd (hmark.symm.trans h) (by decide)⟩
  | add _ payload' =>
    obtain ⟨hmark, rfl⟩ := List.cons.inj hline
    exact ⟨fun h => absurd (hmark.symm.trans h) (by decide),
      fun h => absurd (hmark.symm.trans h) (by decide), fun _ => rfl⟩

theorem reads_render :
    Reads (oldSide body ++ rest) (body.map fun edit => edit.mark :: lineContent edit.line) edits ↔
      edits = body.map Edit.landed := by
  induction body generalizing edits with
  | nil =>
    constructor
    · rintro ⟨⟩
      rfl
    · rintro rfl
      exact .nil _
  | cons edit body ih =>
    constructor
    · intro h
      cases h with
      | @cons _ _ _ made below act reads =>
        obtain ⟨hkeep, hremove, hadd⟩ := act.of_mark
        cases edit with
        | keep line =>
          obtain ⟨line', source, hsource, rfl⟩ := hkeep rfl
          cases hsource
          rw [ih.mp reads]
          rfl
        | remove line =>
          obtain ⟨line', source, hsource, rfl⟩ := hremove rfl
          cases hsource
          rw [ih.mp reads]
          rfl
        | add line =>
          cases hadd rfl
          rw [ih.mp reads]
          rfl
    · rintro rfl
      cases edit with
      | keep line => exact .cons (.keep line _) (ih.mpr rfl)
      | remove line => exact .cons (.remove line _) (ih.mpr rfl)
      | add line => exact .cons (.add _ _) (ih.mpr rfl)

@[simp] theorem oldSide_landed (body : List Edit) : oldSide (body.map Edit.landed) = oldSide body := by
  induction body with
  | nil => rfl
  | cons edit body ih => cases edit <;> simp [Edit.landed, ih]

theorem length_newSide_landed (body : List Edit) :
    (newSide (body.map Edit.landed)).length = (newSide body).length := by
  induction body with
  | nil => rfl
  | cons edit body ih => cases edit <;> simp [Edit.landed, ih]

/-! ## Where the hunks land -/

def hunkList : Nat → Nat → List Cut → List (Line × List Line)
  | _, _, [] => []
  | old, new, c :: cuts =>
    (c.header (old + c.above.length) (new + c.above.length),
      c.body.map fun edit => edit.mark :: lineContent edit.line) ::
      hunkList (old + c.above.length + (oldSide c.body).length)
        (new + c.above.length + (newSide c.body).length) cuts

/-- What the fold makes; without old lines, one early. -/
def landedCuts (rest : List Line) : List Line → List Cut → Option (List Line)
  | lag, [] => some (lag ++ rest)
  | lag, c :: cuts =>
    if oldSide c.body = [] then
      (lag ++ c.above).getLast?.bind fun last => (landedCuts rest [last] cuts).map fun below =>
        (lag ++ c.above).dropLast ++ newSide (c.body.map Edit.landed) ++ below
    else
      (landedCuts rest [] cuts).map fun below =>
        lag ++ c.above ++ newSide (c.body.map Edit.landed) ++ below

section Landing

variable {lines : List Line} {cursor : Nat} {c : Cut} {cuts : List Cut} {rest : List Line}

theorem oldSide_scriptOf_cons : oldSide (scriptOf (c :: cuts) rest) =
    c.above ++ oldSide c.body ++ oldSide (scriptOf cuts rest) := by
  simp [scriptOf]

theorem newSide_scriptOf_cons : newSide (scriptOf (c :: cuts) rest) =
    c.above ++ newSide c.body ++ newSide (scriptOf cuts rest) := by
  simp [scriptOf]

/-- Its header points `k` lines further down. -/
theorem script_cut_iff {header : Line} {start k : Nat} {below out : List Line}
    {hunks : List (Line × List Line)}
    (hparse : parseHunkHeader header = .ok (start, (oldSide c.body).length, (newSide c.body).length))
    (hpositive : start ≠ 0) (hstart : start - 1 = cursor + k) (hinside : cursor + k ≤ lines.length)
    (hsource : lines.drop (cursor + k) = oldSide c.body ++ below) :
    (∃ script, Script lines cursor
        ((header, c.body.map fun edit => edit.mark :: lineContent edit.line) :: hunks) script ∧
        newSide script = out) ↔
      ∃ made, (∃ script, Script lines (cursor + k + (oldSide c.body).length) hunks script ∧
        newSide script = made) ∧
        (lines.drop cursor).take k ++ newSide (c.body.map Edit.landed) ++ made = out := by
  have hgap : (lines.take (start - 1)).drop cursor = (lines.drop cursor).take k := by
    rw [hstart, drop_take, Nat.add_sub_cancel_left]
  constructor
  · rintro ⟨script, hscript, rfl⟩
    obtain ⟨start', edits, below', hparse', -, -, -, hreads, htail, rfl⟩ :=
      script_cons_iff.mp hscript
    obtain ⟨rfl, -⟩ := Prod.mk.inj (Except.ok.inj (hparse.symm.trans hparse'))
    rw [hstart, hsource, reads_render] at hreads
    subst hreads
    rw [oldSide_landed, hstart] at htail
    exact ⟨_, ⟨below', htail, rfl⟩, by rw [newSide_append, newSide_append, newSide_map_keep, hgap]⟩
  · rintro ⟨_, ⟨below', htail, rfl⟩, rfl⟩
    refine ⟨_, script_cons_iff.mpr ⟨start, c.body.map Edit.landed, below', ?_, hpositive,
      by omega, by omega, ?_, ?_, rfl⟩, ?_⟩
    · rw [oldSide_landed, length_newSide_landed, hparse]
    · rw [hstart, hsource]
      exact reads_render.mpr rfl
    · rwa [oldSide_landed, hstart]
    · rw [newSide_append, newSide_append, newSide_map_keep, hgap]

theorem script_hunkList_iff {lag : List Line} {new : Nat} {out : List Line}
    (hlines : lines.drop cursor = lag ++ oldSide (scriptOf cuts rest))
    (hcursor : cursor ≤ lines.length) (hold : lines.length < 2 ^ 63)
    (hnew : new + (newSide (scriptOf cuts rest)).length < 2 ^ 63) :
    (∃ script, Script lines cursor (hunkList (cursor + lag.length) new cuts) script ∧
        newSide script = out) ↔ landedCuts rest lag cuts = some out := by
  induction cuts generalizing cursor lag new out with
  | nil =>
    have hrest : lines.drop cursor = lag ++ rest := by simpa [scriptOf] using hlines
    simp only [hunkList, landedCuts, Option.some_inj, ← hrest]
    constructor
    · rintro ⟨_, ⟨⟩, rfl⟩
      exact (newSide_map_keep _).symm
    · rintro rfl
      exact ⟨_, .rest _, newSide_map_keep _⟩
  | cons c cuts ih =>
    rw [oldSide_scriptOf_cons, ← append_assoc, ← append_assoc] at hlines
    rw [newSide_scriptOf_cons, length_append, length_append] at hnew
    have hlength := congrArg List.length hlines
    simp only [length_drop, length_append] at hlength
    have hparse : parseHunkHeader
        (c.header (cursor + lag.length + c.above.length) (new + c.above.length)) = _ :=
      parseHunkHeader_header (by omega) (by omega)
    rw [hunkList]
    by_cases hzero : oldSide c.body = []
    · rw [hzero, append_nil] at hlines
      rw [landedCuts, if_pos hzero]
      rw [if_pos (by rw [hzero]; rfl)] at hparse
      rcases eq_nil_or_concat (lag ++ c.above) with hnone | ⟨gap, last, hgap⟩
      · -- the header points above the cursor, or above the text
        have hlen := congrArg List.length hnone
        rw [length_append, length_nil] at hlen
        rw [hnone]
        refine ⟨fun ⟨script, hscript, _⟩ => ?_, fun h => (by cases h)⟩
        obtain ⟨start, edits, below, hparse', hpositive, hbehind, -⟩ := script_cons_iff.mp hscript
        obtain ⟨rfl, -⟩ := Prod.mk.inj (Except.ok.inj (hparse.symm.trans hparse'))
        omega
      · rw [concat_eq_append] at hgap
        have hlen := congrArg List.length hgap
        simp only [length_append, length_singleton] at hlen
        have htake : (lines.drop cursor).take gap.length = gap := by
          rw [hlines, hgap, append_assoc, take_left]
        have hdrop : lines.drop (cursor + gap.length) = [last] ++ oldSide (scriptOf cuts rest) := by
          rw [← drop_drop, hlines, hgap, append_assoc, drop_left]
        have hnext : cursor + lag.length + c.above.length = cursor + gap.length + 1 := by omega
        have hsource : lines.drop (cursor + gap.length) =
            oldSide c.body ++ lines.drop (cursor + gap.length) := by rw [hzero]; rfl
        have hih (made : List Line) : (∃ script, Script lines (cursor + gap.length)
            (hunkList (cursor + gap.length + 1) (new + c.above.length + (newSide c.body).length) cuts)
            script ∧ newSide script = made) ↔ landedCuts rest [last] cuts = some made :=
          ih hdrop (by omega) (by omega)
        rw [script_cut_iff hparse (by omega) (by omega) (by omega) hsource, hgap,
          List.getLast?_concat, dropLast_concat, htake, hzero, length_nil, Nat.add_zero,
          hnext, bind_some, map_eq_some_iff]
        simp only [← hih]
    · rw [landedCuts, if_neg hzero]
      have hcount : (oldSide c.body).length ≠ 0 := fun h => hzero (length_eq_zero_iff.mp h)
      rw [if_neg hcount] at hparse
      have htake : (lines.drop cursor).take (lag.length + c.above.length) = lag ++ c.above := by
        rw [hlines, append_assoc, ← length_append, take_left]
      have hdrop : lines.drop (cursor + (lag.length + c.above.length)) =
          oldSide c.body ++ oldSide (scriptOf cuts rest) := by
        rw [← drop_drop, hlines, append_assoc, ← length_append, drop_left]
      have hbelow : lines.drop (cursor + lag.length + c.above.length + (oldSide c.body).length) =
          [] ++ oldSide (scriptOf cuts rest) := by
        rw [Nat.add_assoc cursor, ← drop_drop, hdrop, drop_left]
        rfl
      have hih (made : List Line) : (∃ script,
          Script lines (cursor + lag.length + c.above.length + (oldSide c.body).length)
            (hunkList (cursor + lag.length + c.above.length + (oldSide c.body).length)
              (new + c.above.length + (newSide c.body).length) cuts)
          script ∧ newSide script = made) ↔ landedCuts rest [] cuts = some made :=
        ih hbelow (by omega) (by omega)
      rw [script_cut_iff hparse (by omega) (by omega) (by omega) hdrop, htake,
        map_eq_some_iff, ← Nat.add_assoc cursor]
      simp only [← hih]

end Landing

/-! ## When every hunk lands in its place -/

theorem ended_eq_iff (h : Terminated line) :
    ended line = line ↔ line.dropLast.getLast? ≠ some '\r' := by
  obtain ⟨payload, rfl⟩ := List.getLast?_eq_some_iff.mp h
  rw [ended, append_left_inj, dropLast_concat, lineContent_append]

theorem length_ended (h : Terminated line) :
    (ended line).length ≤ line.length ∧ (line.length ≤ (ended line).length → ended line = line) := by
  obtain ⟨payload, rfl⟩ := List.getLast?_eq_some_iff.mp h
  by_cases hcr : payload.getLast? = some '\r'
  · obtain ⟨inner, rfl⟩ := List.getLast?_eq_some_iff.mp hcr
    rw [ended, lineContent, stripSuffix_append, getD_some, stripSuffix_append, getD_some]
    simp
  · rw [ended, (lineContent_append payload).mpr hcr]
    exact ⟨le_rfl, fun _ => rfl⟩

theorem newSide_landed_iff :
    newSide (body.map Edit.landed) = newSide body ↔ ∀ line, .add line ∈ body → ended line = line := by
  induction body with
  | nil => simp
  | cons edit body ih =>
    cases edit with
    | keep line | remove line => simpa [Edit.landed] using ih
    | add line => simp [Edit.landed, ih]

theorem newSide_landed_added (h : oldSide body = []) :
    newSide (body.map Edit.landed) = (newSide body).map ended := by
  induction body with
  | nil => rfl
  | cons edit body ih =>
    cases edit with
    | keep line | remove line => cases h
    | add line => simpa [Edit.landed] using ih h

/-- Lines the same above and below a line copy it. -/
theorem eq_of_rotated {first : Line} (h : ∀ line ∈ added, Terminated line)
    (hrot : added.map ended ++ [last] = first :: added) :
    first.length ≤ last.length ∧ (last.length ≤ first.length →
      first = last ∧ ∀ line ∈ added, ended line = line ∧ line = last) := by
  induction added generalizing first with
  | nil =>
    cases hrot
    exact ⟨le_rfl, fun _ => ⟨rfl, fun _ h => (by cases h)⟩⟩
  | cons line added ih =>
    obtain ⟨rfl, hrest⟩ := List.cons.inj hrot
    obtain ⟨hle, hrest⟩ := ih (fun l hl => h l (mem_cons_of_mem _ hl)) hrest
    obtain ⟨hended, hsame⟩ := length_ended (h line (mem_cons_self ..))
    refine ⟨hended.trans hle, fun hge => ?_⟩
    have hline : ended line = line := hsame (hle.trans hge)
    obtain ⟨rfl, hall⟩ := hrest (hge.trans hended)
    exact ⟨hline, forall_mem_cons.mpr ⟨⟨hline, rfl⟩, hall⟩⟩

theorem rotated_of_eq (h : ∀ line ∈ added, line = last) : added ++ [last] = last :: added := by
  rw [eq_replicate_of_mem h, ← replicate_succ', replicate_succ]

/-- A hunk that the fold applies as it is meant. -/
def Cut.Fits (c : Cut) : Prop :=
  (∀ line, .add line ∈ c.body → line.dropLast.getLast? ≠ some '\r') ∧
    (oldSide c.body = [] → c.above ≠ [] ∧ ∀ line ∈ newSide c.body, c.above.getLast? = some line)

theorem landedCuts_head {below : List Line} (hapart : ∀ c ∈ cuts, c.above ≠ [])
    (h : landedCuts rest [last] cuts = some below) : ∃ tail, below = last :: tail := by
  cases cuts with
  | nil =>
    cases h
    exact ⟨rest, rfl⟩
  | cons c cuts =>
    rw [landedCuts] at h
    split at h
    next =>
      obtain ⟨made, -, rfl⟩ := map_eq_some_iff.mp h
      refine ⟨c.above.dropLast ++ newSide (c.body.map Edit.landed) ++ made, ?_⟩
      rw [singleton_append, dropLast_cons_of_ne_nil (hapart c (mem_cons_self ..))]
      rfl
    next =>
      obtain ⟨made, -, rfl⟩ := map_eq_some_iff.mp h
      exact ⟨_, rfl⟩

theorem landedCuts_iff {lag : List Line}
    (hended : ∀ c ∈ cuts, ∀ line, .add line ∈ c.body → Terminated line)
    (hlag : lag ≠ [] → ∀ c ∈ cuts, c.above ≠ []) (hapart : ∀ c ∈ cuts.tail, c.above ≠ []) :
    landedCuts rest lag cuts = some (lag ++ newSide (scriptOf cuts rest)) ↔ ∀ c ∈ cuts, c.Fits := by
  induction cuts generalizing lag with
  | nil => simp [landedCuts, scriptOf]
  | cons c cuts ih =>
    have htail : ∀ d ∈ cuts.tail, d.above ≠ [] := fun d hd => hapart d (mem_of_mem_tail hd)
    have hends : ∀ d ∈ cuts, ∀ line, .add line ∈ d.body → Terminated line := fun d hd =>
      hended d (mem_cons_of_mem _ hd)
    have hreturns : (∀ line, .add line ∈ c.body → ended line = line) ↔
        ∀ line, .add line ∈ c.body → line.dropLast.getLast? ≠ some '\r' :=
      forall₂_congr fun line hline => ended_eq_iff (hended c (mem_cons_self ..) line hline)
    rw [forall_mem_cons, newSide_scriptOf_cons, landedCuts, Cut.Fits, ← hreturns,
      ← newSide_landed_iff]
    by_cases hzero : oldSide c.body = []
    · rw [if_pos hzero]
      rcases eq_nil_or_concat (lag ++ c.above) with hnone | ⟨gap, last, hgap⟩
      · rw [hnone]
        refine ⟨fun h => (by cases h), fun h => ?_⟩
        exact absurd (append_eq_nil_iff.mp hnone).2 (h.1.2 hzero).1
      · rw [concat_eq_append] at hgap
        have hih : landedCuts rest [last] cuts = some ([last] ++ newSide (scriptOf cuts rest)) ↔ _ :=
          ih hends (fun _ => hapart) htail
        have habove : c.above ≠ [] := by
          rintro hnil
          by_cases hl : lag = []
          · rw [hl, hnil] at hgap
            simp at hgap
          · exact hlag hl c (mem_cons_self ..) hnil
        have hlast : c.above.getLast? = some last := by
          have h := congrArg List.getLast? hgap
          rwa [List.getLast?_append_of_ne_nil _ habove, List.getLast?_concat] at h
        have hadds : ∀ line ∈ newSide c.body, Terminated line := fun line hline =>
          (mem_newSide hline).elim (fun h => by rw [hzero] at h; cases h)
            (hended c (mem_cons_self ..) line)
        have hwhole : lag ++ (c.above ++ newSide c.body ++ newSide (scriptOf cuts rest)) =
            gap ++ (last :: newSide c.body ++ newSide (scriptOf cuts rest)) := by
          rw [append_assoc, ← append_assoc lag, hgap]
          simp
        rw [hgap, List.getLast?_concat, bind_some, dropLast_concat,
          map_eq_some_iff, ← hih, hwhole]
        constructor
        · rintro ⟨made, hmade, heq⟩
          obtain ⟨tail, rfl⟩ := landedCuts_head hapart hmade
          rw [append_assoc, append_cancel_left_eq, append_cons] at heq
          obtain ⟨hrot, rfl⟩ := append_inj heq (by simp [length_newSide_landed])
          rw [newSide_landed_added hzero] at hrot ⊢
          obtain ⟨-, hall⟩ := (eq_of_rotated hadds hrot).2 le_rfl
          refine ⟨⟨?_, fun _ => ⟨habove, fun line hline => ?_⟩⟩, hmade⟩
          · exact (map_congr_left fun line hline => (hall line hline).1).trans (map_id _)
          · rw [hlast, (hall line hline).2]
        · rintro ⟨⟨hsame, hcopies⟩, hmade⟩
          refine ⟨_, hmade, ?_⟩
          have hall : ∀ line ∈ newSide c.body, line = last := fun line hline =>
            Option.some.inj (((hcopies hzero).2 line hline).symm.trans hlast)
          rw [hsame, append_assoc, ← append_assoc (newSide c.body), rotated_of_eq hall]
    · rw [if_neg hzero]
      have hih : landedCuts rest [] cuts = some ([] ++ newSide (scriptOf cuts rest)) ↔ _ :=
        ih hends (fun h => absurd rfl h) htail
      have hvacuous : ((oldSide c.body = [] → c.above ≠ [] ∧
          ∀ line ∈ newSide c.body, c.above.getLast? = some line)) ↔ True :=
        iff_true_intro fun h => absurd h hzero
      rw [hvacuous, and_true, ← hih, map_eq_some_iff]
      constructor
      · rintro ⟨made, hmade, heq⟩
        simp only [append_assoc, append_cancel_left_eq] at heq
        obtain ⟨hsame, rfl⟩ := append_inj heq (length_newSide_landed _)
        exact ⟨hsame, hmade⟩
      · rintro ⟨hsame, hmade⟩
        exact ⟨_, hmade, by simp [hsame]⟩

/-! ## The text of a diff -/

theorem unterminated_starts (line : Line) : unterminated line <+: line := by
  unfold unterminated stripSuffix
  by_cases hend : line.getLast? = some '\n'
  · rw [if_pos hend]
    by_cases hcr : line.dropLast.getLast? = some '\r'
    · simp only [hcr, if_true, getD_some]
      exact ( dropLast_prefix _).trans ( dropLast_prefix _)
    · simp only [hcr, if_false, Option.getD_none]
      exact dropLast_prefix _
  · rw [if_neg hend]

theorem isHeader_unterminated (h : isHeader line = false) :
    isHeader (unterminated line) = false := by
  rw [Bool.eq_false_iff] at h ⊢
  exact fun hheader => h ( isPrefixOf_iff_prefix.mpr
    (( isPrefixOf_iff_prefix.mp hheader).trans (unterminated_starts line)))

theorem hunks_append {body lines : List Line} (h : ∀ line ∈ body, isHeader line = false) :
    hunks (body ++ lines) = hunks lines ∧ bodyOf (body ++ lines) = body ++ bodyOf lines := by
  induction body with
  | nil => exact ⟨rfl, rfl⟩
  | cons line body ih =>
    obtain ⟨hhunks, hbody⟩ := ih fun l hl => h l (mem_cons_of_mem _ hl)
    have hline := h line (mem_cons_self ..)
    refine ⟨by simpa [hunks, hline] using hhunks, ?_⟩
    unfold bodyOf at hbody ⊢
    rw [cons_append, takeWhile_cons_of_pos (by simp [hline]), hbody]
    rfl

theorem Cut.header_line (c : Cut) (old new : Nat) :
    isHeader (c.header old new) ∧ '\n' ∉ c.header old new ∧
      (c.header old new).getLast? ≠ some '\r' := by
  refine ⟨by simp [Cut.header, isHeader, startsWith], fun h => ?_, ?_⟩
  rotate_left
  · rw [Cut.header, List.getLast?_append_of_ne_nil _ (by decide)]
    decide
  have hrange {short before count} (h : '\n' ∈ renderRange short before count) : False :=
    absurd (isWhitespace_renderRange h) (by decide)
  simp only [Cut.header, mem_append] at h
  rcases h with ((h | h) | h | h) | h
  · exact absurd h (by decide)
  · exact hrange h
  · exact absurd h (by decide)
  · exact hrange h
  · exact absurd h (by decide)

/-- A rendered diff's lines; the fold sees its hunks. -/
theorem renderCuts_spec (old new : Nat)
    (h : ∀ c ∈ cuts, ∀ edit ∈ c.body, IsLine edit.line ∧ Terminated edit.line) :
    (∀ line ∈ renderCuts old new cuts, IsLine line ∧ Terminated line) ∧
      hunks ((renderCuts old new cuts).map unterminated) = hunkList old new cuts ∧
      bodyOf ((renderCuts old new cuts).map unterminated) = [] := by
  induction cuts generalizing old new with
  | nil => exact ⟨fun _ h => (by cases h), rfl, rfl⟩
  | cons c cuts ih =>
    obtain ⟨hlines, hhunks, hbody⟩ := ih (old + c.above.length + (oldSide c.body).length)
      (new + c.above.length + (newSide c.body).length) fun d hd => h d (mem_cons_of_mem _ hd)
    have hedits := h c (mem_cons_self ..)
    obtain ⟨hheader, hinner, hreturn⟩ := c.header_line (old + c.above.length) (new + c.above.length)
    have hended : unterminated (c.header (old + c.above.length) (new + c.above.length) ++ ['\n']) =
        c.header (old + c.above.length) (new + c.above.length) := by
      simp [unterminated, stripSuffix, hreturn]
    have hmark : ∀ edit : Edit, edit.mark ≠ '\n' ∧ edit.mark ≠ '\r' := by
      intro edit
      cases edit <;> simp [Edit.mark]
    have hrendered : (c.body.map Edit.render).map unterminated =
        c.body.map fun edit => edit.mark :: lineContent edit.line := by
      rw [map_map]
      exact map_congr_left fun edit hedit =>
        unterminated_cons (hmark edit).2 (hedits edit hedit).2
    have hplain : ∀ line ∈ c.body.map fun edit => edit.mark :: lineContent edit.line,
        isHeader line = false := by
      intro line hline
      obtain ⟨edit, -, rfl⟩ := mem_map.mp hline
      cases edit <;> rfl
    obtain ⟨hskip, htake⟩ := hunks_append hplain
    refine ⟨?_, ?_, ?_⟩
    · intro line hline
      rcases mem_cons.mp hline with rfl | hline
      · exact ⟨⟨by simp, by simpa using hinner⟩, by simp [Terminated]⟩
      · rcases mem_append.mp hline with hline | hline
        · obtain ⟨edit, hedit, rfl⟩ := mem_map.mp hline
          obtain ⟨⟨hne, hnone⟩, hend⟩ := hedits edit hedit
          refine ⟨⟨by simp [Edit.render], ?_⟩, ?_⟩
          · rw [Edit.render, dropLast_cons_of_ne_nil hne]
            simp [hnone, (hmark edit).1.symm]
          · obtain ⟨payload, hline⟩ := List.getLast?_eq_some_iff.mp hend
            simp [Terminated, Edit.render, hline, List.getLast?_cons]
        · exact hlines line hline
    · rw [renderCuts, map_cons, map_append, hrendered, hended, hunks, if_pos hheader,
        hskip, htake, hhunks, hbody, append_nil]
      rfl
    · rw [renderCuts, map_cons, hended, bodyOf, takeWhile_cons_of_neg (by simp [hheader])]

theorem Edit.line_mem {script : List Edit} (h : edit ∈ script) :
    edit.line ∈ oldSide script ∨ edit.line ∈ newSide script := by
  cases edit with
  | keep line | remove line => exact .inl (mem_filterMap.mpr ⟨_, h, rfl⟩)
  | add line => exact .inr (mem_filterMap.mpr ⟨_, h, rfl⟩)

theorem length_splitLines_le (text : List Char) : (splitLines text).length ≤ text.length := by
  have hflat : ∀ lines : List Line, (∀ line ∈ lines, line ≠ []) →
      lines.length ≤ lines.flatten.length := by
    intro lines h
    induction lines with
    | nil => rfl
    | cons line lines ih =>
      have hpos := length_pos_iff.mpr (h line (mem_cons_self ..))
      have hle := ih fun l hl => h l (mem_cons_of_mem _ hl)
      simp only [length_cons, flatten_cons, length_append]
      omega
  simpa [flatten_splitLines] using hflat _ fun line hline => (isLine_of_mem hline).1

/-- Applied as meant iff it has a hunk and all fit. -/
theorem UnifiedDiff.applies_iff {a b : List Char} (d : UnifiedDiff a b)
    (ha : ∀ line ∈ splitLines a, Terminated line) (hb : ∀ line ∈ splitLines b, Terminated line)
    (hsizeA : a.length < 2 ^ 63) (hsizeB : b.length < 2 ^ 63) :
    applyUnifiedDiff a d.text = .ok b ↔ d.cuts ≠ [] ∧ ∀ c ∈ d.cuts, c.Fits := by
  have hedits : ∀ c ∈ d.cuts, ∀ edit ∈ c.body, IsLine edit.line ∧ Terminated edit.line := by
    intro c hc edit hedit
    have hmem : edit ∈ scriptOf d.cuts d.rest := by
      refine mem_append_left _ (mem_flatMap.mpr ⟨c, hc, mem_append_right _ hedit⟩)
    rcases edit.line_mem hmem with h | h
    · rw [d.old] at h
      exact ⟨isLine_of_mem h, ha _ h⟩
    · rw [d.new] at h
      exact ⟨isLine_of_mem h, hb _ h⟩
  obtain ⟨hlines, hcuts, -⟩ := renderCuts_spec 0 0 hedits
  have hall : ∀ line ∈ d.names ++ renderCuts 0 0 d.cuts, IsLine line ∧ Terminated line := by
    intro line hline
    rcases mem_append.mp hline with h | h
    · exact ⟨(d.named line h).1, (d.named line h).2.1⟩
    · exact hlines line h
  have hsplit : splitLines d.text = d.names ++ renderCuts 0 0 d.cuts :=
    (splitLines_flatten fun line hline => (hall line hline).1).2.2 fun line hline =>
      (hall line (dropLast_subset _ hline)).2
  have hhunks : hunks (patchLines d.text) = hunkList 0 0 d.cuts := by
    rw [patchLines, hsplit, map_append, ← hcuts]
    refine (hunks_append fun line hline => ?_).1
    obtain ⟨name, hname, rfl⟩ := mem_map.mp hline
    exact isHeader_unterminated (d.named name hname).2.2
  have hsizeOld := (length_splitLines_le a).trans_lt hsizeA
  have hsizeNew : 0 + (newSide (scriptOf d.cuts d.rest)).length < 2 ^ 63 := by
    rw [d.new, Nat.zero_add]
    exact (length_splitLines_le b).trans_lt hsizeB
  have hresult : (∃ script, Script (splitLines a) 0 (hunks (patchLines d.text)) script ∧
      b = (newSide script).flatten) ↔
      ∃ script, Script (splitLines a) 0 (hunkList 0 0 d.cuts) script ∧
        newSide script = [] ++ newSide (scriptOf d.cuts d.rest) := by
    rw [← hhunks, d.new]
    refine exists_congr fun script => and_congr_right fun hscript => ?_
    have hold : oldSide script = splitLines a := hscript.old
    have hnew : splitLines (newSide script).flatten = newSide script :=
      (splitLines_flatten (hscript.isLine_new hold)).2.2 fun line hline =>
        (mem_newSide (dropLast_subset _ hline)).elim
          (fun h => ha line (hold ▸ h)) fun h => (hscript.added h).2
    constructor
    · rintro rfl
      exact hnew.symm
    · intro h
      rw [h]
      exact (flatten_splitLines b).symm
  have hdrop : (splitLines a).drop 0 = [] ++ oldSide (scriptOf d.cuts d.rest) := d.old.symm
  have hland : (∃ script, Script (splitLines a) 0 (hunkList 0 0 d.cuts) script ∧
      newSide script = [] ++ newSide (scriptOf d.cuts d.rest)) ↔ _ :=
    script_hunkList_iff hdrop (Nat.zero_le _) hsizeOld hsizeNew
  rw [applyUnifiedDiff_ok_iff, hresult, hhunks, hland,
    landedCuts_iff (fun c hc line hline => (hedits c hc _ hline).2) (fun h => absurd rfl h) d.apart]
  refine and_congr_left fun _ => not_congr ?_
  cases d.cuts <;> simp [hunkList]

/-- One added line, with or without context. -/
def appendDiff (context : Bool) : UnifiedDiff "a\n".toList "a\nb\n".toList where
  names := ["--- n.md\n".toList, "+++ n.md\n".toList]
  cuts := if context then [⟨[], [.keep "a\n".toList, .add "b\n".toList], true, true⟩]
    else [⟨["a\n".toList], [.add "b\n".toList], true, true⟩]
  rest := []
  old := by cases context <;> decide
  new := by cases context <;> decide
  named := by
    intro line hline
    rcases mem_pair.mp hline with rfl | rfl <;>
      exact ⟨⟨by decide, by decide⟩, by decide, by decide⟩
  filled := by cases context <;> simp
  apart := by cases context <;> simp

theorem context_diff_applies :
    applyUnifiedDiff "a\n".toList (appendDiff true).text = .ok "a\nb\n".toList := by
  refine ((appendDiff true).applies_iff (by decide) (by decide) (by decide) (by decide)).mpr
    ⟨by decide, fun c hc => ?_⟩
  cases mem_singleton.mp hc
  refine ⟨fun line hline => ?_, fun h => (by cases h)⟩
  have hb : line = "b\n".toList := by simpa using hline
  rw [hb]
  decide

/-- Without context the line comes out too high. -/
theorem bare_diff_misplaced :
    (appendDiff false).text = "--- n.md\n+++ n.md\n@@ -1,0 +2 @@\n+b\n".toList ∧
      applyUnifiedDiff "a\n".toList (appendDiff false).text = .ok "b\na\n".toList := by
  decide

end Patch
