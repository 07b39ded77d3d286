import McpVault.UnifiedDiffProofs

/-! # Heading edits — where lines are joined

A heading edit puts a text between two runs of lines of a note.  Nothing looks at the seams: the
last line of the text, or the heading itself, runs into what stands behind it if it has no
newline. -/

namespace Patch

open List Option

variable {original text : List Char} {start stop : Nat}

/-- Lines to the heading, the text, lines behind the section. -/
def splice (original text : List Char) (start stop : Nat) : List Line :=
  (splitLines original).take (start + 1) ++ splitLines text ++ (splitLines original).drop stop

/-- What stands before the last seam ends in a newline. -/
def Seamless (original text : List Char) (start stop : Nat) : Prop :=
  text = [] ∨ if stop < (splitLines original).length then text.getLast? = some '\n'
    else ∀ line ∈ (splitLines original)[start]?, Terminated line

theorem isLine_splice : ∀ line ∈ splice original text start stop, IsLine line := by
  intro line hline
  rcases mem_append.mp hline with hline | hline
  · rcases mem_append.mp hline with hline | hline
    · exact isLine_of_mem (mem_of_mem_take hline)
    · exact isLine_of_mem hline
  · exact isLine_of_mem (mem_of_mem_drop hline)

theorem terminated_take (h : start < (splitLines original).length) :
    ∀ line ∈ (splitLines original).take start, Terminated line := by
  intro line hline
  have hmem : line ∈ (splitLines original).dropLast := by
    rw [dropLast_eq_take]
    exact take_subset_take_left _ (Nat.le_sub_one_of_lt h) hline
  exact terminated_of_mem_dropLast hmem

/-- Lines stay iff the seams are ends of lines. -/
theorem splice_iff (hstart : start < (splitLines original).length) (hstop : start < stop) :
    splitLines (splice original text start stop).flatten = splice original text start stop ↔
      Seamless original text start stop := by
  obtain ⟨_, hlen, heq⟩ := splitLines_flatten (@isLine_splice original text start stop)
  have hiff := Iff.intro (fun h => hlen.mp (congrArg List.length h)) heq
  have hbefore := terminated_take hstart
  rw [hiff, splice, Seamless]
  split_ifs with hmore
  · have hbelow : (splitLines original).drop stop ≠ [] := by simpa using hmore
    rw [dropLast_append_of_ne_nil hbelow, dropLast_drop_eq_drop_dropLast, ← terminated_lines_iff]
    simp only [mem_append, or_imp, forall_and]
    exact ⟨fun h => h.1.2, fun h => ⟨⟨terminated_take (by omega), h⟩,
      fun line hline => terminated_of_mem_dropLast (mem_of_mem_drop hline)⟩⟩
  · rw [drop_eq_nil_of_le (Nat.le_of_not_lt hmore), append_nil, take_add_one,
      List.getElem?_eq_getElem hstart]
    rcases eq_or_ne text [] with rfl | htext
    · simpa only [splitLines, append_nil, toList_some, dropLast_concat, true_or,
        iff_true] using hbefore
    · have hne : splitLines text ≠ [] := fun h => htext (by rw [← flatten_splitLines text, h]; rfl)
      have hinner : ∀ line ∈ (splitLines text).dropLast, Terminated line :=
        fun line => terminated_of_mem_dropLast
      rw [dropLast_append_of_ne_nil hne]
      simp only [mem_append, or_imp, forall_and, htext, false_or, toList_some,
        mem_singleton, forall_eq, mem_def, Option.some.injEq, forall_eq']
      exact ⟨fun h => h.1.2, fun h => ⟨⟨hbefore, h⟩, hinner⟩⟩

/-- Where the section of the heading ends. -/
def sectionStop (original : List Char) (level start : Nat) : Nat :=
  let below := (splitLines original).drop (start + 1)
  start + 1 + (below.findIdx? (endsSection level)).getD below.length

/-- **LINES STAY LINES** iff the text meets them at line ends. -/
theorem headingEdits_keep_lines_iff (heading text original result : List Char) :
    (insertAfterHeading heading text original = .ok result →
      ∃ start, (splitLines original).findIdx? (lineContent · == heading) = some start ∧
        (splitLines result = splice original text start (start + 1) ↔
          Seamless original text start (start + 1))) ∧
    (replaceHeadingSection heading text original = .ok result →
      ∃ start level, (splitLines original).findIdx? (lineContent · == heading) = some start ∧
        headingLevel heading = some level ∧
        (splitLines result = splice original text start (sectionStop original level start) ↔
          Seamless original text start (sectionStop original level start))) := by
  constructor
  · intro h
    unfold insertAfterHeading at h
    dsimp only at h
    split at h
    next => cases h
    next start hfind =>
      cases h
      exact ⟨start, hfind, splice_iff (List.findIdx?_eq_some_iff_findIdx_eq.mp hfind).1 (Nat.lt_succ_self start)⟩
  · intro h
    unfold replaceHeadingSection at h
    dsimp only at h
    split at h
    next => cases h
    next start hfind =>
      split at h
      next => cases h
      next level hlevel =>
        rw [drop_drop] at h
        cases h
        exact ⟨start, level, hfind, hlevel,
          splice_iff (List.findIdx?_eq_some_iff_findIdx_eq.mp hfind).1 (Nat.le_add_right (start + 1) _)⟩

theorem headingEdits_keep_lines_newline :
    let note := "# A\ny\n# B\n".toList
    let text := "x\n".toList
    (∃ start, (splitLines note).findIdx? (lineContent · == "# A".toList) = some start ∧
      (splitLines "# A\nx\ny\n# B\n".toList = splice note text start (start + 1) ↔
        Seamless note text start (start + 1))) ∧
    ∃ start level, (splitLines note).findIdx? (lineContent · == "# A".toList) = some start ∧
      headingLevel "# A".toList = some level ∧
      (splitLines "# A\nx\n# B\n".toList = splice note text start (sectionStop note level start) ↔
        Seamless note text start (sectionStop note level start)) :=
  ⟨(headingEdits_keep_lines_iff _ _ _ _).1 (by decide),
    (headingEdits_keep_lines_iff _ _ _ _).2 (by decide)⟩

/-- Without a newline the next heading is joined. -/
theorem insertAfterHeading_glues :
    insertAfterHeading "# A".toList "x".toList "# A\n# B\n".toList = .ok "# A\nx# B\n".toList ∧
      "# B\n".toList ∈ splitLines "# A\n# B\n".toList ∧
      "# B\n".toList ∉ splitLines "# A\nx# B\n".toList := by
  decide

end Patch
