import Mathlib

/-! # Outlines — sections and pieces of a text with marks

The SECTION of a mark runs to the next mark of the same or a smaller level, its PIECE to the very
next mark.  Sections are nested or apart (`sections_nested`), pieces are apart (`pieces_apart`),
and a piece lies inside a section or outside of it (`piece_section`). -/

namespace Outline

open List

structure Mark where
  (level start : Nat)
  deriving DecidableEq

/-- A half-open range of positions. -/
@[ext]
structure Span where
  (start stop : Nat)
  deriving DecidableEq

def Span.Within (inner outer : Span) : Prop :=
  outer.start ≤ inner.start ∧ inner.stop ≤ outer.stop

/-- No position in common. -/
def Span.Apart (a b : Span) : Prop := a.stop ≤ b.start ∨ b.stop ≤ a.start

theorem Span.Apart.symm {a b : Span} (h : a.Apart b) : b.Apart a := Or.symm h

instance : Std.Symm Span.Apart := ⟨fun _ _ h => h.symm⟩

theorem Span.Within.trans {a b c : Span} (h : a.Within b) (h' : b.Within c) : a.Within c :=
  ⟨h'.1.trans h.1, h.2.trans h'.2⟩

/-- Where the next mark is, or the end of the text. -/
def nextStart (total : Nat) : List Mark → Nat
  | [] => total
  | m :: _ => m.start

/-- Where a section ends, by the marks after it. -/
def sectionEnd (total level : Nat) : List Mark → Nat
  | [] => total
  | m :: rest => if m.level ≤ level then m.start else sectionEnd total level rest

def sections (total : Nat) : List Mark → List Span
  | [] => []
  | m :: rest => ⟨m.start, sectionEnd total m.level rest⟩ :: sections total rest

def pieces (total : Nat) : List Mark → List Span
  | [] => []
  | m :: rest => ⟨m.start, nextStart total rest⟩ :: pieces total rest

/-- The marks ascend, and all of them are in the text. -/
def Ordered (total : Nat) : List Mark → Prop
  | [] => True
  | m :: rest => m.start < nextStart total rest ∧ Ordered total rest

variable {total level : Nat} {m : Mark} {ms rest : List Mark} {a b s p : Span}

section

variable (h : Ordered total ms)

include h

theorem nextStart_le_total : nextStart total ms ≤ total := by
  induction ms with
  | nil => exact Nat.le_refl total
  | cons m rest ih => exact Nat.le_of_lt (Nat.lt_of_lt_of_le h.1 (ih h.2))

theorem nextStart_le_sectionEnd :
    nextStart total ms ≤ sectionEnd total level ms := by
  induction ms with
  | nil => exact Nat.le_refl total
  | cons m rest ih =>
    rw [sectionEnd]
    split_ifs
    · exact Nat.le_refl m.start
    · exact (Nat.le_of_lt h.1).trans (ih h.2)

theorem sectionEnd_le_total : sectionEnd total level ms ≤ total := by
  induction ms with
  | nil => exact Nat.le_refl total
  | cons m rest ih =>
    rw [sectionEnd]
    split_ifs
    · exact nextStart_le_total h
    · exact ih h.2

theorem section_bounds (hs : s ∈ sections total ms) :
    nextStart total ms ≤ s.start ∧ s.start < s.stop ∧ s.stop ≤ total := by
  induction ms with
  | nil => cases hs
  | cons m rest ih =>
    rcases mem_cons.mp hs with rfl | hs
    · exact ⟨Nat.le_refl m.start, Nat.lt_of_lt_of_le h.1 (nextStart_le_sectionEnd h.2),
        sectionEnd_le_total h.2⟩
    · obtain ⟨hstart, hlt, hstop⟩ := ih h.2 hs
      exact ⟨(Nat.le_of_lt h.1).trans hstart, hlt, hstop⟩

theorem piece_bounds (hp : p ∈ pieces total ms) :
    nextStart total ms ≤ p.start ∧ p.start < p.stop ∧ p.stop ≤ total := by
  induction ms with
  | nil => cases hp
  | cons m rest ih =>
    rcases mem_cons.mp hp with rfl | hp
    · exact ⟨Nat.le_refl m.start, h.1, nextStart_le_total h.2⟩
    · obtain ⟨hstart, hlt, hstop⟩ := ih h.2 hp
      exact ⟨(Nat.le_of_lt h.1).trans hstart, hlt, hstop⟩

/-- The pieces follow one another. -/
theorem pieces_pairwise :
    (pieces total ms).Pairwise fun a b => a.stop ≤ b.start := by
  induction ms with
  | nil => exact List.Pairwise.nil
  | cons m rest ih =>
    refine List.Pairwise.cons ?_ (ih h.2)
    intro b hb
    exact (piece_bounds h.2 hb).1

theorem pieces_nodup : (pieces total ms).Nodup := by
  induction ms with
  | nil => exact nodup_nil
  | cons m rest ih =>
    refine nodup_cons.mpr ⟨?_, ih h.2⟩
    intro hmem
    have hbound := (piece_bounds h.2 hmem).1
    exact absurd h.1 (Nat.not_lt_of_le hbound)

theorem pieces_apart (ha : a ∈ pieces total ms)
    (hb : b ∈ pieces total ms) : a = b ∨ a.Apart b := by
  by_cases hab : a = b
  · exact .inl hab
  · have hpair : (pieces total ms).Pairwise Span.Apart :=
      (pieces_pairwise h).imp fun hle => .inl hle
    exact .inr (hpair.forall ha hb hab)

end

theorem sectionEnd_mono {level' : Nat} (hle : level ≤ level') (h : Ordered total ms) :
    sectionEnd total level' ms ≤ sectionEnd total level ms := by
  induction ms with
  | nil => exact Nat.le_refl total
  | cons m rest ih =>
    rw [sectionEnd, sectionEnd]
    split_ifs with h1 h2 h2
    · exact Nat.le_refl m.start
    · exact (Nat.le_of_lt h.1).trans (nextStart_le_sectionEnd h.2)
    · omega
    · exact ih h.2

/-- A section ends with the one that encloses it. -/
theorem section_stop_le (h : Ordered total ms) (hs : s ∈ sections total ms)
    (hlt : s.start < sectionEnd total level ms) : s.stop ≤ sectionEnd total level ms := by
  induction ms with
  | nil => cases hs
  | cons m rest ih =>
    rw [sectionEnd] at hlt ⊢
    by_cases hm : m.level ≤ level
    · -- The enclosing section ends at this mark, so nothing begins before its end.
      rw [if_pos hm] at hlt
      have hbound : m.start ≤ s.start := (section_bounds h hs).1
      omega
    · rw [if_neg hm] at hlt ⊢
      rcases mem_cons.mp hs with rfl | hs
      · -- The mark itself is of a greater level: it cannot outlast the enclosing one.
        exact sectionEnd_mono (Nat.le_of_not_le hm) h.2
      · exact ih h.2 hs hlt
/-- **SECTIONS ARE NESTED OR APART**. -/
theorem sections_nested (h : Ordered total ms) :
    (sections total ms).Pairwise fun a b =>
      a.start < b.start ∧ (a.stop ≤ b.start ∨ b.stop ≤ a.stop) := by
  induction ms with
  | nil => exact List.Pairwise.nil
  | cons m rest ih =>
    refine List.Pairwise.cons ?_ (ih h.2)
    intro b hb
    have hbound := (section_bounds h.2 hb).1
    refine ⟨Nat.lt_of_lt_of_le h.1 hbound, ?_⟩
    by_cases hlt : b.start < sectionEnd total m.level rest
    · exact .inr (section_stop_le h.2 hb hlt)
    · exact .inl (Nat.le_of_not_lt hlt)

/-- A piece inside a section ends with it. -/
theorem piece_stop_le (h : Ordered total ms) (hp : p ∈ pieces total ms)
    (hlt : p.start < sectionEnd total level ms) : p.stop ≤ sectionEnd total level ms := by
  induction ms with
  | nil => cases hp
  | cons m rest ih =>
    rw [sectionEnd] at hlt ⊢
    by_cases hm : m.level ≤ level
    · rw [if_pos hm] at hlt
      have hbound : m.start ≤ p.start := (piece_bounds h hp).1
      omega
    · rw [if_neg hm] at hlt ⊢
      rcases mem_cons.mp hp with rfl | hp
      · exact nextStart_le_sectionEnd h.2
      · exact ih h.2 hp hlt

/-- **A PIECE LIES INSIDE A SECTION OR OUTSIDE OF IT**. -/
theorem piece_section (h : Ordered total ms) (hp : p ∈ pieces total ms)
    (hs : s ∈ sections total ms) : p.Within s ∨ p.Apart s := by
  induction ms with
  | nil => cases hp
  | cons m rest ih =>
    rcases mem_cons.mp hp with rfl | hp <;> rcases mem_cons.mp hs with rfl | hs
    · exact .inl ⟨Nat.le_refl _, nextStart_le_sectionEnd h.2⟩
    · exact .inr (.inl (section_bounds h.2 hs).1)
    · have hstart : m.start ≤ p.start :=
        (Nat.le_of_lt h.1).trans (piece_bounds h.2 hp).1
      by_cases hlt : p.start < sectionEnd total m.level rest
      · exact .inl ⟨hstart, piece_stop_le h.2 hp hlt⟩
      · exact .inr (.inr (Nat.le_of_not_lt hlt))
    · exact ih h.2 hp hs

/-! ## The first section inside another -/

variable {pre : List Mark}

theorem mem_sections_append (hs : s ∈ sections total ms) : s ∈ sections total (pre ++ ms) := by
  induction pre with
  | nil => exact hs
  | cons m' pre ih => exact mem_cons_of_mem _ ih

theorem Ordered.suffix (h : Ordered total (pre ++ ms)) : Ordered total ms := by
  induction pre with
  | nil => exact h
  | cons m' pre ih => exact ih h.2

/-- It begins by the mark, or is one of those after it. -/
theorem section_after (h : Ordered total (pre ++ m :: rest))
    (hs : s ∈ sections total (pre ++ m :: rest)) : s.start ≤ m.start ∨ s ∈ sections total rest := by
  induction pre with
  | nil =>
    rcases mem_cons.mp hs with rfl | hs
    · exact .inl (Nat.le_refl m.start)
    · exact .inr hs
  | cons m' pre ih =>
    rcases mem_cons.mp hs with rfl | hs
    · have hbound := (section_bounds h.2
        (mem_sections_append (mem_cons_self))).1
      exact .inl (Nat.le_of_lt (Nat.lt_of_lt_of_le h.1 hbound))
    · exact ih h.2 hs

/-- The first section inside is the next mark's. -/
theorem first_inside {starts : List Nat} (h : Ordered total (pre ++ m :: rest))
    (hstarts : ∀ x, x ∈ starts ↔ ∃ s ∈ sections total (pre ++ m :: rest), s.start = x ∧
      m.start < s.start ∧ s.stop ≤ sectionEnd total m.level rest) :
    starts.min? = if nextStart total rest < sectionEnd total m.level rest then
      some (nextStart total rest) else none := by
  have hsuffix : Ordered total (m :: rest) := h.suffix
  have hafter : ∀ x ∈ starts, nextStart total rest ≤ x ∧ x < sectionEnd total m.level rest := by
    intro x hx
    obtain ⟨s, hs, rfl, hlt, hstop⟩ := (hstarts x).mp hx
    rcases section_after h hs with hle | hs
    · omega
    · obtain ⟨hstart, hne, _⟩ := section_bounds hsuffix.2 hs
      exact ⟨hstart, Nat.lt_of_lt_of_le hne hstop⟩
  split_ifs with hnext
  · rw [List.min?_eq_some_iff]
    refine ⟨?_, fun x hx => (hafter x hx).1⟩
    -- The next mark exists, and its section is nested in this one.
    cases rest with
    | nil => exact absurd hnext (Nat.lt_irrefl total)
    | cons m' rest =>
      refine (hstarts _).mpr ⟨⟨m'.start, sectionEnd total m'.level rest⟩, ?_, rfl, hsuffix.1, ?_⟩
      · exact mem_sections_append (mem_cons_of_mem _ mem_cons_self)
      · exact section_stop_le hsuffix.2 mem_cons_self hnext
  · rw [List.min?_eq_none_iff]
    refine eq_nil_iff_forall_not_mem.mpr fun x hx => ?_
    have hbound := hafter x hx
    omega

end Outline
