import McpVault.KnowledgeMapProofs

/-! # What a glob derives

`glob_matches` keeps one point to come back to, the last star it met.  For a value without a star
of its own this is enough; a star of the value is read as a literal before the star of the
pattern is seen. -/

namespace KnowledgeIndex

open LogicalPath PlainText Fallible List

abbrev star : UInt8 := '*'.toUInt8

/-- A star stands for any bytes, `?` for one byte. -/
def Derives : List UInt8 → List UInt8 → Prop
  | [], v => v = []
  | c :: p, v =>
    if c = star then ∃ u, u <:+ v ∧ Derives p u
    else ∃ b u, v = b :: u ∧ (c = b ∨ c = '?'.toUInt8) ∧ Derives p u

variable {p v m u : List UInt8} {c b : UInt8} {back : Option (List UInt8 × List UInt8)}

theorem derives_nil : Derives p [] ↔ p.all (· = star) = true := by
  induction p with
  | nil => simp [Derives]
  | cons c p ih =>
    rw [Derives, all_cons, Bool.and_eq_true, ← ih]
    split_ifs with hc <;> simp [hc]

theorem derives_star : Derives (star :: p) v ↔ ∃ u, u <:+ v ∧ Derives p u := by
  rw [Derives, if_pos rfl]

theorem derives_star_cons : Derives (star :: p) (b :: v) ↔
    Derives p (b :: v) ∨ Derives (star :: p) v := by
  simp only [derives_star, suffix_cons_iff, or_and_right, exists_or, exists_eq_left]

theorem derives_cons (hc : c ≠ star) :
    Derives (c :: p) (b :: v) ↔ (c = b ∨ c = '?'.toUInt8) ∧ Derives p v := by
  rw [Derives, if_neg hc]
  constructor
  · rintro ⟨b, u, h, hcu⟩
    obtain ⟨rfl, rfl⟩ := List.cons.inj h
    exact hcu
  · exact fun h => ⟨b, v, rfl, h⟩

/-- The start of a pattern takes a byte each. -/
theorem Derives.of_append (hm : star ∉ m) (h : Derives (m ++ p) u) :
    m.length ≤ u.length ∧ Derives p (u.drop m.length) := by
  induction m generalizing u with
  | nil => exact ⟨Nat.zero_le _, h⟩
  | cons c m ih =>
    obtain ⟨hc, hm⟩ := not_or.mp (mem_cons.not.mp hm)
    rw [cons_append, Derives, if_neg (Ne.symm hc)] at h
    obtain ⟨b, u, rfl, -, h⟩ := h
    obtain ⟨hlen, h⟩ := ih hm h
    exact ⟨Nat.succ_le_succ hlen, h⟩

/-- A retry may find the rest later on. -/
def Later : Option (List UInt8 × List UInt8) → Prop
  | some (again, _ :: from') => Derives (star :: again) from'
  | _ => False

/-- Since the last star, bytes were matched one by one. -/
def Aligned (p v : List UInt8) (back : Option (List UInt8 × List UInt8)) : Prop :=
  ∀ b ∈ back, star ∉ b.2 ∧ ∃ m, b.1 = m ++ p ∧ star ∉ m ∧ b.2.drop m.length = v

/-- A retry takes up what the star has left over. -/
theorem Aligned.of_later (h : Aligned p v back) (hlater : Later back) :
    v ≠ [] ∧ ∃ u, u <:+ v ∧ Derives p u := by
  obtain _ | ⟨again, _ | ⟨d, w⟩⟩ := back
  · cases hlater
  · cases hlater
  · obtain ⟨-, m, rfl, hm, rfl⟩ := h _ rfl
    obtain ⟨u, hu, hd⟩ := derives_star.mp hlater
    obtain ⟨hlen, hd⟩ := hd.of_append hm
    have hlt : m.length < (d :: w).length := Nat.lt_succ_of_le (hlen.trans hu.length_le)
    refine ⟨by simpa using hlt, _, ?_, hd⟩
    obtain ⟨j, hj⟩ : ∃ j, u = (d :: w).drop j :=
      ⟨_, suffix_iff_eq_drop.mp (hu.trans (suffix_cons d w))⟩
    rw [hj, drop_drop, Nat.add_comm, ← drop_drop]
    exact drop_suffix _ _

theorem Aligned.clean (h : Aligned p v back) {w : List UInt8} (hback : back = some (u, c :: w)) :
    star ∉ w :=
  (not_or.mp (mem_cons.not.mp (h _ hback).1)).2

theorem aligned_self (hv : star ∉ v) : Aligned p v (some (p, v)) := by
  rintro _ ⟨⟩
  exact ⟨hv, [], rfl, not_mem_nil, rfl⟩

theorem Aligned.cons (h : Aligned (c :: p) (b :: v) back) (hc : c ≠ star) : Aligned p v back := by
  intro point hpoint
  obtain ⟨hclean, m, hm, hstarless, hdrop⟩ := h point hpoint
  refine ⟨hclean, m ++ [c], by simp [hm], by simp [hstarless, hc.symm], ?_⟩
  rw [length_append, ← drop_drop, hdrop]
  rfl

/-- A retry starts one byte further on. -/
theorem retry_iff {h : ∀ b ∈ back, p.length ≤ b.1.length} :
    (∀ again d w, back = some (again, d :: w) →
      (globLoop again w (some (again, w)) (by simp) = true ↔
        Derives again w ∨ Later (some (again, w)))) →
    ((match back, h with
      | some (again, _ :: w), _ => globLoop again w (some (again, w)) (by simp)
      | _, _ => false) = true ↔ Later back) := by
  intro ih
  obtain _ | ⟨again, _ | ⟨d, w⟩⟩ := back
  · simp [Later]
  · simp [Later]
  · refine (ih again d w rfl).trans ?_
    cases w with
    | nil => simp [derives_star, Later]
    | cons d w => exact derives_star_cons.symm

theorem globLoop_iff : ∀ (p v : List UInt8) (back : Option (List UInt8 × List UInt8))
    (h : ∀ b ∈ back, p.length ≤ b.1.length), star ∉ v → Aligned p v back →
    (globLoop p v back h = true ↔ Derives p v ∨ Later back)
  | p, [], back, h, _, hback => by
    rw [globLoop, ← derives_nil]
    exact ⟨.inl, fun h => h.resolve_right fun hlater => (hback.of_later hlater).1 rfl⟩
  | [], b :: v, back, h, _, hback => by
    rw [globLoop.eq_def]
    dsimp only
    refine Iff.trans (retry_iff fun again d w hpoint => ?_) ?_
    · have hw := hback.clean hpoint
      exact globLoop_iff again w _ _ hw (aligned_self hw)
    · simp [Derives]
  | c :: p, b :: v, back, h, hv, hback => by
    obtain ⟨hb, hv'⟩ := not_or.mp (mem_cons.not.mp hv)
    rw [globLoop.eq_def]
    dsimp only
    split_ifs with hmatch hstar
    · have hc : c ≠ star := by
        rintro rfl
        exact hmatch.elim hb (by decide)
      rw [derives_cons hc, globLoop_iff p v back _ hv' (hback.cons hc)]
      simp [hmatch]
    · subst hstar
      rw [globLoop_iff p (b :: v) _ _ hv (aligned_self hv)]
      refine derives_star_cons.symm.trans ⟨.inl, fun h => h.elim id fun hlater => ?_⟩
      obtain ⟨u, hu, hd⟩ := (hback.of_later hlater).2
      obtain ⟨w, hw, hd⟩ := derives_star.mp hd
      exact derives_star.mpr ⟨w, hw.trans hu, hd⟩
    · rw [derives_cons hstar]
      refine Iff.trans (retry_iff fun again d w hpoint => ?_) ?_
      · have hw := hback.clean hpoint
        exact globLoop_iff again w _ _ hw (aligned_self hw)
      · simp [hmatch]
termination_by p v back => ((back.map (·.1.length)).getD (p.length + 1),
  (back.map (·.2.length)).getD 0, p.length + v.length)
decreasing_by
  · subst hpoint
    exact .right _ (.left _ _ (Nat.lt_succ_self _))
  · cases back with
    | none => exact .left _ _ (Nat.lt_succ_self _)
    | some b => exact .right _ (.right _ (Nat.add_lt_add (Nat.lt_succ_self _) (Nat.lt_succ_self _)))
  · refine .left _ _ ?_
    cases back with
    | none => exact Nat.lt_succ_of_le (Nat.le_succ _)
    | some b => exact h b rfl
  · subst hpoint
    exact .right _ (.left _ _ (Nat.lt_succ_self _))

/-- Some include pattern, if any, and no exclude pattern. -/
def Assigned (topic : Topic) (note : IndexedNote) : Prop :=
  (topic.includes = [] ∨ ∃ g ∈ topic.includes, Derives (bytesOf g) (bytesOf note.path.text)) ∧
    ∀ g ∈ topic.excludes, ¬ Derives (bytesOf g) (bytesOf note.path.text)

/-- No path of a Vault has a star. -/
theorem star_not_mem_path {N : Normalizer} {path : VaultPath}
    (h : parse N path.text = .ok path) : star ∉ bytesOf path.text := by
  obtain ⟨segs, hroute, rfl⟩ := parse_text_iff.mp h
  intro hmem
  have hstar : ['*'] <:+: joined segs :=
    infix_of_bytes (by simp) ((singleton_infix_iff _ _).mpr hmem)
  rcases mem_joined (hstar.subset mem_cons_self) with h | ⟨s, hs, hstar⟩
  · cases h
  · have hvalid := (hroute.segment s hs).valid
    obtain ⟨-, hvalid⟩ := of_check hvalid
    obtain ⟨-, hvalid⟩ := of_check hvalid
    obtain ⟨-, hvalid⟩ := of_check hvalid
    obtain ⟨hclean, -⟩ := of_check hvalid
    exact hclean (any_eq_true.mpr ⟨'*', hstar, rfl⟩)

theorem globs_match (N : Normalizer) (vault : Text) (topic : Topic) (qualified : Text)
    (note : IndexedNote) (hpath : parse N note.path.text = .ok note.path)
    (pattern value : List UInt8) (hvalue : star ∉ value) :
    (globLoop pattern value none nofun = true ↔ Derives pattern value) ∧
      ((topicMembership vault topic qualified note).isSome = true ↔ Assigned topic note) := by
  have hglob : ∀ pattern value, star ∉ value →
      (globLoop pattern value none nofun = true ↔ Derives pattern value) := by
    intro pattern value hvalue
    rw [globLoop_iff pattern value none nofun hvalue nofun]
    exact or_iff_left id
  have hany : ∀ gs, anyMatches gs note = true ↔
      ∃ g ∈ gs, Derives (bytesOf g) (bytesOf note.path.text) := by
    intro gs
    rw [anyMatches, any_eq_true]
    exact exists_congr fun g => and_congr_right fun _ => hglob _ _ (star_not_mem_path hpath)
  refine ⟨hglob pattern value hvalue, ?_⟩
  rw [topicMembership, Assigned]
  simp [hany, Bool.eq_false_iff]

def markdownTopic : Topic := ⟨[], [], none, ["*.md".toList], [], [], [], []⟩

def plainNote : IndexedNote := ⟨0, ⟨"a.md".toList⟩, [], []⟩

theorem globs_match_markdown :
    (globLoop (bytesOf "*.md".toList) (bytesOf "a.md".toList) none nofun = true ↔
        Derives (bytesOf "*.md".toList) (bytesOf "a.md".toList)) ∧
      ((topicMembership [] markdownTopic [] plainNote).isSome = true ↔
        Assigned markdownTopic plainNote) :=
  globs_match plain [] markdownTopic [] plainNote (by decide) _ _ (by decide)

theorem starred_value_lost : globLoop [42] [42, 97] none nofun = false ∧ Derives [42] [42, 97] := by
  constructor
  · simp [globLoop]
  · exact derives_star.mpr ⟨[], nil_suffix, rfl⟩

end KnowledgeIndex
