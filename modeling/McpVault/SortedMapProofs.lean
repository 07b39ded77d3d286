import Mathlib

/-! # Sorted maps — association lists in the order of their keys

A map that iterates in key order is the list of its entries.  `upsert` changes the value of a key
or inserts one at its place. -/

namespace SortedMap

open List

variable {κ β : Type} [LinearOrder κ]

/-- Change the value of a key, or insert one. -/
def upsert (k : κ) (new : β) (change : β → β) : List (κ × β) → List (κ × β)
  | [] => [(k, new)]
  | (k', v) :: rest =>
    if k < k' then (k, new) :: (k', v) :: rest
    else if k = k' then (k', change v) :: rest
    else (k', v) :: upsert k new change rest

variable {k x : κ} {new : β} {change : β → β} {l : List (κ × β)}

variable {P : κ × β → Prop}

/-- What entries have in common, they keep having. -/
theorem forall_upsert (hnew : P (k, new)) (hchange : ∀ v, P (k, v) → P (k, change v))
    (h : ∀ x ∈ l, P x) : ∀ x ∈ upsert k new change l, P x := by
  induction l with
  | nil =>
    intro x hx
    rw [mem_singleton.mp hx]
    exact hnew
  | cons y l ih =>
    obtain ⟨k', v⟩ := y
    have hy := h _ mem_cons_self
    have hl := fun x hx => h x (mem_cons_of_mem _ hx)
    intro x hx
    rw [upsert] at hx
    split_ifs at hx with hlt heq
    · rcases mem_cons.mp hx with rfl | hx
      · exact hnew
      · exact h x hx
    · rcases mem_cons.mp hx with rfl | hx
      · rw [← heq] at hy ⊢
        exact hchange _ hy
      · exact hl x hx
    · rcases mem_cons.mp hx with rfl | hx
      · exact hy
      · exact ih hl x hx

theorem mem_keys_upsert : x ∈ (upsert k new change l).map (·.1) ↔ x = k ∨ x ∈ l.map (·.1) := by
  induction l with
  | nil => simp [upsert]
  | cons y l ih =>
    rw [upsert]
    split_ifs with hlt heq
    · simp
    · subst heq
      simp
    · rw [map_cons, mem_cons, map_cons, mem_cons]
      tauto

/-- The keys stay in ascending order. -/
theorem keys_upsert (h : (l.map (·.1)).Pairwise (· < ·)) :
    ((upsert k new change l).map (·.1)).Pairwise (· < ·) := by
  induction l with
  | nil => exact pairwise_singleton _ _
  | cons y l ih =>
    obtain ⟨hhead, htail⟩ := pairwise_cons.mp h
    rw [upsert]
    split_ifs with hlt heq
    · refine pairwise_cons.mpr ⟨?_, h⟩
      intro x hx
      rcases mem_cons.mp hx with rfl | hx
      · exact hlt
      · exact lt_trans hlt (hhead x hx)
    · exact h
    · refine pairwise_cons.mpr ⟨?_, ih htail⟩
      intro x hx
      rcases mem_keys_upsert.mp hx with rfl | hx
      · exact lt_of_le_of_ne (not_lt.mp hlt) (Ne.symm heq)
      · exact hhead x hx

theorem exists_upsert (hnew : P (k, new)) (hchange : ∀ v, P (k, change v)) :
    ∃ e ∈ upsert k new change l, P e := by
  induction l with
  | nil => exact ⟨_, mem_cons_self, hnew⟩
  | cons y l ih =>
    obtain ⟨k', v⟩ := y
    rw [upsert]
    split_ifs with hlt heq
    · exact ⟨_, mem_cons_self, hnew⟩
    · exact ⟨_, mem_cons_self, heq ▸ hchange v⟩
    · obtain ⟨e, he, hP⟩ := ih
      exact ⟨e, mem_cons_of_mem _ he, hP⟩

theorem mem_upsert_of_mem {e : κ × β} (h : e ∈ l) :
    e ∈ upsert k new change l ∨ e.1 = k ∧ (k, change e.2) ∈ upsert k new change l := by
  induction l with
  | nil => cases h
  | cons y l ih =>
    rw [upsert]
    split_ifs with hlt heq
    · exact .inl (mem_cons_of_mem _ h)
    · rcases mem_cons.mp h with rfl | h
      · exact .inr ⟨heq.symm, heq ▸ mem_cons_self⟩
      · exact .inl (mem_cons_of_mem _ h)
    · rcases mem_cons.mp h with rfl | h
      · exact .inl mem_cons_self
      · exact (ih h).imp (mem_cons_of_mem _) (And.imp_right (mem_cons_of_mem _))

/-! ## Entering a list -/

section Entries

variable {α : Type} (key : α → κ) (value : α → β) (update : α → β → β)

/-- Change or insert values, one by one. -/
def enter (xs : List α) : List (κ × β) :=
  xs.foldl (fun l x => upsert (key x) (value x) (update x) l) []

variable {key value update} {xs : List α}

theorem foldl_upsert {P : List (κ × β) → Prop}
    (hstep : ∀ l, ∀ x ∈ xs, P l → P (upsert (key x) (value x) (update x) l)) (h : P l) :
    P (xs.foldl (fun l x => upsert (key x) (value x) (update x) l) l) := by
  induction xs generalizing l with
  | nil => exact h
  | cons x xs ih =>
    exact ih (fun l y hy => hstep l y (mem_cons_of_mem x hy)) (hstep l x mem_cons_self h)

theorem keys_enter : ((enter key value update xs).map (·.1)).Pairwise (· < ·) :=
  foldl_upsert (P := fun l => (l.map (·.1)).Pairwise (· < ·)) (fun _ _ _ h => keys_upsert h)
    List.Pairwise.nil

variable {P : κ × β → Prop}

theorem forall_enter (hnew : ∀ x ∈ xs, P (key x, value x))
    (hupdate : ∀ x ∈ xs, ∀ v, P (key x, v) → P (key x, update x v)) :
    ∀ e ∈ enter key value update xs, P e :=
  foldl_upsert (P := fun l => ∀ e ∈ l, P e)
    (fun _ x hx h => forall_upsert (hnew x hx) (hupdate x hx) h) nofun

/-- What is entered stays, whatever is entered after it. -/
theorem exists_enter {x : α} (hx : x ∈ xs) (hnew : P (key x, value x))
    (hself : ∀ v, P (key x, update x v)) (hkeep : ∀ y v, P (key y, v) → P (key y, update y v)) :
    ∃ e ∈ enter key value update xs, P e := by
  obtain ⟨before, behind, rfl⟩ := append_of_mem hx
  rw [enter, foldl_append, foldl_cons]
  refine foldl_upsert (P := fun l => ∃ e ∈ l, P e) ?_ ?_
  · rintro l y - ⟨e, he, hP⟩
    rcases mem_upsert_of_mem he with he | ⟨hk, he⟩
    · exact ⟨e, he, hP⟩
    · exact ⟨_, he, hkeep y _ (hk ▸ hP)⟩
  · exact exists_upsert hnew hself

theorem mem_keys_enter : k ∈ (enter key value update xs).map (·.1) ↔ k ∈ xs.map key := by
  have hgeneral : ∀ l : List (κ × β),
      k ∈ (xs.foldl (fun l x => upsert (key x) (value x) (update x) l) l).map (·.1) ↔
        k ∈ l.map (·.1) ∨ k ∈ xs.map key := by
    induction xs with
    | nil => simp
    | cons x xs ih =>
      intro l
      rw [foldl_cons, ih, mem_keys_upsert, map_cons, mem_cons, or_assoc, or_left_comm]
  simpa [enter] using hgeneral []

end Entries

/-! ## Lists without repetitions -/

section Repetitions

variable {α : Type} [DecidableEq α] {l : List α} {a x : α}

theorem mem_destutter' (hx : x ∈ a :: l) : x ∈ l.destutter' (· ≠ ·) a := by
  induction l generalizing a with
  | nil => exact hx
  | cons b l ih =>
    rw [List.destutter'_cons]
    by_cases hab : a ≠ b
    · rw [if_pos hab]
      rcases mem_cons.mp hx with rfl | hx
      · exact mem_cons_self
      · exact mem_cons_of_mem a (ih hx)
    · rw [if_neg hab]
      rcases mem_cons.mp hx with rfl | hx
      · exact ih mem_cons_self
      · exact ih (not_ne_iff.mp hab ▸ hx)

theorem mem_destutter : x ∈ l.destutter (· ≠ ·) ↔ x ∈ l := by
  refine ⟨fun hx => (destutter_sublist _ l).subset hx, fun hx => ?_⟩
  cases l with
  | nil => cases hx
  | cons b l => exact mem_destutter' hx

end Repetitions

end SortedMap
