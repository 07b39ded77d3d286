import Mathlib

/-! # Computations that may fail

What a computation in `Except` that succeeded went through: each of its steps, and each element
of a `mapM`. -/

namespace Fallible

open List

variable {ε α β γ : Type}
  {x : Except ε α} {xs : List α} {ys : List β} {a : α} {f : α → Except ε β}
  {p : α → Prop} {b : β} {e : ε}

theorem bind_ok_iff : (x >>= f) = .ok b ↔ ∃ a, x = .ok a ∧ f a = .ok b := by
  cases x with
  | error e => exact ⟨nofun, fun ⟨_, h, _⟩ => (nomatch h)⟩
  | ok a =>
    constructor
    · intro h
      exact ⟨a, rfl, h⟩
    · rintro ⟨a', ha, h⟩
      exact Except.ok.inj ha ▸ h

/-- The state of a result that is dropped. -/
theorem map_fst_ok {σ : Type} {x : Except ε (σ × α)} {s : σ} (h : Prod.fst <$> x = .ok s) :
    ∃ a, x = .ok (s, a) := by
  cases x with
  | error e => cases h
  | ok p =>
    cases h
    exact ⟨p.2, rfl⟩

theorem map_ok_iff {f : α → β} : x.map f = .ok b ↔ ∃ a, x = .ok a ∧ f a = b := by
  cases x with
  | error e => exact ⟨nofun, fun ⟨_, h, _⟩ => (nomatch h)⟩
  | ok a =>
    constructor
    · intro h
      exact ⟨a, rfl, Except.ok.inj h⟩
    · rintro ⟨a', ha, rfl⟩
      exact congrArg (fun a => Except.ok (f a)) (Except.ok.inj ha)

theorem bind_error_iff : x >>= f = .error e ↔ x = .error e ∨ ∃ a, x = .ok a ∧ f a = .error e := by
  cases x with
  | error e' =>
    show Except.error e' = .error e ↔ _
    constructor
    · intro h
      cases h
      exact .inl rfl
    · rintro (h | ⟨a, ha, -⟩)
      · cases h
        rfl
      · cases ha
  | ok a =>
    show f a = .error e ↔ _
    constructor
    · exact fun h => .inr ⟨a, rfl, h⟩
    · rintro (h | ⟨a', ha, h⟩)
      · cases h
      · cases ha
        exact h

/-- The elements that a check passes, if it fails on none. -/
def filterE (p : α → Except ε Bool) : List α → Except ε (List α)
  | [] => .ok []
  | a :: rest => do
    let keep ← p a
    let others ← filterE p rest
    .ok (if keep then a :: others else others)

theorem filterE_ok_iff {p : α → Except ε Bool} {zs : List α} : filterE p xs = .ok zs ↔
    (∀ x ∈ xs, (p x).isOk) ∧ xs.filter (fun x => decide ((p x).toOption = some true)) = zs := by
  induction xs generalizing zs with
  | nil =>
    rw [filterE, Except.ok.injEq]
    exact ⟨fun h => ⟨nofun, h⟩, fun h => h.2⟩
  | cons x xs ih =>
    rw [filterE, bind_ok_iff, forall_mem_cons, filter_cons]
    cases hx : p x with
    | error e => exact ⟨fun ⟨_, h, _⟩ => (nomatch h), fun h => (nomatch h.1.1)⟩
    | ok keep =>
      constructor
      · rintro ⟨_, hkeep, h⟩
        cases hkeep
        obtain ⟨others, hothers, h⟩ := bind_ok_iff.mp h
        obtain ⟨hall, rfl⟩ := ih.mp hothers
        refine ⟨⟨rfl, hall⟩, ?_⟩
        cases keep with
        | true | false => exact Except.ok.inj h
      · rintro ⟨⟨-, hall⟩, rfl⟩
        refine ⟨keep, rfl, bind_ok_iff.mpr ⟨_, ih.mpr ⟨hall, rfl⟩, ?_⟩⟩
        cases keep with
        | true | false => rfl

/-- Renaming the error does not change a result. -/
theorem mapError_ok_iff {ε' : Type*} {f : ε → ε'} : x.mapError f = .ok a ↔ x = .ok a := by
  cases x with
  | error e => exact ⟨nofun, nofun⟩
  | ok b =>
    constructor
    · intro h
      exact congrArg Except.ok (Except.ok.inj h)
    · intro h
      exact congrArg Except.ok (Except.ok.inj h)

/-- A check that was passed. -/
theorem of_check {c : Prop} [Decidable c] {v : α} (h : (if c then .error e else x) = .ok v) :
    ¬ c ∧ x = .ok v := by
  split at h
  next => cases h
  next hc => exact ⟨hc, h⟩

/-- An optional step. -/
theorem elim_ok_iff {o : Option α} {f : α → Except ε Unit} :
    o.elim (.ok ()) f = .ok () ↔ ∀ a ∈ o, f a = .ok () := by
  cases o with
  | none => exact ⟨nofun, fun _ => rfl⟩
  | some a =>
    constructor
    · intro h b hb
      exact Option.some.inj hb ▸ h
    · intro h
      exact h a rfl

theorem mapM_ok_iff : xs.mapM f = .ok ys ↔ List.Forall₂ (fun x y => f x = .ok y) xs ys := by
  induction xs generalizing ys with
  | nil =>
    constructor
    · intro h
      obtain rfl := Except.ok.inj h
      exact .nil
    · intro h
      cases h
      rfl
  | cons x xs ih =>
    rw [mapM_cons, bind_ok_iff]
    constructor
    · rintro ⟨y, hy, h⟩
      obtain ⟨zs, hzs, h⟩ := bind_ok_iff.mp h
      obtain rfl := Except.ok.inj h
      exact .cons hy (ih.mp hzs)
    · intro h
      cases h with
      | cons hy hrest => exact ⟨_, hy, bind_ok_iff.mpr ⟨_, ih.mpr hrest, rfl⟩⟩

theorem toOption_eq_some_iff : x.toOption = some a ↔ x = .ok a := by
  cases x with
  | error e => exact ⟨nofun, nofun⟩
  | ok b =>
    constructor
    · intro h
      exact congrArg Except.ok (Option.some.inj h)
    · intro h
      exact congrArg some (Except.ok.inj h)

theorem mapM_congr {g : α → Except ε β} (h : ∀ x ∈ xs, f x = g x) : xs.mapM f = xs.mapM g := by
  induction xs with
  | nil => rfl
  | cons x xs ih =>
    rw [mapM_cons, mapM_cons, h x mem_cons_self, ih fun y hy => h y (mem_cons_of_mem x hy)]

/-- Every result of a `mapM` is that of an element. -/
theorem exists_of_mapM {y : β} (h : xs.mapM f = .ok ys) (hy : y ∈ ys) : ∃ x ∈ xs, f x = .ok y := by
  replace h := mapM_ok_iff.mp h
  induction h with
  | nil => cases hy
  | @cons x y' xs ys hx _ ih =>
    rcases mem_cons.mp hy with rfl | hy
    · exact ⟨x, mem_cons_self, hx⟩
    · obtain ⟨x', hmem, hx'⟩ := ih hy
      exact ⟨x', mem_cons_of_mem x hmem, hx'⟩

/-- A `forM` of checks passes when each of them does. -/
theorem forM_ok_iff {f : α → Except ε Unit} : xs.forM f = .ok () ↔ ∀ x ∈ xs, f x = .ok () := by
  induction xs with
  | nil => exact ⟨nofun, fun _ => rfl⟩
  | cons x xs ih =>
    show (f x >>= fun _ => xs.forM f) = .ok () ↔ _
    rw [bind_ok_iff, forall_mem_cons, ← ih]
    constructor
    · rintro ⟨u, hx, hrest⟩
      exact ⟨hx, hrest⟩
    · rintro ⟨hx, hrest⟩
      exact ⟨(), hx, hrest⟩

section Loops

variable {σ : Type} {f : σ → α → Except ε σ} {P : List α → σ → Prop} {done rest : List α}
  {s s' : σ}

theorem foldlM_from
    (step : ∀ done a s s', a ∈ rest → P done s → f s a = .ok s' → P (done ++ [a]) s')
    (h : P done s) (hrun : rest.foldlM f s = .ok s') : P (done ++ rest) s' := by
  induction rest generalizing done s with
  | nil =>
    cases hrun
    rw [append_nil]
    exact h
  | cons a rest ih =>
    obtain ⟨next, hnext, hrest⟩ := bind_ok_iff.mp hrun
    rw [append_cons]
    refine ih (fun done b s s' hb => step done b s s' (mem_cons_of_mem a hb)) ?_ hrest
    exact step done a s next mem_cons_self h hnext

/-- What a step keeps so far, the run has of all. -/
theorem foldlM_invariant
    (step : ∀ done a s s', a ∈ rest → P done s → f s a = .ok s' → P (done ++ [a]) s')
    (h : P [] s) (hrun : rest.foldlM f s = .ok s') : P rest s' :=
  foldlM_from step h hrun

end Loops

/-- A `mapM` that stops at the first without it. -/
theorem mapM_if {g : α → β} [DecidablePred p]
    (h : ∀ x ∈ xs, f x = if p x then .ok (g x) else .error e) :
    xs.mapM f = if ∀ x ∈ xs, p x then .ok (xs.map g) else .error e := by
  induction xs with
  | nil => rfl
  | cons x xs ih =>
    rw [mapM_cons, h x mem_cons_self, ih fun y hy => h y (mem_cons_of_mem x hy)]
    by_cases hx : p x
    · by_cases hxs : ∀ y ∈ xs, p y
      · rw [if_pos hx, if_pos hxs, if_pos (forall_mem_cons.mpr ⟨hx, hxs⟩)]
        rfl
      · rw [if_pos hx, if_neg hxs, if_neg fun hall => hxs (forall_mem_cons.mp hall).2]
        rfl
    · rw [if_neg hx, if_neg fun hall => hx (forall_mem_cons.mp hall).1]
      rfl

/-- Equivalent properties hold on both sides. -/
theorem forall_congr_of_forall₂ {R : α → β → Prop} {q : β → Prop} (h : List.Forall₂ R xs ys)
    (hpq : ∀ x y, R x y → (p x ↔ q y)) : (∀ x ∈ xs, p x) ↔ ∀ y ∈ ys, q y := by
  induction h with
  | nil => exact ⟨nofun, nofun⟩
  | cons hxy _ ih => rw [forall_mem_cons, forall_mem_cons, hpq _ _ hxy, ih]

/-- Pairing through a list in between. -/
theorem forall₂_comp {P : α → β → Prop} {Q : β → γ → Prop} {R : α → γ → Prop} {zs : List γ}
    (hP : List.Forall₂ P xs ys) (hQ : List.Forall₂ Q ys zs)
    (hR : ∀ x y z, P x y → Q y z → R x z) : List.Forall₂ R xs zs := by
  induction hP generalizing zs with
  | nil =>
    cases hQ
    exact .nil
  | cons hp _ ih =>
    cases hQ with
    | cons hq hrest => exact .cons (hR _ _ _ hp hq) (ih hrest)

end Fallible
