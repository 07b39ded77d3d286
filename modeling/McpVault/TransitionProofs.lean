import Mathlib

/-! # Transition systems — guarded runs, invariants, and pools of activities

A system is a partial step function over moves, and `Reach step C` is reachability through moves
that meet the side condition `C`.  Every safety result goes through `Reach.invariant`: what each
step keeps, runs keep.

A step of a pool replaces one activity of a list: `pool_split` opens the list there, and
`countP_pool` says what the move does to a census. -/

namespace Transition

open List Option

variable {σ α : Type}

/-- One move of the system, meeting the side condition. -/
def Moves (step : σ → α → Option σ) (C : σ → α → σ → Prop) (s s' : σ) : Prop :=
  ∃ a, step s a = some s' ∧ C s a s'

/-- Any number of moves under the side condition. -/
def Reach (step : σ → α → Option σ) (C : σ → α → σ → Prop) : σ → σ → Prop :=
  Relation.ReflTransGen (Moves step C)

/-- The side condition that asks for nothing. -/
def Always : σ → α → σ → Prop := fun _ _ _ => True

/-- A whole schedule, executed. -/
def run (step : σ → α → Option σ) : σ → List α → Option σ
  | s, [] => some s
  | s, a :: as => (step s a).bind fun s' => run step s' as

theorem run_append (step : σ → α → Option σ) (s : σ) (as bs : List α) :
    run step s (as ++ bs) = (run step s as).bind fun s' => run step s' bs := by
  induction as generalizing s with
  | nil => rfl
  | cons a as ih =>
    show (step s a).bind _ = ((step s a).bind _).bind _
    rw [bind_assoc]
    congr 1
    funext s'
    exact ih s'

variable {step : σ → α → Option σ} {C D : σ → α → σ → Prop} {s t u : σ}

theorem Reach.refl : Reach step C s s := Relation.ReflTransGen.refl

theorem Reach.tail {a : α} (h : Reach step C s t) (ha : step t a = some u)
    (hC : C t a u) : Reach step C s u :=
  Relation.ReflTransGen.tail h ⟨a, ha, hC⟩

/-- A stronger side condition reaches less. -/
theorem Reach.mono (hCD : ∀ s a s', C s a s' → D s a s')
    (h : Reach step C s t) : Reach step D s t := by
  induction h with
  | refl => exact Reach.refl
  | tail _ hm ih =>
    obtain ⟨a, ha, hC⟩ := hm
    exact ih.tail ha (hCD _ a _ hC)

theorem Reach.always (h : Reach step C s t) : Reach step Always s t :=
  h.mono fun _ _ _ _ => trivial

/-- **THE INVARIANT RULE**: what steps keep, runs keep. -/
theorem Reach.invariant {P : σ → Prop}
    (hstep : ∀ s a s', P s → step s a = some s' → C s a s' → P s')
    (h : Reach step C s t) (hs : P s) : P t := by
  induction h with
  | refl => exact hs
  | tail _ hm ih =>
    obtain ⟨a, ha, hC⟩ := hm
    exact hstep _ a _ ih ha hC

variable {as : List α}

/-- An executed schedule is an admissible run. -/
theorem Reach.of_run_where (hC : ∀ a ∈ as, ∀ s s', C s a s') (h : run step s as = some t) :
    Reach step C s t := by
  induction as generalizing s with
  | nil =>
    cases h
    exact Reach.refl
  | cons a as ih =>
    obtain ⟨s', ha, h'⟩ := bind_eq_some_iff.mp h
    have hrest := ih (fun b hb => hC b (mem_cons_of_mem a hb)) h'
    exact Relation.ReflTransGen.head ⟨a, ha, hC a mem_cons_self s s'⟩ hrest

/-- An executed schedule is a run. -/
theorem Reach.of_run (h : run step s as = some t) : Reach step Always s t :=
  Reach.of_run_where (fun _ _ _ _ => trivial) h

/-- A schedule, with every step checked. -/
def runWhere (step : σ → α → Option σ) (C : σ → α → σ → Prop)
    [∀ s a s', Decidable (C s a s')] : σ → List α → Option σ
  | s, [] => some s
  | s, a :: as => (step s a).bind fun s' => if C s a s' then runWhere step C s' as else none

theorem Reach.of_runWhere [∀ s a s', Decidable (C s a s')] (h : runWhere step C s as = some t) :
    Reach step C s t := by
  induction as generalizing s with
  | nil =>
    cases h
    exact Reach.refl
  | cons a as ih =>
    obtain ⟨s', ha, h'⟩ := bind_eq_some_iff.mp h
    obtain ⟨hC, hrest⟩ := ite_none_right_eq_some.mp h'
    exact Relation.ReflTransGen.head ⟨a, ha, hC⟩ (ih hrest)

/-- The invariant rule with the schedule so far at hand. -/
theorem run_invariant {P : List α → σ → Prop} {Q : α → Prop}
    (hstep : ∀ as s a s', P as s → Q a → step s a = some s' → P (as ++ [a]) s')
    (as : List α) : ∀ {past : List α} {s t : σ}, P past s → (∀ a ∈ as, Q a) →
      run step s as = some t → P (past ++ as) t := by
  induction as with
  | nil =>
    intro past s t hs _ h
    cases h
    rw [append_nil]
    exact hs
  | cons a as ih =>
    intro past s t hs hQ h
    obtain ⟨s', ha, h'⟩ := bind_eq_some_iff.mp h
    have hnext := hstep past s a s' hs (hQ a mem_cons_self) ha
    have hrest := ih hnext (fun b hb => hQ b (mem_cons_of_mem a hb)) h'
    rw [append_assoc] at hrest
    exact hrest

/-! ## Pools: a list of activities, one of which moves -/

section Pool

variable {π : Type}
  {l pool r : List π} {p q : π} {f : π → Bool}

/-- Opening a pool at the activity that moves. -/
theorem pool_split {i : Nat} (h : pool[i]? = some p) :
    ∃ l r, pool = l ++ p :: r ∧ ∀ q, pool.set i q = l ++ q :: r := by
  induction pool generalizing i with
  | nil => cases h
  | cons x xs ih =>
    cases i with
    | zero =>
      cases h
      exact ⟨[], xs, rfl, fun q => rfl⟩
    | succ i =>
      obtain ⟨l, r, hxs, hset⟩ := ih h
      refine ⟨x :: l, r, by rw [hxs]; rfl, ?_⟩
      intro q
      rw [set_cons_succ, hset q]
      rfl

/-- One activity leaves, another enters. -/
theorem countP_pool (f : π → Bool) (l r : List π) (p : π) :
    (l ++ p :: r).countP f = (l ++ r).countP f + (f p).toNat := by
  rw [countP_append, countP_append, countP_cons]
  cases f p with
  | true => simp only [if_true, Bool.toNat_true]; omega
  | false => simp

/-- A counter that moves along keeps counting. -/
theorem census_move {n n' : Nat} (h : n = (l ++ p :: r).countP f)
    (hn : (f p → 0 < n) → n' + (f p).toNat = n + (f q).toNat) :
    n' = (l ++ q :: r).countP f := by
  rw [countP_pool] at h ⊢
  have hpos : f p → 0 < n := by
    intro hp
    rw [h, hp]
    exact Nat.succ_pos _
  have hstep := hn hpos
  omega

/-- A census of at most one: whoever is counted is alone. -/
theorem alone_of_countP_le_one (h : (l ++ p :: r).countP f ≤ 1) (hp : f p)
    (hq : q ∈ l ++ r) : f q = false := by
  rw [countP_pool, hp] at h
  have hzero : (l ++ r).countP f = 0 := by
    simp only [Bool.toNat_true] at h
    omega
  cases hf : f q with
  | true => exact absurd hf (countP_eq_zero.mp hzero q hq)
  | false => rfl

/-- The other members of a pool: those of the remainder. -/
theorem mem_pool : q ∈ l ++ p :: r ↔ q = p ∨ q ∈ l ++ r := by
  rw [mem_append, mem_cons, mem_append]
  tauto

/-- A census of zero has no member. -/
theorem not_of_countP_eq_zero (h : pool.countP f = 0) (hp : p ∈ pool) : f p = false := by
  have hno := countP_eq_zero.mp h p hp
  cases hf : f p with
  | true => exact absurd hf hno
  | false => rfl

end Pool

end Transition
