import McpVault.TransitionProofs

/-! # Tables of weak mutexes

A table maps a key to a weak reference of a mutex.  One access drops dead entries and fetches a
strong reference for each key of a group; the task then locks these one by one.

Over all interleavings a strong reference keeps its mutex in the table, so that a guard excludes
every other guard for its key; and when plans list their keys in increasing order, the task
blocked at a maximal key is blocked by one that is not waiting. -/

namespace LockTable

open Transition List Option

variable {κ : Type}

/-- A reference, with the key it is for. -/
structure Ref (κ : Type) where
  key : κ
  mutex : Nat
  deriving DecidableEq

/-- An access's keys, and the part it sweeps. -/
structure Group (κ : Type) where
  scope : κ → Bool
  keys : List κ

/-- What a task is going to lock, in increasing order. -/
structure Plan (κ : Type) [LT κ] where
  groups : List (Group κ)
  ordered : (groups.flatMap Group.keys).Pairwise (· < ·)

/-- Guards, awaited references, groups, drops. -/
structure Client (κ : Type) where
  (held pending : List (Ref κ))
  later : List (Group κ)
  dropping : List (Ref κ)

/-- The weak entries, and the number of the next mutex. -/
structure Table (κ : Type) where
  entry : κ → Option Nat
  next : Nat

structure State (κ : Type) where
  table : Table κ
  locked : Nat → Bool
  tasks : List (Client κ)

def empty : State κ := ⟨⟨fun _ => none, 0⟩, fun _ => false, []⟩

def Client.refs (t : Client κ) : List (Ref κ) := t.held ++ t.pending ++ t.dropping

/-- The task waits for nothing more. -/
def Client.finished (t : Client κ) : Bool := t.pending.isEmpty && t.later.isEmpty

/-- `strong_count() != 0`. -/
def State.alive (s : State κ) (m : Nat) : Bool :=
  s.tasks.any fun t => t.refs.any fun r => r.mutex == m

/-- `retain`, on the swept part. -/
def Table.retain (t : Table κ) (scope : κ → Bool) (alive : Nat → Bool) : Table κ :=
  { t with entry := fun k => if scope k && !(t.entry k).any alive then none else t.entry k }

/-- A new mutex for a key. -/
def Table.insert [DecidableEq κ] (t : Table κ) (k : κ) : Table κ :=
  ⟨fun k' => if k' = k then some t.next else t.entry k', t.next + 1⟩

/-- Upgrade the entry of a key, or insert a new mutex. -/
def Table.fetch [DecidableEq κ] (t : Table κ) (alive : Nat → Bool) (k : κ) : Table κ × Ref κ :=
  match (t.entry k).filter alive with
  | some m => (t, ⟨k, m⟩)
  | none => (t.insert k, ⟨k, t.next⟩)

/-- A fetched reference keeps its mutex alive. -/
def Table.fetchAll [DecidableEq κ] (alive : Nat → Bool) (t : Table κ) :
    List κ → Table κ × List (Ref κ)
  | [] => (t, [])
  | k :: ks =>
    let (t', r) := t.fetch alive k
    let (t'', rs) := fetchAll (fun m => alive m || r.mutex == m) t' ks
    (t'', r :: rs)

/-- What a task does next. -/
inductive Move (κ : Type) [LT κ] where
  | spawn (plan : Plan κ)
  | access (i : Nat)
  | lock (i : Nat)
  | cancel (i : Nat)
  | release (i n : Nat)
  | forget (i n : Nat)

section Step

variable [LT κ]

/-- One access, wait or drop. -/
def step [DecidableEq κ] (s : State κ) : Move κ → Option (State κ)
  | .spawn plan => some { s with tasks := s.tasks ++ [⟨[], [], plan.groups, []⟩] }
  | .access i =>
    match s.tasks[i]? with
    | some ⟨held, [], group :: later, dropping⟩ =>
      let (table, refs) := (s.table.retain group.scope s.alive).fetchAll s.alive group.keys
      some { s with table, tasks := s.tasks.set i ⟨held, refs, later, dropping⟩ }
    | _ => none
  | .lock i =>
    match s.tasks[i]? with
    | some ⟨held, r :: pending, later, dropping⟩ =>
      if s.locked r.mutex then none
      else some
        { s with
          locked := fun m => if m = r.mutex then true else s.locked m
          tasks := s.tasks.set i ⟨held ++ [r], pending, later, dropping⟩ }
    | _ => none
  | .cancel i =>
    match s.tasks[i]? with
    | some t => some { s with tasks := s.tasks.set i ⟨t.held, [], [], t.dropping ++ t.pending⟩ }
    | none => none
  | .release i n =>
    match s.tasks[i]? with
    | some ⟨held, [], [], dropping⟩ =>
      match held[n]? with
      | some r => some
          { s with
            locked := fun m => if m = r.mutex then false else s.locked m
            tasks := s.tasks.set i ⟨held.eraseIdx n, [], [], r :: dropping⟩ }
      | none => none
    | _ => none
  | .forget i n =>
    match s.tasks[i]? with
    | some t => some { s with tasks := s.tasks.set i { t with dropping := t.dropping.eraseIdx n } }
    | none => none

/-- The moves of tasks that neither arrive nor give up. -/
def Move.advances : Move κ → Bool
  | .access _ | .lock _ | .release _ _ => true
  | _ => false

end Step

/-! ## An access of the table -/

section Table

variable {t : Table κ} {alive : Nat → Bool} {k : κ} {m : Nat}

/-- Numbers are given once. -/
structure Table.Sound (t : Table κ) : Prop where
  fresh : ∀ k m, t.entry k = some m → m < t.next
  injective : ∀ k k' m, t.entry k = some m → t.entry k' = some m → k = k'

variable {scope : κ → Bool}

theorem Table.retain_entry (h : (t.retain scope alive).entry k = some m) : t.entry k = some m := by
  simp only [Table.retain] at h
  split at h
  next => cases h
  next => exact h

theorem Table.retain_live (h : t.entry k = some m) (hm : alive m) :
    (t.retain scope alive).entry k = some m := by
  simp [Table.retain, h, hm]

theorem Table.Sound.retain (h : t.Sound) (scope : κ → Bool) (alive : Nat → Bool) :
    (t.retain scope alive).Sound :=
  ⟨fun k m hk => h.fresh k m (Table.retain_entry hk), fun k k' m hk hk' =>
    h.injective k k' m (Table.retain_entry hk) (Table.retain_entry hk')⟩

/-- What an access keeps and what it gives. -/
structure Fetched (t : Table κ) (alive : Nat → Bool) (t' : Table κ) (rs : List (Ref κ)) : Prop where
  sound : t'.Sound
  live : ∀ k m, t.entry k = some m → alive m → t'.entry k = some m
  entry : ∀ r ∈ rs, t'.entry r.key = some r.mutex

variable [DecidableEq κ]

@[simp] theorem Table.insert_self : (t.insert k).entry k = some t.next := if_pos rfl

theorem Table.insert_other {k' : κ} (h : k' ≠ k) : (t.insert k).entry k' = t.entry k' := if_neg h

theorem Table.Sound.insert (h : t.Sound) : (t.insert k).Sound := by
  have hnext : ∀ k', t.entry k' ≠ some t.next :=
    fun k' hk' => Nat.lt_irrefl _ (h.fresh k' _ hk')
  constructor
  · intro k' m hk'
    by_cases hkey : k' = k
    · subst hkey
      rw [insert_self] at hk'
      exact Option.some.inj hk' ▸ Nat.lt_succ_self t.next
    · exact Nat.lt_succ_of_lt (h.fresh k' m (insert_other hkey ▸ hk'))
  · intro k₁ k₂ m h₁ h₂
    by_cases hkey₁ : k₁ = k
    · by_cases hkey₂ : k₂ = k
      · exact hkey₁.trans hkey₂.symm
      · subst hkey₁
        rw [insert_self] at h₁
        exact absurd (h₁ ▸ insert_other hkey₂ ▸ h₂) (hnext k₂)
    · rw [insert_other hkey₁] at h₁
      by_cases hkey₂ : k₂ = k
      · subst hkey₂
        rw [insert_self] at h₂
        exact absurd (h₂ ▸ h₁) (hnext k₁)
      · exact h.injective k₁ k₂ m h₁ (insert_other hkey₂ ▸ h₂)

theorem Table.fetch_key (alive : Nat → Bool) (k : κ) : (t.fetch alive k).2.key = k := by
  unfold Table.fetch
  split <;> rfl

theorem Table.fetch_spec (h : t.Sound) (alive : Nat → Bool) (k : κ) :
    Fetched t alive (t.fetch alive k).1 [(t.fetch alive k).2] := by
  unfold Table.fetch
  split
  next m hm =>
    have hentry : t.entry k = some m := (filter_eq_some_iff.mp hm).1
    exact ⟨h, fun _ _ hk _ => hk, by simpa using hentry⟩
  next hnone =>
    refine ⟨h.insert, fun k' m hk' halive => ?_, by simp⟩
    have hkey : k' ≠ k := by
      rintro rfl
      simp [hk', halive] at hnone
    exact (insert_other hkey).trans hk'

theorem Table.fetchAll_cons (ks : List κ) : t.fetchAll alive (k :: ks) =
      let rest := (t.fetch alive k).1.fetchAll
        (fun m => alive m || (t.fetch alive k).2.mutex == m) ks
      (rest.1, (t.fetch alive k).2 :: rest.2) := rfl

/-- One reference for each key, in order. -/
theorem Table.fetchAll_keys (t : Table κ) (alive : Nat → Bool) (ks : List κ) :
    (t.fetchAll alive ks).2.map Ref.key = ks := by
  induction ks generalizing t alive with
  | nil => rfl
  | cons k ks ih =>
    exact congrArg₂ List.cons (fetch_key alive k) (ih _ _)

/-- **ONE ACCESS**: live entries stay, keys get mutexes. -/
theorem Table.fetchAll_spec (h : t.Sound) (alive : Nat → Bool) (ks : List κ) :
    Fetched t alive (t.fetchAll alive ks).1 (t.fetchAll alive ks).2 := by
  induction ks generalizing t alive with
  | nil => exact ⟨h, fun _ _ hk _ => hk, nofun⟩
  | cons k ks ih =>
    have hfirst := Table.fetch_spec h alive k
    have hrest := ih hfirst.sound fun m => alive m || (t.fetch alive k).2.mutex == m
    rw [fetchAll_cons]
    refine ⟨hrest.sound, fun k' m' hk' halive => ?_, fun r hr => ?_⟩
    · exact hrest.live k' m' (hfirst.live k' m' hk' halive) (by simp [halive])
    · rcases mem_cons.mp hr with hr | hr
      · rw [hr]
        exact hrest.live _ _ (hfirst.entry _ mem_cons_self) (by simp)
      · exact hrest.entry r hr

end Table

/-! ## What a move does -/

section Effect

variable [DecidableEq κ] [LT κ] {s s' : State κ} {a : Move κ}

/-- What a move does to the table and the tasks. -/
inductive Effect (s : State κ) : Move κ → State κ → Prop
  | spawn (plan : Plan κ) :
      Effect s (.spawn plan) { s with tasks := s.tasks ++ [⟨[], [], plan.groups, []⟩] }
  | access {i : Nat} {held dropping refs : List (Ref κ)} {group : Group κ}
      {later : List (Group κ)} {table : Table κ}
      (task : s.tasks[i]? = some ⟨held, [], group :: later, dropping⟩)
      (fetched : (s.table.retain group.scope s.alive).fetchAll s.alive group.keys = (table, refs)) :
      Effect s (.access i) { s with table, tasks := s.tasks.set i ⟨held, refs, later, dropping⟩ }
  | lock {i : Nat} {held pending dropping : List (Ref κ)} {r : Ref κ} {later : List (Group κ)}
      (task : s.tasks[i]? = some ⟨held, r :: pending, later, dropping⟩)
      (free : s.locked r.mutex = false) :
      Effect s (.lock i)
        { s with
          locked := fun m => if m = r.mutex then true else s.locked m
          tasks := s.tasks.set i ⟨held ++ [r], pending, later, dropping⟩ }
  | cancel {i : Nat} {t : Client κ} (task : s.tasks[i]? = some t) : Effect s (.cancel i)
        { s with tasks := s.tasks.set i ⟨t.held, [], [], t.dropping ++ t.pending⟩ }
  | release {i n : Nat} {held dropping : List (Ref κ)} {r : Ref κ}
      (task : s.tasks[i]? = some ⟨held, [], [], dropping⟩) (guard : held[n]? = some r) :
      Effect s (.release i n)
        { s with
          locked := fun m => if m = r.mutex then false else s.locked m
          tasks := s.tasks.set i ⟨held.eraseIdx n, [], [], r :: dropping⟩ }
  | forget {i n : Nat} {t : Client κ} (task : s.tasks[i]? = some t) : Effect s (.forget i n)
        { s with tasks := s.tasks.set i { t with dropping := t.dropping.eraseIdx n } }

theorem step_effect (h : step s a = some s') : Effect s a s' := by
  cases a with
  | spawn plan =>
    cases h
    exact .spawn plan
  | access i =>
    simp only [step] at h
    split at h
    next task =>
      cases h
      exact .access task rfl
    next => cases h
  | lock i =>
    simp only [step] at h
    split at h
    next task =>
      split at h
      next => cases h
      next free =>
        cases h
        exact .lock task (Bool.not_eq_true _ ▸ free)
    next => cases h
  | cancel i =>
    simp only [step] at h
    split at h
    next task =>
      cases h
      exact .cancel task
    next => cases h
  | release i n =>
    simp only [step] at h
    split at h
    next task =>
      split at h
      next guard =>
        cases h
        exact .release task guard
      next => cases h
    next => cases h
  | forget i n =>
    simp only [step] at h
    split at h
    next task =>
      cases h
      exact .forget task
    next => cases h

end Effect

/-! ## Exclusion -/

section Exclusion

variable {s s' : State κ}

/-- A task's keys, in its locking order. -/
def Client.demand (t : Client κ) : List κ :=
  t.held.map Ref.key ++ t.pending.map Ref.key ++ t.later.flatMap Group.keys

variable {t u : Client κ} {x y : Ref κ}

theorem Client.demand_of_finished (h : t.finished) : t.demand = t.held.map Ref.key := by
  rw [Client.finished, Bool.and_eq_true, List.isEmpty_iff, List.isEmpty_iff] at h
  simp [Client.demand, h.1, h.2]

/-- The guards of a mutex. -/
def guards (tasks : List (Client κ)) (m : Nat) : Nat :=
  (tasks.flatMap Client.held).countP fun r => r.mutex == m

theorem guards_append (l r : List (Client κ)) (m : Nat) :
    guards (l ++ r) m = guards l m + guards r m := by
  rw [guards, flatMap_append, countP_append]
  rfl

theorem guards_pool (l r : List (Client κ)) (t : Client κ) (m : Nat) :
    guards (l ++ t :: r) m = guards (l ++ r) m + t.held.countP fun x => x.mutex == m := by
  rw [guards_append, guards_append, guards, guards, guards, flatMap_cons, countP_append]
  omega

theorem Client.mem_refs_of_held (hx : x ∈ t.held) : x ∈ t.refs :=
  mem_append_left _ (mem_append_left _ hx)

/-- A reference of a task is alive. -/
theorem alive_of_mem {r : Ref κ} (ht : t ∈ s.tasks) (hr : r ∈ t.refs) : s.alive r.mutex :=
  any_eq_true.mpr ⟨t, ht, any_eq_true.mpr ⟨r, hr, beq_self_eq_true _⟩⟩

variable [LT κ] {a : Move κ}

/-- Table, references and guards agree. -/
structure Inv (s : State κ) : Prop where
  sound : s.table.Sound
  /-- A strong reference keeps its mutex in the table. -/
  entry : ∀ t ∈ s.tasks, ∀ r ∈ t.refs, s.table.entry r.key = some r.mutex
  /-- A mutex is locked by the one guard it has. -/
  census : ∀ m, guards s.tasks m = (s.locked m).toNat
  ordered : ∀ t ∈ s.tasks, t.demand.Pairwise (· < ·)

theorem empty_inv : Inv (empty : State κ) :=
  ⟨⟨nofun, nofun⟩, nofun, fun _ => rfl, nofun⟩

section

variable {l r : List (Client κ)} {t t' : Client κ} {locked : Nat → Bool} (h : Inv s)
  (htasks : s.tasks = l ++ t :: r)
  (hcensus : ∀ m, (locked m).toNat + t.held.countP (fun x => x.mutex == m) =
    (s.locked m).toNat + t'.held.countP (fun x => x.mutex == m))

include h htasks hcensus

/-- A move of one task keeps the entries of the others. -/
theorem Inv.move {table : Table κ} (hsound : table.Sound)
    (hlive : ∀ k m, s.table.entry k = some m → s.alive m → table.entry k = some m)
    (hrefs : ∀ x ∈ t'.refs, table.entry x.key = some x.mutex)
    (hordered : t'.demand.Pairwise (· < ·)) :
    Inv { s with table, locked, tasks := l ++ t' :: r } := by
  have hmem : ∀ u ∈ l ++ r, u ∈ s.tasks := fun u hu => htasks ▸ mem_pool.mpr (.inr hu)
  refine ⟨hsound, fun u hu x hx => ?_, fun m => ?_, fun u hu => ?_⟩
  · rcases mem_pool.mp hu with rfl | hu
    · exact hrefs x hx
    · exact hlive _ _ (h.entry u (hmem u hu) x hx) (alive_of_mem (hmem u hu) hx)
  · have hold := h.census m
    have hnew := hcensus m
    rw [htasks, guards_pool] at hold
    show guards (l ++ t' :: r) m = (locked m).toNat
    rw [guards_pool]
    omega
  · rcases mem_pool.mp hu with rfl | hu
    · exact hordered
    · exact h.ordered u (hmem u hu)

/-- The same for a change that leaves the table alone. -/
theorem Inv.moved (hrefs : ∀ x ∈ t'.refs, x ∈ t.refs) (hordered : t'.demand.Sublist t.demand) :
    Inv { s with locked, tasks := l ++ t' :: r } := by
  have ht : t ∈ s.tasks := htasks ▸ mem_pool.mpr (.inl rfl)
  exact h.move htasks hcensus h.sound (fun _ _ hk _ => hk)
    (fun x hx => h.entry t ht x (hrefs x hx)) ((h.ordered t ht).sublist hordered)

end

variable [DecidableEq κ]

theorem step_inv (hstep : step s a = some s') (h : Inv s) : Inv s' := by
  cases step_effect hstep with
  | spawn plan =>
    refine ⟨h.sound, fun t ht r hr => ?_, fun m => ?_, fun t ht => ?_⟩
    · rcases mem_append.mp ht with ht | ht
      · exact h.entry t ht r hr
      · rw [mem_singleton.mp ht] at hr
        cases hr
    · show guards (s.tasks ++ _) m = _
      rw [guards_append, h.census m]
      rfl
    · rcases mem_append.mp ht with ht | ht
      · exact h.ordered t ht
      · rw [mem_singleton.mp ht]
        exact plan.ordered
  | @access i held dropping refs group later table task fetched =>
    obtain ⟨l, r, htasks, hset⟩ := pool_split task
    have ht := htasks ▸ mem_pool.mpr (.inl rfl)
    have hfetched := Table.fetchAll_spec (h.sound.retain group.scope s.alive) s.alive
      group.keys
    have hkeys := Table.fetchAll_keys (s.table.retain group.scope s.alive) s.alive group.keys
    rw [fetched] at hfetched hkeys
    have hlive : ∀ k m, s.table.entry k = some m → s.alive m → _ := fun k m hk halive =>
      hfetched.live k m (Table.retain_live hk halive) halive
    rw [hset]
    refine h.move htasks (fun _ => ?_) hfetched.sound hlive (fun x hx => ?_) ?_
    · rfl
    · have hcases := hx
      simp only [Client.refs, mem_append] at hcases
      by_cases hnew : x ∈ refs
      · exact hfetched.entry x hnew
      · have hold : x ∈ Client.refs ⟨held, [], group :: later, dropping⟩ := by
          simp only [Client.refs, mem_append]
          tauto
        exact hlive _ _ (h.entry _ ht x hold) (alive_of_mem ht hold)
    · have hordered := h.ordered _ ht
      simpa only [Client.demand, hkeys, map_nil, append_nil, flatMap_cons,
        append_assoc] using hordered
  | @lock i held pending dropping x later task free =>
    obtain ⟨l, r, htasks, hset⟩ := pool_split task
    rw [hset]
    refine h.moved htasks (fun m => ?_) (fun y hy => ?_) ?_
    · rw [countP_append]
      by_cases hm : m = x.mutex
      · subst hm
        simp [free]
        omega
      · simp [hm, Ne.symm hm]
    · simp only [Client.refs, mem_append, mem_cons] at hy ⊢
      tauto
    · simp [Client.demand]
  | cancel task =>
    obtain ⟨l, r, htasks, hset⟩ := pool_split task
    rw [hset]
    refine h.moved htasks (fun _ => rfl) (fun x hx => ?_) ?_
    · simp only [Client.refs, mem_append] at hx ⊢
      tauto
    · simp only [Client.demand, map_nil, append_nil, flatMap_nil, append_assoc]
      exact sublist_append_left _ _
  | @release i n held dropping x task guard =>
    obtain ⟨l, r, htasks, hset⟩ := pool_split task
    obtain ⟨hn, hget⟩ := List.getElem?_eq_some_iff.mp guard
    have hperm : (x :: held.eraseIdx n).Perm held := hget ▸ getElem_cons_eraseIdx_perm hn
    rw [hset]
    refine h.moved htasks (fun m => ?_) (fun y hy => ?_) ?_
    · -- The mutex of the dropped guard is locked, by this guard alone.
      have hcensus : guards (l ++ r) m + held.countP (fun y => y.mutex == m) =
          (s.locked m).toNat := by
        rw [← h.census m, htasks, guards_pool]
      have hcount := hperm.countP_eq fun y => y.mutex == m
      rw [countP_cons] at hcount
      by_cases hm : m = x.mutex
      · subst hm
        have hone := Bool.toNat_le (s.locked x.mutex)
        simp only [beq_self_eq_true, if_true, Bool.toNat_false] at hcount ⊢
        omega
      · have hne : (x.mutex == m) = false := beq_eq_false_iff_ne.mpr (Ne.symm hm)
        simp only [hne, if_neg hm, Bool.false_eq_true, if_false] at hcount ⊢
        omega
    · simp only [Client.refs, mem_append, mem_cons] at hy ⊢
      rw [← hperm.mem_iff, mem_cons]
      tauto
    · simp only [Client.demand, map_nil, append_nil, flatMap_nil]
      exact (eraseIdx_sublist held n).map _
  | forget task =>
    obtain ⟨l, r, htasks, hset⟩ := pool_split task
    rw [hset]
    refine h.moved htasks (fun _ => rfl) (fun x hx => ?_) (List.Sublist.refl _)
    simp only [Client.refs, mem_append] at hx ⊢
    exact hx.imp_right fun hx => mem_of_mem_eraseIdx hx

theorem reach_inv (h : Reach step Always empty s) : Inv s :=
  h.invariant (fun _ _ _ hi hs _ => step_inv hs hi) empty_inv

omit [DecidableEq κ]

/-- A key has one live mutex. -/
theorem Inv.one_mutex (h : Inv s) (ht : t ∈ s.tasks) (hu : u ∈ s.tasks) (hx : x ∈ t.refs)
    (hy : y ∈ u.refs) (hkey : x.key = y.key) : x.mutex = y.mutex := by
  have hx := h.entry t ht x hx
  rw [hkey, h.entry u hu y hy] at hx
  exact (Option.some.inj hx).symm

/-- The guards of two tasks are for different keys. -/
theorem Inv.exclusive (h : Inv s) {i j : Nat} (ht : s.tasks[i]? = some t)
    (hu : s.tasks[j]? = some u) (hx : x ∈ t.held) (hy : y ∈ u.held) (hkey : x.key = y.key) :
    i = j := by
  by_contra hne
  obtain ⟨l, r, htasks, hset⟩ := pool_split ht
  -- With the first task emptied, the second is still there.
  have hother : u ∈ l ++ r := by
    have hmem : u ∈ s.tasks.set i ⟨[], [], [], []⟩ :=
      mem_of_getElem? ((List.getElem?_set_ne hne).trans hu)
    rw [hset] at hmem
    refine (mem_pool.mp hmem).resolve_left ?_
    rintro rfl
    cases hy
  have hsame := h.one_mutex (mem_of_getElem? ht) (mem_of_getElem? hu)
    (Client.mem_refs_of_held hx) (Client.mem_refs_of_held hy) hkey
  have hone : 0 < t.held.countP fun z => z.mutex == x.mutex :=
    countP_pos_iff.mpr ⟨x, hx, beq_self_eq_true _⟩
  have htwo : 0 < guards (l ++ r) x.mutex :=
    countP_pos_iff.mpr ⟨y, mem_flatMap.mpr ⟨u, hother, hy⟩, by simp [hsame]⟩
  have hcensus := h.census x.mutex
  rw [htasks, guards_pool] at hcensus
  have hle := Bool.toNat_le (s.locked x.mutex)
  omega

end Exclusion

/-! ## Progress -/

section Progress

/-- The moves needed to lock and drop everything. -/
def Client.work (t : Client κ) : Nat :=
  t.held.length + 2 * t.pending.length + (t.later.map fun g => 2 * g.keys.length + 1).sum

def State.work (s : State κ) : Nat := (s.tasks.map Client.work).sum

variable {t : Client κ} {i : Nat}

theorem work_set {tasks : List (Client κ)} (h : tasks[i]? = some t) (t' : Client κ) :
    ((tasks.set i t').map Client.work).sum + t.work = (tasks.map Client.work).sum + t'.work := by
  obtain ⟨l, r, rfl, hset⟩ := pool_split h
  rw [hset]
  simp only [map_append, map_cons, sum_append, sum_cons]
  omega

variable [PartialOrder κ] {s s' : State κ} {a : Move κ}

/-- A locked mutex has a guard, for the key it serves. -/
theorem Inv.holder (h : Inv s) {x : Ref κ} (ht : t ∈ s.tasks) (hx : x ∈ t.refs)
    (hlocked : s.locked x.mutex) : ∃ u ∈ s.tasks, ∃ y ∈ u.held, y.key = x.key := by
  have hpos : 0 < guards s.tasks x.mutex := by
    rw [h.census, hlocked]
    exact Nat.one_pos
  obtain ⟨y, hy, hmutex⟩ := countP_pos_iff.mp hpos
  obtain ⟨u, hu, hyu⟩ := mem_flatMap.mp hy
  refine ⟨u, hu, y, hyu, h.sound.injective _ _ x.mutex ?_ (h.entry t ht x hx)⟩
  rw [h.entry u hu y (Client.mem_refs_of_held hyu), beq_iff_eq.mp hmutex]

variable [DecidableEq κ]

/-- A stuck task waits at a locked mutex, or has nothing. -/
theorem blocked_of_stuck (hstuck : ∀ a : Move κ, a.advances → step s a = none)
    (ht : t ∈ s.tasks) :
    (∃ x rest, t.pending = x :: rest ∧ s.locked x.mutex) ∨
      t.finished ∧ t.held = [] := by
  obtain ⟨i, hi, hget⟩ := getElem_of_mem ht
  have htask : s.tasks[i]? = some t := hget ▸ List.getElem?_eq_getElem hi
  obtain ⟨held, pending, later, dropping⟩ := t
  cases pending with
  | cons x rest =>
    refine .inl ⟨x, rest, rfl, ?_⟩
    by_contra hfree
    have hlock := hstuck (.lock i) rfl
    simp [step, htask, hfree] at hlock
  | nil =>
    cases later with
    | cons group later =>
      have haccess := hstuck (.access i) rfl
      simp [step, htask] at haccess
    | nil =>
      refine .inr ⟨rfl, ?_⟩
      cases held with
      | nil => rfl
      | cons x held =>
        have hrelease := hstuck (.release i 0) rfl
        simp [step, htask] at hrelease

/-- **PROGRESS**: while a task waits, some task can go on. -/
theorem Inv.progress (h : Inv s) (ht : t ∈ s.tasks) (hwait : t.finished = false) :
    ∃ a : Move κ, a.advances ∧ ∃ s', step s a = some s' := by
  by_contra hno
  have hstuck : ∀ a : Move κ, a.advances → step s a = none := by
    intro a ha
    cases hstep : step s a with
    | none => rfl
    | some s' => exact absurd ⟨a, ha, s', hstep⟩ hno
  -- The keys at which tasks wait; one of them is maximal.
  let heads : Set κ := {k | ∃ u ∈ s.tasks, ∃ x ∈ u.pending.head?, x.key = k}
  have hfinite : heads.Finite := by
    refine (s.tasks.filterMap fun u => u.pending.head?.map Ref.key).finite_toSet.subset ?_
    rintro k ⟨u, hu, x, hx, rfl⟩
    refine mem_filterMap.mpr ⟨u, hu, ?_⟩
    rw [mem_def.mp hx, map_some]
  have hnonempty : heads.Nonempty := by
    rcases blocked_of_stuck hstuck ht with ⟨x, rest, hpending, -⟩ | ⟨hfinished, -⟩
    · exact ⟨x.key, t, ht, x, by simp [hpending], rfl⟩
    · exact absurd (hwait.symm.trans hfinished) Bool.noConfusion
  obtain ⟨k, ⟨u, hu, x, hx, rfl⟩, hmax⟩ := hfinite.exists_maximal hnonempty
  -- Who holds the maximal key waits at a greater one.
  rcases blocked_of_stuck hstuck hu with ⟨x', rest, hpending, hlocked⟩ | ⟨hfinished, -⟩
  · obtain rfl : x' = x := by simpa [hpending] using hx
    obtain ⟨v, hv, y, hy, hkey⟩ := h.holder hu (by simp [Client.refs, hpending]) hlocked
    rcases blocked_of_stuck hstuck hv with ⟨z, more, hz, -⟩ | ⟨-, hnone⟩
    · have hordered := h.ordered v hv
      have hlt : y.key < z.key := by
        rw [Client.demand, append_assoc, pairwise_append] at hordered
        exact hordered.2.2 y.key (mem_map_of_mem hy) z.key (by simp [hz])
      have hle := hmax ⟨v, hv, z, by simp [hz], rfl⟩ (hkey ▸ hlt.le)
      exact absurd (hkey ▸ hlt) (not_lt_of_ge hle)
    · rw [hnone] at hy
      cases hy
  · rw [Client.finished, Bool.and_eq_true, List.isEmpty_iff] at hfinished
    rw [hfinished.1] at hx
    cases hx

/-- Every move that advances does a piece of the work. -/
theorem advance_work (hstep : step s a = some s') (ha : a.advances) :
    s'.work + 1 = s.work := by
  cases step_effect hstep with
  | spawn plan => cases ha
  | @access i held dropping refs group later table task fetched =>
    have hlen : refs.length = group.keys.length := by
      have hkeys := Table.fetchAll_keys (s.table.retain group.scope s.alive) s.alive group.keys
      rw [fetched] at hkeys
      rw [← hkeys, length_map]
    have hwork := work_set task ⟨held, refs, later, dropping⟩
    simp only [Client.work, map_cons, sum_cons, length_nil] at hwork
    show ((s.tasks.set i _).map Client.work).sum + 1 = (s.tasks.map Client.work).sum
    omega
  | @lock i held pending dropping x later task free =>
    have hwork := work_set task ⟨held ++ [x], pending, later, dropping⟩
    simp only [Client.work, length_append, length_cons, length_nil] at hwork
    show ((s.tasks.set i _).map Client.work).sum + 1 = (s.tasks.map Client.work).sum
    omega
  | cancel task => cases ha
  | @release i n held dropping x task guard =>
    obtain ⟨hn, -⟩ := List.getElem?_eq_some_iff.mp guard
    have hlen := length_eraseIdx_of_lt hn
    have hwork := work_set task ⟨held.eraseIdx n, [], [], x :: dropping⟩
    simp only [Client.work] at hwork
    show ((s.tasks.set i _).map Client.work).sum + 1 = (s.tasks.map Client.work).sum
    omega
  | forget task => cases ha

/-- Such a run ends when the work is done. -/
theorem advance_run {as : List (Move κ)} (hrun : run step s as = some s')
    (has : ∀ a ∈ as, a.advances) : s'.work + as.length = s.work := by
  induction as generalizing s with
  | nil =>
    cases hrun
    rfl
  | cons a as ih =>
    obtain ⟨s₁, hstep, hrest⟩ := bind_eq_some_iff.mp hrun
    have hwork := advance_work hstep (has a mem_cons_self)
    have hih := ih hrest fun b hb => has b (mem_cons_of_mem a hb)
    rw [length_cons]
    omega

/-- A waiting task keeps its demand. -/
theorem advance_demand (hstep : step s a = some s') (ha : a.advances)
    (ht : s.tasks[i]? = some t) (hwait : t.finished = false) :
    ∃ t', s'.tasks[i]? = some t' ∧ t'.demand = t.demand := by
  have hlt : i < s.tasks.length := (List.getElem?_eq_some_iff.mp ht).1
  -- Another task moves, or this one does.
  have hset : ∀ {j : Nat} {u u' : Client κ}, s.tasks[j]? = some u → (t = u → u'.demand = u.demand) →
      ∃ t', (s.tasks.set j u')[i]? = some t' ∧ t'.demand = t.demand := by
    intro j u u' hu hdemand
    by_cases hij : j = i
    · subst hij
      obtain rfl : t = u := Option.some.inj (ht.symm.trans hu)
      exact ⟨u', List.getElem?_set_self hlt, hdemand rfl⟩
    · exact ⟨t, (List.getElem?_set_ne hij).trans ht, rfl⟩
  cases step_effect hstep with
  | spawn plan => cases ha
  | @access j held dropping refs group later table task fetched =>
    refine hset task fun _ => ?_
    have hkeys := Table.fetchAll_keys (s.table.retain group.scope s.alive) s.alive group.keys
    rw [fetched] at hkeys
    simp [Client.demand, hkeys]
  | lock task free => exact hset task fun _ => by simp [Client.demand]
  | cancel task => cases ha
  | release task guard =>
    refine hset task fun hsame => ?_
    rw [hsame] at hwait
    cases hwait
  | forget task => cases ha

/-- **NO DEADLOCK**: a waiting task can get it all. -/
theorem Inv.can_complete (h : Inv s) (ht : s.tasks[i]? = some t) :
    ∃ as s' t', (∀ a ∈ as, a.advances) ∧ run step s as = some s' ∧
      s'.tasks[i]? = some t' ∧ t'.finished ∧ t'.held.map Ref.key = t.demand := by
  -- The induction is on the work left, which every such move reduces.
  induction hn : s.work using Nat.strong_induction_on generalizing s t with
  | _ n ih =>
    cases hwait : t.finished with
    | true => exact ⟨[], s, t, by simp, rfl, ht, hwait, (Client.demand_of_finished hwait).symm⟩
    | false =>
      obtain ⟨a, ha, s₁, hstep⟩ := h.progress (mem_of_getElem? ht) hwait
      obtain ⟨t₁, ht₁, hdemand⟩ := advance_demand hstep ha ht hwait
      have hwork := advance_work hstep ha
      obtain ⟨as, s', t', has, hrun, ht', hfinished, hheld⟩ :=
        ih s₁.work (by omega) (step_inv hstep h) ht₁ rfl
      refine ⟨a :: as, s', t', ?_, ?_, ht', hfinished, hheld.trans hdemand⟩
      · intro b hb
        rcases mem_cons.mp hb with rfl | hb
        · exact ha
        · exact has b hb
      · show (step s a).bind _ = _
        rw [hstep]
        exact hrun

end Progress

end LockTable
