import McpVault.LockTableProofs
import McpVault.ReservedPathProofs
import McpVault.SortedMapProofs

/-! # Path locks

The two lock managers of the Core are one table: namespace locks are keyed by Vault, path locks
by Vault and comparison key.  A task takes the namespace lock, if it takes it at all, before it
asks for its paths, and it asks for its paths in sorted order.  So with the namespaces placed
below all paths every task locks in increasing order, and the results on tables of weak mutexes
apply. -/

namespace PathLock

open LogicalPath PlainText ReservedPath LockTable Transition List

/-- Vault and key, ordered as `LockKey` is. -/
abbrev LockKey (V : Type) := V ×ₗ Text

/-- A key of either manager. -/
abbrev Key (V : Type) := V ⊕ₗ LockKey V

/-- `keys.sort()` and `keys.dedup()`. -/
def sortDedup {α : Type} [LinearOrder α] (keys : List α) : List α :=
  (keys.insertionSort (· ≤ ·)).destutter (· ≠ ·)

section Managers

variable {V : Type}

def namespaceKey (vault : V) : Key V := toLex (.inl vault)

def pathKey (F : CaseFolding) (sensitivity : PathCaseSensitivity) (vault : V) (p : VaultPath) :
    Key V :=
  toLex (.inr (toLex (vault, comparisonKey F sensitivity p)))

/-- The entries of `NamespaceLockManager`. -/
def isNamespace (k : Key V) : Bool := (ofLex k).isLeft

/-- The entries of `PathLockManager`. -/
def isPath (k : Key V) : Bool := (ofLex k).isRight

/-- Maybe a Vault's namespace, then paths. -/
structure Request (V : Type) where
  namespaceOf : Option V
  vault : V
  paths : List VaultPath
  sensitivity : PathCaseSensitivity

variable [LinearOrder V] (F : CaseFolding)

def lockKeys (sensitivity : PathCaseSensitivity) (vault : V) (paths : List VaultPath) :
    List (LockKey V) :=
  sortDedup (paths.map fun p => toLex (vault, comparisonKey F sensitivity p))

def Request.groups (r : Request V) : List (LockTable.Group (Key V)) :=
  (r.namespaceOf.toList.map fun vault => ⟨isNamespace, [namespaceKey vault]⟩) ++
    [⟨isPath, (lockKeys F r.sensitivity r.vault r.paths).map fun k => toLex (.inr k)⟩]

end Managers

section Keys

variable {α : Type} [LinearOrder α] {l : List α} {x : α}

theorem mem_sortDedup (hx : x ∈ l) : x ∈ sortDedup l :=
  SortedMap.mem_destutter.mpr ((perm_insertionSort (· ≤ ·) l).mem_iff.mpr hx)

theorem sortDedup_pairwise (l : List α) : (sortDedup l).Pairwise (· < ·) := by
  have hsorted : (sortDedup l).Pairwise (· ≤ ·) :=
    (pairwise_insertionSort (· ≤ ·) l).sublist (destutter_sublist _ _)
  have hle := isChain_iff_getElem.mp hsorted.isChain
  have hne := isChain_iff_getElem.mp
    (isChain_destutter (· ≠ ·) (l.insertionSort (· ≤ ·)))
  refine isChain_iff_pairwise.mp (isChain_iff_getElem.mpr ?_)
  intro i hi
  exact lt_of_le_of_ne (hle i hi) (hne i hi)

end Keys

section Requests

variable {V : Type} [LinearOrder V] {F : CaseFolding}

theorem Request.groups_ordered (r : Request V) :
    ((r.groups F).flatMap LockTable.Group.keys).Pairwise (· < ·) := by
  have hkeys : (lockKeys F r.sensitivity r.vault r.paths).Pairwise (· < ·) := sortDedup_pairwise _
  have hpaths : ((lockKeys F r.sensitivity r.vault r.paths).map
      fun k => (toLex (.inr k) : Key V)).Pairwise (· < ·) :=
    hkeys.map _ fun _ _ h => Sum.Lex.inr_lt_inr_iff.mpr h
  rw [Request.groups, flatMap_append]
  cases r.namespaceOf with
  | none => simpa using hpaths
  | some vault =>
    rw [flatMap_singleton]
    refine pairwise_append.mpr ⟨pairwise_singleton _ _, hpaths, ?_⟩
    intro first hfirst k hk
    obtain rfl : first = namespaceKey vault := by simpa using hfirst
    obtain ⟨k, -, rfl⟩ := mem_map.mp hk
    exact Sum.Lex.inl_lt_inr vault k

/-- The plan of a request. -/
def Request.plan (F : CaseFolding) (r : Request V) : Plan (Key V) := ⟨r.groups F, r.groups_ordered⟩

theorem Request.plan_covers (r : Request V) {p : VaultPath} (hp : p ∈ r.paths) :
    pathKey F r.sensitivity r.vault p ∈ (r.plan F).groups.flatMap LockTable.Group.keys := by
  have hkey : (toLex (r.vault, comparisonKey F r.sensitivity p) : LockKey V) ∈
      lockKeys F r.sensitivity r.vault r.paths :=
    mem_sortDedup (mem_map_of_mem hp)
  refine mem_flatMap.mpr ⟨_, mem_append_right _ mem_cons_self, ?_⟩
  exact mem_map_of_mem hkey

/-- The tasks of a run are those of requests. -/
def Requested (F : CaseFolding) (_ : State (Key V)) (a : Move (Key V)) (_ : State (Key V)) : Prop :=
  ∀ plan, a = .spawn plan → ∃ r : Request V, plan = r.plan F

/-- A task has a guard for a path of a Vault. -/
def Guards (F : CaseFolding) (t : Client (Key V)) (sensitivity : PathCaseSensitivity) (vault : V)
    (p : VaultPath) : Prop :=
  ∃ x ∈ t.held, x.key = pathKey F sensitivity vault p

/-- **PATH LOCKS EXCLUDE AND NEVER DEADLOCK**, however tasks interleave, drop guards and are
    cancelled. -/
theorem path_locks_exclude_and_complete (F : CaseFolding) {s : State (Key V)}
    (h : Reach step (Requested F) empty s) :
    (∀ (i j : Nat) (t u : Client (Key V)) (sensitivity sensitivity' : PathCaseSensitivity)
      (vault vault' : V) (p q : VaultPath), s.tasks[i]? = some t → s.tasks[j]? = some u →
      Guards F t sensitivity vault p → Guards F u sensitivity' vault' q →
      vault = vault' → comparisonKey F sensitivity p = comparisonKey F sensitivity' q → i = j) ∧
    (∀ t ∈ s.tasks, ∀ u ∈ s.tasks, ∀ x ∈ t.refs, ∀ y ∈ u.refs, x.key = y.key → x.mutex = y.mutex) ∧
    (∀ (i : Nat) (t : Client (Key V)), s.tasks[i]? = some t →
      ∃ (as : List (Move (Key V))) (s' : State (Key V)) (t' : Client (Key V)),
      (∀ a ∈ as, a.advances) ∧
      run step s as = some s' ∧ s'.tasks[i]? = some t' ∧ t'.finished ∧
      t'.held.map Ref.key = t.demand) ∧
    (∀ (as : List (Move (Key V))) (s' : State (Key V)),
      (∀ a ∈ as, a.advances) → run step s as = some s' →
      as.length ≤ s.work ∧ ∀ t ∈ s'.tasks, t.finished = false →
        ∃ a : Move (Key V), a.advances ∧ ∃ s'', step s' a = some s'') ∧
    (∀ r : Request V, ∀ p ∈ r.paths, pathKey F r.sensitivity r.vault p ∈
      (⟨[], [], (r.plan F).groups, []⟩ : Client (Key V)).demand) := by
  have hinv := reach_inv h.always
  refine ⟨?_, ?_, ?_, ?_, ?_⟩
  · rintro i j t u sensitivity sensitivity' vault vault' p q ht hu ⟨x, hx, hxkey⟩ ⟨y, hy, hykey⟩
      rfl hsame
    refine hinv.exclusive ht hu hx hy ?_
    rw [hxkey, hykey, pathKey, pathKey, hsame]
  · intro t ht u hu x hx y hy hkey
    exact hinv.one_mutex ht hu hx hy hkey
  · intro i t ht
    exact hinv.can_complete ht
  · intro as s' has hrun
    have hwork := advance_run hrun has
    have hinv' : Inv s' := (Reach.of_run hrun).invariant (fun _ _ _ hi hs _ => step_inv hs hi) hinv
    refine ⟨by omega, ?_⟩
    intro t ht hwait
    exact hinv'.progress ht hwait
  · intro r p hp
    exact r.plan_covers hp

end Requests

/-- It waits for a case variant of the first path. -/
def secondWaits : List (Move (Key Nat)) :=
  [.spawn ((⟨some 0, 0, [⟨['a']⟩, ⟨['A']⟩], .insensitive⟩ : Request Nat).plan asciiFolding),
    .access 0, .lock 0, .access 0, .lock 0,
    .spawn ((⟨none, 0, [⟨['A']⟩], .insensitive⟩ : Request Nat).plan asciiFolding), .access 1]

theorem secondWaits_requested : ∀ a ∈ secondWaits, ∀ s s', Requested asciiFolding s a s' := by
  intro a ha s s' plan hplan
  subst hplan
  simp only [secondWaits, mem_cons, Move.spawn.injEq, reduceCtorEq, not_mem_nil,
    or_false, false_or] at ha
  rcases ha with rfl | rfl
  · exact ⟨_, rfl⟩
  · exact ⟨_, rfl⟩

theorem path_locks_exclude_and_complete_second :
    ∃ s t, Reach step (Requested asciiFolding) empty s ∧ s.tasks[1]? = some t ∧
      t.finished = false ∧ ∃ (as : List (Move (Key Nat))) (s' : State (Key Nat))
        (t' : Client (Key Nat)), run step s as = some s' ∧ s'.tasks[1]? = some t' ∧
        t'.finished ∧ Guards asciiFolding t' .insensitive 0 ⟨['a']⟩ := by
  have hflags : ((run step empty secondWaits).map fun s => s.tasks.map fun t =>
      (t.finished, t.demand)) = some
        [(true, [namespaceKey 0, pathKey asciiFolding .insensitive 0 ⟨['a']⟩]),
          (false, [pathKey asciiFolding .insensitive 0 ⟨['a']⟩])] := by decide
  obtain ⟨s, hrun, htasks⟩ := Option.map_eq_some_iff.mp hflags
  have hreach := Reach.of_run_where secondWaits_requested hrun
  obtain ⟨t, ht, hpair⟩ : ∃ t, s.tasks[1]? = some t ∧ (t.finished, t.demand) =
      (false, [pathKey asciiFolding .insensitive 0 ⟨['a']⟩]) := by
    have hsecond := congrArg (fun l => l[1]?) htasks
    rw [List.getElem?_map] at hsecond
    exact Option.map_eq_some_iff.mp hsecond
  obtain ⟨hwait, hdemand⟩ := Prod.mk.inj hpair
  obtain ⟨-, -, hcomplete, -⟩ := path_locks_exclude_and_complete asciiFolding hreach
  obtain ⟨as, s', t', -, hrun', ht', hfinished, hheld⟩ := hcomplete 1 t ht
  refine ⟨s, t, hreach, ht, hwait, as, s', t', hrun', ht', hfinished, ?_⟩
  have hmem : pathKey asciiFolding .insensitive 0 ⟨['a']⟩ ∈ t'.held.map Ref.key := by
    rw [hheld, hdemand]
    exact mem_singleton_self _
  obtain ⟨x, hx, hkey⟩ := mem_map.mp hmem
  exact ⟨x, hx, hkey⟩

end PathLock
