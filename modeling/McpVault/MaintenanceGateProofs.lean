import McpVault.TransitionProofs

/-! # The maintenance gate — admissions, leases, and an exclusive drain

An admission is check, increment, re-check, and possibly decrement; a lease changes the mode first
and then waits for the counters.  The two race.

Each atomic access and each lock or unlock of the mutex is one step.  An `Activity` is a call in
progress, or a guard or lease held, named after its next `access`; a `Process` is the shared state
and the pool of activities.

The counters are a census of the pool, `maintenance_active` is one of the activities that own
maintenance, and a lease therefore pins the mode. -/

namespace MaintenanceGate

open Transition List Option

/-- Process maintenance mode. -/
inductive MaintenanceMode where
  | normal
  | readOnly
  | offline
  deriving DecidableEq

/-- A read-only operation may proceed. -/
def MaintenanceMode.allowsRead : MaintenanceMode → Bool
  | .offline => false
  | _ => true

/-- A mutation may proceed. -/
def MaintenanceMode.allowsWrite : MaintenanceMode → Bool
  | .normal => true
  | _ => false

/-- The closure `allowed` of `try_start`. -/
def allowed (write : Bool) (mode : MaintenanceMode) : Bool :=
  if write then mode.allowsWrite else mode.allowsRead

/-- The mutex, and the flags of all permit tokens. -/
structure MaintenanceState where
  mode : MaintenanceMode
  (maintenanceActive transition : Bool)
  (activeOperations activeWrites : Nat)
  tokens : List Bool

/-- A lease, with the call that returned it (not stored). -/
structure MaintenanceLease where
  previous : MaintenanceMode
  token : Nat
  target : MaintenanceMode
  deriving DecidableEq

/-- A call or a held value, by its next access. -/
inductive Activity where
  -- `try_start`, from the first mode check to the guard
  | tryStart (write : Bool)
  | countOperation (write : Bool)
  | countWrite
  | recheck (write : Bool)
  | guard (write : Bool)
  -- backing out of `try_start`, and dropping a guard: the same two decrements
  | uncountWrite
  | uncountOperation
  -- `set`
  | setLock (mode : MaintenanceMode)
  | setCheck (mode : MaintenanceMode)
  | setStore (mode : MaintenanceMode)
  | setClear
  -- `try_begin_mode`
  | beginLock (target : MaintenanceMode)
  | beginClaim (target : MaintenanceMode)
  | beginLoad (target : MaintenanceMode)
  | beginSwap (previous target : MaintenanceMode)
  | beginBackOut
  | beginReturn (lease : MaintenanceLease)
  -- a lease held, its `is_drained`, and its holder's `active_writes`
  | lease (lease : MaintenanceLease)
  | drainOperations (lease : MaintenanceLease)
  | drainWrites (lease : MaintenanceLease)
  | drainAnswer (lease : MaintenanceLease) (result : Bool)
  | writesLoad (lease : MaintenanceLease)
  | writesAnswer (lease : MaintenanceLease) (result : Nat)
  -- `restore_to`
  | restoreLock (lease : MaintenanceLease) (mode : MaintenanceMode)
  | restoreStore (lease : MaintenanceLease) (mode : MaintenanceMode)
  | restoreClear (lease : MaintenanceLease)
  -- `Drop for MaintenanceLease`
  | dropLock (lease : MaintenanceLease)
  | dropClear (lease : MaintenanceLease)
  -- the token store that ends both `restore_to` and the drop
  | revoke (lease : MaintenanceLease)
  -- leaving the critical section with nothing in hand
  | unlock
  | done
  deriving DecidableEq

/-- `fetch_sub(1)` on a 64-bit counter wraps at zero. -/
def fetchSub (n : Nat) : Nat := if n = 0 then 2 ^ 64 - 1 else n - 1

/-- `try_begin_mode` after `compare_exchange`. -/
def newLease (s : MaintenanceState) (previous target : MaintenanceMode) :
    MaintenanceState × Activity :=
  ({ s with tokens := s.tokens ++ [true] }, .beginReturn ⟨previous, s.tokens.length, target⟩)

/-- The next atomic access; `none` if it has to wait. -/
def access (s : MaintenanceState) : Activity → Option (MaintenanceState × Activity)
  | .tryStart write =>
    if allowed write s.mode then some (s, .countOperation write)
    else some (s, .done)
  | .countOperation true =>
    some ({ s with activeOperations := s.activeOperations + 1 }, .countWrite)
  | .countOperation false =>
    some ({ s with activeOperations := s.activeOperations + 1 }, .recheck false)
  | .countWrite =>
    some ({ s with activeWrites := s.activeWrites + 1 }, .recheck true)
  | .recheck write =>
    if allowed write s.mode then some (s, .guard write)
    else if write then some (s, .uncountWrite)
    else some (s, .uncountOperation)
  | .guard _ => none
  | .uncountWrite =>
    some ({ s with activeWrites := fetchSub s.activeWrites }, .uncountOperation)
  | .uncountOperation =>
    some ({ s with activeOperations := fetchSub s.activeOperations }, .done)
  | .setLock mode =>
    if s.transition then none
    else some ({ s with transition := true }, .setCheck mode)
  | .setCheck mode =>
    if s.maintenanceActive ∧ mode ≠ .offline then some (s, .unlock)
    else some (s, .setStore mode)
  | .setStore mode =>
    if mode ≠ .offline then some ({ s with mode }, .setClear)
    else some ({ s with mode }, .unlock)
  | .setClear => some ({ s with maintenanceActive := false }, .unlock)
  | .beginLock target =>
    if s.transition then none
    else some ({ s with transition := true }, .beginClaim target)
  | .beginClaim target =>
    -- compare_exchange(false, true)
    if s.maintenanceActive then some (s, .unlock)
    else some ({ s with maintenanceActive := true }, .beginLoad target)
  | .beginLoad target =>
    if s.mode = .offline ∧ target ≠ .offline then some (s, .beginBackOut)
    else if s.mode ≠ target then some (s, .beginSwap s.mode target)
    else some (newLease s s.mode target)
  | .beginSwap previous target =>
    -- compare_exchange(previous, target)
    if s.mode = previous then
      some (newLease { s with mode := target } previous target)
    else some (s, .beginBackOut)
  | .beginBackOut => some ({ s with maintenanceActive := false }, .unlock)
  | .beginReturn lease => some ({ s with transition := false }, .lease lease)
  | .lease _ => none
  | .drainOperations lease =>
    if s.activeOperations = 0 then some (s, .drainWrites lease)
    else some (s, .drainAnswer lease false)
  | .drainWrites lease =>
    if s.activeWrites = 0 then some (s, .drainAnswer lease true)
    else some (s, .drainAnswer lease false)
  | .drainAnswer lease _ => some (s, .lease lease)
  | .writesLoad lease => some (s, .writesAnswer lease s.activeWrites)
  | .writesAnswer lease _ => some (s, .lease lease)
  | .restoreLock lease mode =>
    if s.transition then none
    else some ({ s with transition := true }, .restoreStore lease mode)
  | .restoreStore lease mode =>
    some ({ s with mode }, .restoreClear lease)
  | .restoreClear lease =>
    some ({ s with maintenanceActive := false }, .revoke lease)
  | .dropLock lease =>
    if s.transition then none
    else some ({ s with transition := true }, .dropClear lease)
  | .dropClear lease =>
    some ({ s with maintenanceActive := false }, .revoke lease)
  | .revoke lease =>
    some ({ s with tokens := s.tokens.set lease.token false }, .unlock)
  | .unlock => some ({ s with transition := false }, .done)
  | .done => none

/-- The calls any thread may start on the gate. -/
inductive Call where
  | tryStartOperation
  | tryStartWrite
  | set (mode : MaintenanceMode)
  | tryBeginOffline
  | tryBeginReadOnly

/-- The activity a call starts as. -/
def Call.start : Call → Activity
  | .tryStartOperation => .tryStart false
  | .tryStartWrite => .tryStart true
  | .set mode => .setLock mode
  | .tryBeginOffline => .beginLock .offline
  | .tryBeginReadOnly => .beginLock .readOnly

/-- What a holder may do with its value. -/
inductive Use where
  | drop
  | isDrained
  | activeWrites
  | restore
  | restoreTo (mode : MaintenanceMode)
  deriving DecidableEq

/-- What a held value becomes, once. -/
def enter : Activity → Use → Option Activity
  | .guard true, .drop => some .uncountWrite
  | .guard false, .drop => some .uncountOperation
  | .lease lease, .drop => some (.dropLock lease)
  | .lease lease, .isDrained => some (.drainOperations lease)
  | .lease lease, .activeWrites => some (.writesLoad lease)
  | .lease lease, .restore => some (.restoreLock lease lease.previous)
  | .lease lease, .restoreTo mode => some (.restoreLock lease mode)
  | _, _ => none

/-- The gate together with every activity on it. -/
structure Process where
  gate : MaintenanceState
  pool : List Activity

/-- A scheduling decision. -/
inductive Move where
  | call (c : Call)
  | use (i : Nat) (u : Use)
  | access (i : Nat)

/-- One step of the process. -/
def step (p : Process) : Move → Option Process
  | .call c => some { p with pool := p.pool ++ [c.start] }
  | .use i u => do
    let a ← p.pool[i]?
    let a' ← enter a u
    pure { p with pool := p.pool.set i a' }
  | .access i => do
    let a ← p.pool[i]?
    let (gate, a') ← access p.gate a
    pure { gate, pool := p.pool.set i a' }

/-- `MaintenanceGate::new`, before any call. -/
def new : Process :=
  ⟨⟨.normal, false, false, 0, 0, []⟩, []⟩

/-! ## The censuses: which activities count as what -/

/-- Those with an increment of `active_operations`. -/
def countsOperation : Activity → Bool
  | .countWrite | .recheck _ | .guard _ | .uncountWrite | .uncountOperation =>
    true
  | _ => false

/-- Those with an increment of `active_writes`. -/
def countsWrite : Activity → Bool
  | .recheck write | .guard write => write
  | .uncountWrite => true
  | _ => false

/-- Those inside the `transition` section. -/
def inTransition : Activity → Bool
  | .setCheck _ | .setStore _ | .setClear | .beginClaim _ | .beginLoad _
  | .beginSwap _ _ | .beginBackOut | .beginReturn _ | .restoreStore _ _
  | .restoreClear _ | .dropClear _ | .revoke _ | .unlock => true
  | _ => false

/-- Those that have set `maintenance_active`. -/
def ownsMaintenance : Activity → Bool
  | .beginLoad _ | .beginSwap _ _ | .beginBackOut | .beginReturn _ | .lease _
  | .drainOperations _ | .drainWrites _ | .drainAnswer _ _ | .writesLoad _
  | .writesAnswer _ _ | .restoreLock _ _ | .restoreStore _ _
  | .restoreClear _ | .dropLock _ | .dropClear _ => true
  | _ => false

/-- Those that rely on the flag being clear. -/
def needsInactive : Activity → Bool
  | .setStore mode => decide (mode ≠ .offline)
  | .setClear | .revoke _ => true
  | _ => false

/-- The unreleased lease an activity holds, if any. -/
def heldLease : Activity → Option MaintenanceLease
  | .beginReturn lease | .lease lease | .drainOperations lease
  | .drainWrites lease | .drainAnswer lease _ | .writesLoad lease
  | .writesAnswer lease _ | .restoreLock lease _ | .restoreStore lease _
  | .restoreClear lease | .dropLock lease | .dropClear lease
  | .revoke lease => some lease
  | _ => none

/-- The mode a lease holds the gate in. -/
def pins : Activity → Option MaintenanceMode
  | .restoreClear _ | .revoke _ => none
  | a => (heldLease a).map (·.target)

/-- Those that read a counter as zero in its mode. -/
def seals (write : Bool) : Activity → Bool
  | .drainWrites lease | .drainAnswer lease true => !allowed write lease.target
  | .writesAnswer lease n =>
    write && decide (n = 0) && !allowed write lease.target
  | _ => false

/-- Whether the activity is an operation guard. -/
def isGuard : Activity → Bool
  | .guard _ => true
  | _ => false

/-- Whether the activity is a write guard. -/
def isWriteGuard : Activity → Bool
  | .guard write => write
  | _ => false

/-! ## What one activity can do -/

/-- **WHAT A MOVE CAN DO** to the shared state. -/
structure Effect (s : MaintenanceState) (a : Activity) (s' : MaintenanceState)
    (a' : Activity) : Prop where
  operations : (countsOperation a → 0 < s.activeOperations) →
    s'.activeOperations + (countsOperation a).toNat =
      s.activeOperations + (countsOperation a').toNat
  writes : (countsWrite a → 0 < s.activeWrites) → s'.activeWrites + (countsWrite a).toNat =
      s.activeWrites + (countsWrite a').toNat
  transition : (inTransition a → s.transition) →
    s'.transition.toNat + (inTransition a).toNat = s.transition.toNat + (inTransition a').toNat
  owner : (ownsMaintenance a → s.maintenanceActive) →
    (needsInactive a → s.maintenanceActive = false) →
    s'.maintenanceActive.toNat + (ownsMaintenance a).toNat =
      s.maintenanceActive.toNat + (ownsMaintenance a').toNat
  inactive : needsInactive a' → (needsInactive a → s.maintenanceActive = false) →
    s'.maintenanceActive = false
  active_frame : s'.maintenanceActive ≠ s.maintenanceActive → inTransition a
  mode_frame : s'.mode ≠ s.mode → s'.mode = .offline ∨
    ownsMaintenance a ∨ needsInactive a
  pin : ∀ t, pins a' = some t → (pins a = some t → s.mode = t ∨ s.mode = .offline) →
    s'.mode = t ∨ s'.mode = .offline
  guarded : ∀ write, a' = .guard write → allowed write s.mode
  sealing : ∀ write, seals write a' → seals write a ∨
    s.activeOperations = 0 ∨ (write ∧ s.activeWrites = 0)

theorem fetchSub_of_pos {n : Nat} (h : 0 < n) : fetchSub n + 1 = n := by
  unfold fetchSub
  rw [if_neg (Nat.pos_iff_ne_zero.mp h)]
  omega

section Effects

variable {s s' : MaintenanceState} {a a' : Activity}

/-- Each atomic access has an effect of that kind. -/
theorem access_effect (h : access s a = some (s', a')) : Effect s a s' a' := by
  revert h
  -- one case per branch of `access`, then one per field of `Effect`
  fun_cases access s a <;> intro h <;> cases h <;> constructor
  all_goals
    simp_all [countsOperation, countsWrite, inTransition, ownsMaintenance,
      needsInactive, pins, heldLease, seals, fetchSub_of_pos]
  -- what is left is `set` having seen `maintenance_active` clear
  intro hmode
  cases hact : s.maintenanceActive with
  | false => rfl
  | true => exact absurd (‹s.maintenanceActive → _› hact) hmode

/-- So has a holder acting: nothing shared changes. -/
theorem enter_effect {u : Use} (h : enter a u = some a') : Effect s a s a' := by
  revert h
  fun_cases enter a u <;> intro h <;> cases h <;> constructor
  all_goals
    simp_all [countsOperation, countsWrite, inTransition, ownsMaintenance,
      needsInactive, pins, heldLease, seals]

/-- So has a call in the place of a finished one. -/
theorem start_effect (c : Call) : Effect s .done s c.start := by
  cases c <;> constructor
  all_goals
    simp [Call.start, countsOperation, countsWrite, inTransition,
      ownsMaintenance, needsInactive, pins, heldLease, seals]

end Effects

/-! ## The invariant of the pool -/

/-- What holds between the shared state and the pool. -/
structure Inv (p : Process) : Prop where
  operations : p.gate.activeOperations = p.pool.countP countsOperation
  writes : p.gate.activeWrites = p.pool.countP countsWrite
  transition : p.gate.transition.toNat = p.pool.countP inTransition
  owner : p.gate.maintenanceActive.toNat = p.pool.countP ownsMaintenance
  inactive : ∀ a ∈ p.pool, needsInactive a → p.gate.maintenanceActive = false
  pinned : ∀ a ∈ p.pool, ∀ t, pins a = some t → p.gate.mode = t ∨ p.gate.mode = .offline
  sealed : ∀ a ∈ p.pool, ∀ write, seals write a → Activity.guard write ∉ p.pool

theorem new_inv : Inv new where
  operations := rfl
  writes := rfl
  transition := rfl
  owner := rfl
  inactive := nofun
  pinned := nofun
  sealed := nofun

variable {a : Activity} {write : Bool} {m : Move} {p p' : Process}

/-- A finished call changes nothing. -/
theorem Inv.done (h : Inv p) : Inv { p with pool := p.pool ++ [.done] } where
  operations := by rw [h.operations, countP_append]; rfl
  writes := by rw [h.writes, countP_append]; rfl
  transition := by rw [h.transition, countP_append]; rfl
  owner := by rw [h.owner, countP_append]; rfl
  inactive := by
    intro a ha hn
    rcases mem_append.mp ha with ha | ha
    · exact h.inactive a ha hn
    · cases mem_singleton.mp ha
      cases hn
  pinned := by
    intro a ha t ht
    rcases mem_append.mp ha with ha | ha
    · exact h.pinned a ha t ht
    · cases mem_singleton.mp ha
      cases ht
  sealed := by
    intro a ha write hs hg
    have hg' : Activity.guard write ∈ p.pool := by
      rcases mem_append.mp hg with hg | hg
      · exact hg
      · cases mem_singleton.mp hg
    rcases mem_append.mp ha with ha | ha
    · exact h.sealed a ha write hs hg'
    · cases mem_singleton.mp ha
      cases hs

theorem needsInactive_inTransition (h : needsInactive a) : inTransition a := by
  cases a <;> first | rfl | exact nomatch h

theorem pins_owns {t : MaintenanceMode} (h : pins a = some t) : ownsMaintenance a := by
  cases a <;> first | rfl | exact nomatch h

theorem seals_pins (h : seals write a) : ∃ t, pins a = some t ∧ allowed write t = false := by
  revert h
  fun_cases seals write a <;> intro h
  · exact ⟨_, rfl, Bool.not_eq_true' _ ▸ h⟩
  · exact ⟨_, rfl, Bool.not_eq_true' _ ▸ h⟩
  · exact ⟨_, rfl, Bool.not_eq_true' _ ▸ (Bool.and_eq_true_iff.mp h).2⟩
  · cases h

theorem allowed_offline (write : Bool) : allowed write .offline = false := by
  cases write <;> rfl

/-- A drained lease pins a mode that admits no guard. -/
theorem Inv.not_allowed (h : Inv p) (ha : a ∈ p.pool) (hs : seals write a) :
    allowed write p.gate.mode = false := by
  obtain ⟨t, ht, hallow⟩ := seals_pins hs
  rcases h.pinned a ha t ht with hm | hm
  · rw [hm]; exact hallow
  · rw [hm]; exact allowed_offline write

section Move

variable {s s' : MaintenanceState} {a a' : Activity} {l r : List Activity}
  {b : Activity} {p : Process}

theorem Inv.pos_of_counted (h : Inv p) (hb : b ∈ p.pool) :
    (countsOperation b → 0 < p.gate.activeOperations) ∧
      (countsWrite b → 0 < p.gate.activeWrites) := by
  rw [h.operations, h.writes]
  exact ⟨fun hc => countP_pos_iff.mpr ⟨b, hb, hc⟩, fun hc => countP_pos_iff.mpr ⟨b, hb, hc⟩⟩

/-- Inside the mutex, an activity is the only one there. -/
theorem Inv.alone_inTransition (h : Inv ⟨s, l ++ a :: r⟩) (ha : inTransition a)
    (hb : b ∈ l ++ r) : inTransition b = false := by
  refine alone_of_countP_le_one ?_ ha hb
  have ht := h.transition
  have hle := Bool.toNat_le s.transition
  exact ht ▸ hle

/-- The owner of maintenance is its only owner. -/
theorem Inv.alone_owner (h : Inv ⟨s, l ++ a :: r⟩) (ha : ownsMaintenance a)
    (hb : b ∈ l ++ r) : ownsMaintenance b = false := by
  refine alone_of_countP_le_one ?_ ha hb
  have ht := h.owner
  have hle := Bool.toNat_le s.maintenanceActive
  exact ht ▸ hle

/-- With `maintenance_active` clear there is no owner. -/
theorem Inv.no_owner (h : Inv p) (hact : p.gate.maintenanceActive = false) (hb : b ∈ p.pool) :
    ownsMaintenance b = false := by
  refine not_of_countP_eq_zero ?_ hb
  rw [← h.owner, hact]
  rfl

/-- **ONE MOVE KEEPS THE INVARIANT.** -/
theorem Inv.move (h : Inv ⟨s, l ++ a :: r⟩) (e : Effect s a s' a') : Inv ⟨s', l ++ a' :: r⟩ := by
  have ha : a ∈ l ++ a :: r := mem_pool.mpr (.inl rfl)
  have hrest : ∀ {b}, b ∈ l ++ r → b ∈ l ++ a :: r :=
    fun hb => mem_pool.mpr (.inr hb)
  have hown : ownsMaintenance a → s.maintenanceActive := by
    intro hc
    cases hact : s.maintenanceActive with
    | true => rfl
    | false => exact absurd hc (by rw [h.no_owner hact ha]; exact Bool.false_ne_true)
  refine ⟨census_move h.operations e.operations, census_move h.writes e.writes,
    census_move h.transition ?_, census_move h.owner ?_, ?_, ?_, ?_⟩
  · intro hpos
    refine e.transition fun hc => ?_
    cases ht : s.transition with
    | true => rfl
    | false => exact absurd (hpos hc) (by rw [ht]; exact Nat.lt_irrefl 0)
  · intro _
    exact e.owner hown (h.inactive a ha)
  · intro b hb hn
    rcases mem_pool.mp hb with rfl | hb
    · exact e.inactive hn (h.inactive a ha)
    · have hclear := h.inactive b (hrest hb) hn
      by_cases heq : s'.maintenanceActive = s.maintenanceActive
      · exact heq.trans hclear
      · -- only the mutex holder writes the flag, and `b` is that holder
        have hno := h.alone_inTransition (e.active_frame heq) hb
        rw [needsInactive_inTransition hn] at hno
        cases hno
  · intro b hb t ht
    rcases mem_pool.mp hb with rfl | hb
    · exact e.pin t ht (h.pinned a ha t)
    · have hpin := h.pinned b (hrest hb) t ht
      by_cases heq : s'.mode = s.mode
      · show s'.mode = t ∨ s'.mode = .offline
        rw [heq]
        exact hpin
      · rcases e.mode_frame heq with hm | hm | hm
        · exact .inr hm
        · have hno := h.alone_owner hm hb
          rw [pins_owns ht] at hno
          cases hno
        · have hno := h.no_owner (h.inactive a ha hm) (hrest hb)
          rw [pins_owns ht] at hno
          cases hno
  · intro b hb write hs hg
    rcases mem_pool.mp hb with rfl | hb
    · rcases mem_pool.mp hg with rfl | hg
      · cases hs
      · have hpos := h.pos_of_counted (hrest hg)
        rcases e.sealing write hs with hs | hzero | ⟨hw, hzero⟩
        · exact h.sealed a ha write hs (hrest hg)
        · exact absurd (hpos.1 rfl) (by rw [hzero]; exact Nat.lt_irrefl 0)
        · exact absurd (hpos.2 hw) (by rw [hzero]; exact Nat.lt_irrefl 0)
    · rcases mem_pool.mp hg with hg | hg
      · have hno : allowed write s.mode = false := h.not_allowed (hrest hb) hs
        rw [e.guarded write hg.symm] at hno
        cases hno
      · exact h.sealed b (hrest hb) write hs (hrest hg)

end Move

/-! ## Whole runs -/

/-- One activity moves, or a call starts. -/
theorem step_shape (h : step p m = some p') :
    ∃ l r a a', Effect p.gate a p'.gate a' ∧ p'.pool = l ++ a' :: r ∧
      (p.pool = l ++ a :: r ∨ (a = .done ∧ p.pool = l ∧ r = [])) := by
  cases m with
  | call c =>
    cases h
    exact ⟨p.pool, [], .done, c.start, start_effect c, rfl, .inr ⟨rfl, rfl, rfl⟩⟩
  | use i u =>
    obtain ⟨a, ha, h⟩ := bind_eq_some_iff.mp h
    obtain ⟨a', ha', h⟩ := bind_eq_some_iff.mp h
    cases h
    obtain ⟨l, r, hpool, hset⟩ := pool_split ha
    exact ⟨l, r, a, a', enter_effect ha', hset a', .inl hpool⟩
  | access i =>
    obtain ⟨a, ha, h⟩ := bind_eq_some_iff.mp h
    obtain ⟨⟨gate, a'⟩, ha', h⟩ := bind_eq_some_iff.mp h
    cases h
    obtain ⟨l, r, hpool, hset⟩ := pool_split ha
    exact ⟨l, r, a, a', access_effect ha', hset a', .inl hpool⟩

theorem step_inv (h : Inv p) (hstep : step p m = some p') : Inv p' := by
  obtain ⟨l, r, a, a', e, hpool', hpool⟩ := step_shape hstep
  have hbefore : Inv ⟨p.gate, l ++ a :: r⟩ := by
    rcases hpool with hpool | ⟨rfl, rfl, rfl⟩
    · rw [← hpool]; exact h
    · exact h.done
  have hafter : Inv ⟨p'.gate, l ++ a' :: r⟩ := hbefore.move e
  rw [← hpool'] at hafter
  exact hafter

theorem reach_inv (h : Reach step Always new p) : Inv p :=
  h.invariant (fun _ _ _ hp hs _ => step_inv hp hs) new_inv

/-- The mode is the same before and after the step. -/
def ModeKept : Process → Move → Process → Prop :=
  fun p _ p' => p'.gate.mode = p.gate.mode

/-- A mode without guards hands none out. -/
theorem step_no_guard (h : allowed write p.gate.mode = false ∧ Activity.guard write ∉ p.pool)
    (hstep : step p m = some p') (hmode : ModeKept p m p') :
    allowed write p'.gate.mode = false ∧ Activity.guard write ∉ p'.pool := by
  obtain ⟨l, r, a, a', e, hpool', hpool⟩ := step_shape hstep
  have hkept : p'.gate.mode = p.gate.mode := hmode
  refine ⟨by rw [hkept]; exact h.1, ?_⟩
  intro hg
  rw [hpool'] at hg
  rcases mem_pool.mp hg with hg | hg
  · have hno := h.1
    rw [e.guarded write hg.symm] at hno
    cases hno
  · refine h.2 ?_
    rcases hpool with hpool | ⟨_, rfl, rfl⟩
    · rw [hpool]; exact mem_pool.mpr (.inr hg)
    · rw [append_nil] at hg; exact hg

/-- A drained lease keeps its promise in its mode. -/
theorem sealed_until_mode_changes (h : Inv p) (ha : a ∈ p.pool) (hs : seals write a)
    (hrun : Reach step ModeKept p p') : Activity.guard write ∉ p'.pool :=
  (hrun.invariant (fun _ _ _ hp hstep hm => step_no_guard hp hstep hm)
    ⟨h.not_allowed ha hs, h.sealed a ha write hs⟩).2

/-- Such a lease owns maintenance, or is being revoked. -/
theorem heldLease_owns (h : (heldLease a).isSome) : ownsMaintenance a ∨
      (needsInactive a ∧ inTransition a) := by
  cases a <;> first | exact .inl rfl | exact .inr ⟨rfl, rfl⟩ | exact nomatch h

/-- At most one unreleased lease exists. -/
theorem Inv.lease_unique (h : Inv p) : p.pool.countP (fun a => (heldLease a).isSome) ≤ 1 := by
  cases hact : p.gate.maintenanceActive with
  | true =>
    have hle := countP_mono_left (l := p.pool)
      (p := fun a => (heldLease a).isSome) (q := ownsMaintenance) ?_
    · rw [← h.owner, hact] at hle
      exact hle
    · intro a ha hl
      rcases heldLease_owns hl with howns | ⟨hn, _⟩
      · exact howns
      · -- a lease being revoked has cleared the flag
        have hclear := h.inactive a ha hn
        rw [hact] at hclear
        cases hclear
  | false =>
    have hle := countP_mono_left (l := p.pool)
      (p := fun a => (heldLease a).isSome) (q := inTransition) ?_
    · rw [← h.transition] at hle
      exact Nat.le_trans hle (Bool.toNat_le _)
    · intro a ha hl
      rcases heldLease_owns hl with howns | ⟨_, hin⟩
      · have hno := h.no_owner hact ha
        rw [howns] at hno
        cases hno
      · exact hin

theorem Inv.guards_counted (h : Inv p) : p.pool.countP isGuard ≤ p.gate.activeOperations ∧
      p.pool.countP isWriteGuard ≤ p.gate.activeWrites := by
  rw [h.operations, h.writes]
  constructor
  · refine countP_mono_left fun a _ hg => ?_
    cases a <;> first | rfl | exact nomatch hg
  · refine countP_mono_left fun a _ hg => ?_
    cases a <;> first | exact hg | exact nomatch hg

/-- **THE DRAIN IS EXCLUSIVE**: counters cover the guards, at most one lease is unreleased, and
    a counter that it reads as zero stays so until the mode changes. -/
theorem maintenance_drain_exclusive {p : Process} (h : Reach step Always new p) :
    (p.pool.countP isGuard ≤ p.gate.activeOperations ∧
      p.pool.countP isWriteGuard ≤ p.gate.activeWrites) ∧
    ((Activity.uncountOperation ∈ p.pool → 0 < p.gate.activeOperations) ∧
      (Activity.uncountWrite ∈ p.pool → 0 < p.gate.activeWrites)) ∧
    p.pool.countP (fun a => (heldLease a).isSome) ≤ 1 ∧
    (∀ lease, Activity.drainAnswer lease true ∈ p.pool → lease.target = .offline →
      ∀ p', Reach step ModeKept p p' →
      ∀ write, Activity.guard write ∉ p'.pool) ∧
    (∀ lease, (Activity.writesAnswer lease 0 ∈ p.pool ∨ Activity.drainAnswer lease true ∈ p.pool) →
      lease.target = .readOnly →
      ∀ p', Reach step ModeKept p p' → Activity.guard true ∉ p'.pool) := by
  have hinv := reach_inv h
  refine ⟨hinv.guards_counted, ⟨fun ha => (hinv.pos_of_counted ha).1 rfl,
    fun ha => (hinv.pos_of_counted ha).2 rfl⟩, hinv.lease_unique, ?_, ?_⟩
  · intro lease ha ht p' hrun write
    refine sealed_until_mode_changes hinv ha ?_ hrun
    show (!allowed write lease.target)
    rw [ht, allowed_offline]
    rfl
  · intro lease ha ht p' hrun
    have hseal : (!allowed true lease.target) := by rw [ht]; rfl
    rcases ha with ha | ha
    · exact sealed_until_mode_changes hinv ha hseal hrun
    · exact sealed_until_mode_changes hinv ha hseal hrun

/-- An admitted writer is drained by its drop. -/
theorem maintenance_drain_exclusive_after_writer :
    ∃ p lease, Reach step Always new p ∧ lease.target = .offline ∧
      Activity.drainAnswer lease true ∈ p.pool ∧
      ∀ p', Reach step ModeKept p p' →
      ∀ write, Activity.guard write ∉ p'.pool := by
  have hrun : Reach step Always new _ := Reach.of_run (show run step new
    [.call .tryStartWrite, .access 0, .access 0, .access 0, .access 0,
      .call .tryBeginOffline, .access 1, .access 1, .access 1, .access 1,
      .access 1, .use 0 .drop, .access 0, .access 0, .use 1 .isDrained,
      .access 1, .access 1] = some _ from rfl)
  exact ⟨_, ⟨.normal, 0, .offline⟩, hrun, rfl, by decide,
    (maintenance_drain_exclusive hrun).2.2.2.1 ⟨.normal, 0, .offline⟩
      (by decide) rfl⟩

/-- **NO LEAK**: in the end both counters are zero. -/
theorem counters_return {p : Process} (h : Reach step Always new p) (hdone : ∀ a ∈ p.pool, a = .done) :
    p.gate.activeOperations = 0 ∧ p.gate.activeWrites = 0 ∧
      p.gate.transition = false ∧ p.gate.maintenanceActive = false := by
  have hinv := reach_inv h
  have hzero : ∀ f : Activity → Bool, f .done = false → p.pool.countP f = 0 := by
    intro f hf
    exact countP_eq_zero.mpr fun a ha => by simp [hdone a ha, hf]
  refine ⟨?_, ?_, ?_, ?_⟩
  · rw [hinv.operations, hzero _ rfl]
  · rw [hinv.writes, hzero _ rfl]
  · simpa using hinv.transition.trans (hzero _ rfl)
  · simpa using hinv.owner.trans (hzero _ rfl)

theorem counters_return_write : ∃ p : Process, p.pool = [.done] ∧ p.gate.activeWrites = 0 := by
  have hrun : run step new [.call .tryStartWrite, .access 0, .access 0, .access 0, .access 0,
    .use 0 .drop, .access 0, .access 0] = some _ := rfl
  exact ⟨_, rfl, (counters_return (Reach.of_run hrun) (by decide)).2.1⟩

end MaintenanceGate
