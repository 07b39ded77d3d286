import McpVault.JobQueueProofs
import McpVault.MaintenanceGateProofs

/-! # The job worker — one loop, its tasks, and the leases under them

The loop claims a batch, spawns a task for each job that may run, and persists the results it joins.
A task waits for maintenance to end, then starts its handler with a monitor that renews the lease.

All share one worker id, so a job has one task only because its lease is running whenever the
loop claims.  Nothing renews it before the handler starts or after it returns: `Timely` says that
those times are short, and under it `Inv` is an invariant. -/

namespace JobWorker

open Transition SqlTable VaultDomain JobQueue MaintenanceGate List Option
open Fallible (bind_ok_iff map_fst_ok)
open PlainText (startsWith)

/-- Durations in milliseconds. -/
structure WorkerConfig where
  (pollInterval leaseDuration batchSize concurrency : Nat)

def WorkerConfig.monitorInterval (c : WorkerConfig) : Nat :=
  min c.pollInterval (c.leaseDuration / 3)

inductive JobOutcome where
  | complete
  | deferred (delay : Nat) (code : String)
  | retry (delay : Nat) (code : String)
  | failed (code : String)
  | cancelled
  deriving DecidableEq

/-- Where a task is; `due` is the monitor's wake-up. -/
inductive Phase where
  | waiting
  | running (due : Option Int)
  | finished (outcome : Option JobOutcome)
  deriving DecidableEq

structure JobTask where
  job : JobRow
  phase : Phase

/-- Head, claim, spawning, persisting, or gone. -/
inductive Loop where
  | top
  | claiming (now : Int)
  | spawning (jobs : List JobRow)
  | persisting (job : JobRow) (outcome : Option JobOutcome)
  | stopped
  deriving DecidableEq

/-- A finished task stays in `tasks` until joined. -/
structure Worker where
  store : Store
  now : Int
  mode : MaintenanceMode
  shutdown : Bool
  loop : Loop
  tasks : List JobTask

/-! ## What the loop does with a claimed job -/

inductive VaultAvailability where
  | initializing
  | ready
  | maintenance
  | disabled
  | error

/-- `find_by_id`, then `availability`; both may fail. -/
inductive VaultLookup where
  | failed
  | missing
  | found (availability : Option VaultAvailability)

/-- What the loop reads outside the job table. -/
structure Surroundings where
  vault : VaultId → VaultLookup
  currentGeneration : String → Bool
  handlers : List String

inductive Disposition where
  | cancel
  | fail (error : String)
  | release (delay : Nat)
  | spawn
  deriving DecidableEq

def isRetiredAutomaticMemoryJob (jobType : String) : Bool := startsWith "memory." jobType.toList

/-- What to do if the Vault is not ready. -/
def unavailable (e : Surroundings) (job : JobRow) : Option Disposition :=
  match job.vaultId with
  | none => none
  | some vaultId =>
    match e.vault vaultId with
    | .missing => some (.fail "job_vault_missing")
    | .failed => some (.release 5000)
    | .found (some .ready) => none
    | .found (some .initializing) =>
      if job.jobType = "vault.initialize" then none else some (.release 60000)
    | .found (some .disabled) => some .cancel
    | .found (some .maintenance) => some (.release 10000)
    | .found (some .error) | .found none => some (.release 60000)

/-- The checks of `spawn_claimed_jobs`, in their order. -/
def disposition (c : WorkerConfig) (e : Surroundings) (job : JobRow) : Disposition :=
  if isRetiredAutomaticMemoryJob job.jobType then .cancel
  else
    match unavailable e job with
    | some d => d
    | none =>
      if startsWith "memory." job.jobType.toList ∧ ¬ e.currentGeneration job.payloadJson then .cancel
      else if job.jobType ∉ e.handlers then .release c.pollInterval
      else if job.cancelRequested then .cancel
      else .spawn

/-- `let _ =`: a failing call changes nothing. -/
def ignoring (s : Store) : Except StateError Store → Store
  | .ok s' => s'
  | .error _ => s

def dispose (worker : String) (now : Int) (s : Store) (id : JobId) : Disposition → Store
  | .cancel => ignoring s (cancelClaimed s id worker now)
  | .fail error => ignoring s (failPermanently s id worker error now)
  | .release delay => ignoring s (releaseClaimed s id worker (now + delay) now)
  | .spawn => s

/-- `persist_job_task_result`. -/
def persistJobTaskResult (worker : String) (now : Int) (s : Store) (id : JobId) :
    Option JobOutcome → Store
  | none => s
  | some .complete => ignoring s (complete s id worker now)
  | some (.deferred delay _) => ignoring s (releaseClaimed s id worker (now + delay) now)
  | some (.retry delay code) =>
    ignoring s (Prod.fst <$> retryOrFail s id worker (now + delay) code now)
  | some (.failed code) => ignoring s (failPermanently s id worker code now)
  | some .cancelled => ignoring s (cancelClaimed s id worker now)

/-! ## The task -/

def isBackup (job : JobRow) : Bool := startsWith "backup." job.jobType.toList

/-- Losing the lease also reports `true`. -/
def shouldCancelClaimed (s : Store) (id : JobId) (worker : String) : Except StateError Bool := do
  validateWorker worker
  pure (match s.jobs.rows.find? (owned id worker) with
    | none => true
    | some r => r.cancelRequested)

inductive TaskMove where
  | start
  | interrupt
  | renew
  | stopMonitor
  | finish (outcome : JobOutcome)

/-- What a handler's return becomes. -/
def taskOutcome (worker : String) (w : Worker) (job : JobRow) (outcome : JobOutcome) :
    Option JobOutcome :=
  let lost := match shouldCancelClaimed w.store job.id worker with
    | .ok lost => lost
    | .error _ => false
  if w.shutdown then none
  else if !isBackup job && lost then some .cancelled
  else some outcome

/-- One round of the monitor.  Only `Ok(true)` ends it. -/
def renew (c : WorkerConfig) (worker : String) (w : Worker) (job : JobRow) : Store × Phase :=
  match renewClaimed w.store job.id worker (w.now + c.leaseDuration) w.now with
  | .ok (s, true) => (s, .running none)
  | .ok (s, false) => (s, .running (some (w.now + c.monitorInterval)))
  | .error _ => (w.store, .running (some (w.now + c.monitorInterval)))

/-- The body of a spawned task, with its monitor. -/
def taskStep (c : WorkerConfig) (worker : String) (w : Worker) (t : JobTask) :
    TaskMove → Option (Store × Phase)
  | .start =>
    if t.phase = .waiting ∧ (isBackup t.job || w.mode.allowsWrite) then
      some (w.store, .running (some (w.now + c.monitorInterval)))
    else none
  | .interrupt =>
    if t.phase = .waiting ∧ !isBackup t.job ∧ w.shutdown then some (w.store, .finished none)
    else none
  | .renew =>
    match t.phase with
    | .running (some due) => if due ≤ w.now then some (renew c worker w t.job) else none
    | _ => none
  | .stopMonitor =>
    match t.phase with
    | .running (some _) => if w.shutdown then some (w.store, .running none) else none
    | _ => none
  | .finish outcome =>
    match t.phase with
    | .running _ => some (w.store, .finished (taskOutcome worker w t.job outcome))
    | _ => none

/-! ## The process -/

/-- The clock, the mode, the loop or a task moves. -/
inductive Move where
  | advance (elapsed : Nat)
  | setMode (mode : MaintenanceMode)
  | shutdown
  | read
  | claim
  | dispatch (e : Surroundings)
  | join (i : Nat)
  | persist
  | release
  | task (i : Nat) (m : TaskMove)

def Worker.freeCapacity (c : WorkerConfig) (w : Worker) : Nat := c.concurrency - w.tasks.length

/-- The loop with these jobs still to be spawned. -/
def Loop.spawn : List JobRow → Loop
  | [] => .top
  | jobs => .spawning jobs

/-- The worker's loop and its tasks, move by move. -/
def step (c : WorkerConfig) (worker : String) (w : Worker) : Move → Option Worker
  | .advance elapsed => some { w with now := w.now + elapsed }
  | .setMode mode => some { w with mode }
  | .shutdown => some { w with shutdown := true }
  | .read =>
    -- `try_start_write`, then the clock; the counts are refreshed before the claim
    if w.loop = .top ∧ !w.shutdown ∧ 0 < w.freeCapacity c ∧ w.mode.allowsWrite then
      some { w with loop := .claiming w.now }
    else none
  | .claim =>
    match w.loop with
    | .claiming now =>
      match claimBatch w.store worker now (now + c.leaseDuration)
          (min (w.freeCapacity c) c.batchSize) with
      | .ok (s, jobs) => some { w with store := s, loop := Loop.spawn jobs }
      | .error _ => some { w with loop := .top }
    | _ => none
  | .dispatch e =>
    match w.loop with
    | .spawning (job :: rest) =>
      let d := disposition c e job
      some { w with
        store := dispose worker w.now w.store job.id d
        loop := Loop.spawn rest
        tasks := if d = .spawn then w.tasks ++ [⟨job, .waiting⟩] else w.tasks }
    | _ => none
  | .join i =>
    match w.loop, w.tasks[i]? with
    | .top, some ⟨job, .finished outcome⟩ =>
      some { w with loop := .persisting job outcome, tasks := w.tasks.eraseIdx i }
    | _, _ => none
  | .persist =>
    match w.loop with
    | .persisting job outcome =>
      some { w with
        store := persistJobTaskResult worker w.now w.store job.id outcome
        loop := .top }
    | _ => none
  | .release =>
    if w.loop = .top ∧ w.shutdown ∧ w.tasks = [] then
      some { w with store := ignoring w.store (releaseWorkerLeases w.store worker w.now),
                    loop := .stopped }
    else none
  | .task i m =>
    match w.tasks[i]? with
    | some t => (taskStep c worker w t m).map fun (s, phase) =>
      { w with store := s, tasks := w.tasks.set i { t with phase } }
    | none => none

/-- A process that has just started, over any job table. -/
structure Starts (w : Worker) : Prop where
  running : w.shutdown = false
  loop : w.loop = .top
  tasks : w.tasks = []

/-- No two tasks have the same job. -/
def OneTask (w : Worker) : Prop := (w.tasks.map (·.job.id)).Nodup

/-! ## Time -/

/-- When the lease is renewed next, if ever. -/
def Phase.due : Phase → Option Int
  | .running due => due
  | _ => none

/-- The jobs that are claimed and not spawned yet. -/
def Loop.pending : Loop → List JobRow
  | .spawning jobs => jobs
  | _ => []

/-- The clock as it was read for the claim to come. -/
def Loop.reading : Loop → Option Int
  | .claiming now => some now
  | _ => none

/-- The clock does not pass a renewal that is due. -/
def OnTime (w : Worker) (m : Move) (_ : Worker) : Prop :=
  match m with
  | .advance elapsed => ∀ t ∈ w.tasks, ∀ due ∈ t.phase.due, w.now + elapsed ≤ due
  | _ => True

instance (w : Worker) (m : Move) (w' : Worker) : Decidable (OnTime w m w') :=
  match m with
  | .advance elapsed =>
    inferInstanceAs (Decidable (∀ t ∈ w.tasks, ∀ due ∈ t.phase.due, w.now + elapsed ≤ due))
  | .setMode _ | .shutdown | .read | .claim | .dispatch _ | .join _ | .persist | .release
  | .task _ _ => isTrue trivial

/-- A job's lease, if any, ends after a moment. -/
def Outlives (s : Store) (id : JobId) (moment : Int) : Prop :=
  ∀ r ∈ s.jobs.rows, r.id = id → ∀ leaseUntil ∈ r.leaseUntil, moment < leaseUntil

instance (s : Store) (id : JobId) (moment : Int) : Decidable (Outlives s id moment) :=
  inferInstanceAs (Decidable (∀ r ∈ s.jobs.rows, r.id = id → ∀ leaseUntil ∈ r.leaseUntil, _))

/-- The clock is before an unrenewed lease's end. -/
def Timely (c : WorkerConfig) (w : Worker) (m : Move) (_ : Worker) : Prop :=
  match m with
  | .advance elapsed =>
    (∀ t ∈ w.tasks, t.phase.due = none → Outlives w.store t.job.id (w.now + elapsed)) ∧
    (∀ job ∈ w.loop.pending, Outlives w.store job.id (w.now + elapsed)) ∧
    ∀ now ∈ w.loop.reading, w.now + elapsed < now + c.leaseDuration
  | .task i .start =>
    ∀ t ∈ w.tasks[i]?, Outlives w.store t.job.id (w.now + c.monitorInterval)
  | _ => True

instance (c : WorkerConfig) (w : Worker) (m : Move) (w' : Worker) : Decidable (Timely c w m w') :=
  match m with
  | .advance _ => inferInstanceAs (Decidable (_ ∧ _ ∧ _))
  | .task i .start => inferInstanceAs (Decidable (∀ t ∈ w.tasks[i]?,
      Outlives w.store t.job.id (w.now + c.monitorInterval)))
  | .setMode _ | .shutdown | .read | .claim | .dispatch _ | .join _ | .persist | .release
  | .task _ .interrupt | .task _ .renew | .task _ .stopMonitor | .task _ (.finish _) =>
    isTrue trivial

/-! ## Leases -/

section Leases

variable {worker : String} {s s' : Store} {id id' : JobId} {moment later : Int} {r : JobRow}

/-- Running for this worker beyond a moment. -/
def Leased (worker : String) (s : Store) (id : JobId) (moment : Int) : Prop :=
  ∃ r ∈ s.jobs.rows, owned id worker r ∧
    ∃ leaseUntil, r.leaseUntil = some leaseUntil ∧ moment < leaseUntil

theorem owned_id (h : owned id worker r) : r.id = id := (of_decide_eq_true h).1

theorem Leased.outlive (h : Leased worker s id moment) (hout : Outlives s id later) :
    Leased worker s id later := by
  obtain ⟨r, hr, hown, leaseUntil, hlease, _⟩ := h
  exact ⟨r, hr, hown, leaseUntil, hlease, hout r hr (owned_id hown) leaseUntil hlease⟩

theorem Leased.mono (h : Leased worker s id later) (hle : moment ≤ later) :
    Leased worker s id moment := by
  obtain ⟨r, hr, hown, leaseUntil, hlease, hlt⟩ := h
  exact ⟨r, hr, hown, leaseUntil, hlease, by omega⟩

/-- The rows of other jobs are as they were. -/
def Elsewhere (id : JobId) (s s' : Store) : Prop :=
  ∀ r ∈ s.jobs.rows, r.id ≠ id → r ∈ s'.jobs.rows

theorem Elsewhere.refl (id : JobId) (s : Store) : Elsewhere id s s := fun _ hr _ => hr

theorem Leased.elsewhere (h : Leased worker s id' moment) (hframe : Elsewhere id s s')
    (hne : id' ≠ id) : Leased worker s' id' moment := by
  obtain ⟨r, hr, hown, hlease⟩ := h
  exact ⟨r, hframe r hr (fun hid => hne ((owned_id hown).symm.trans hid)), hown, hlease⟩

theorem elsewhere_update {w : JobRow → Bool} {f : JobRow → JobRow}
    (h : s'.jobs.rows = updateRows w f s.jobs.rows) (hw : ∀ r, w r → r.id = id) :
    Elsewhere id s s' := by
  intro r hr hne
  rw [h]
  refine mem_updateRows.mpr ⟨r, hr, .inr ⟨?_, rfl⟩⟩
  exact Bool.eq_false_iff.mpr fun hsel => hne (hw r hsel)

theorem ignoring_elsewhere {x : Except StateError Store}
    (h : ∀ s', x = .ok s' → Elsewhere id s s') : Elsewhere id s (ignoring s x) := by
  cases x with
  | ok s' => exact h s' rfl
  | error e => exact Elsewhere.refl id s

variable {availableAt now : Int} {status : JobStatus} {error : String}

theorem finish_elsewhere {availableAt : Option Int} {error : Option String}
    (h : finish s id worker status availableAt error now = .ok s') : Elsewhere id s s' :=
  elsewhere_update (finish_ok h) fun _ => owned_id

theorem failPermanently_elsewhere (h : failPermanently s id worker error now = .ok s') :
    Elsewhere id s s' := by
  obtain ⟨_, _, h⟩ := bind_ok_iff.mp h
  exact finish_elsewhere h

theorem releaseClaimed_elsewhere (h : releaseClaimed s id worker availableAt now = .ok s') :
    Elsewhere id s s' := by
  obtain ⟨_, _, h⟩ := bind_ok_iff.mp h
  exact elsewhere_update (executeOne_ok h).2 fun _ hw => owned_id (Bool.and_eq_true_iff.mp hw).1

theorem retryOrFail_elsewhere
    (h : retryOrFail s id worker availableAt error now = .ok (s', status)) :
    Elsewhere id s s' := by
  obtain ⟨_, _, h⟩ := bind_ok_iff.mp h
  split at h
  · cases h
  · split at h
    · cases h
    · obtain ⟨t, ht, h⟩ := bind_ok_iff.mp h
      cases h
      exact finish_elsewhere ht

theorem dispose_elsewhere (worker : String) (now : Int) (s : Store) (id : JobId)
    (d : Disposition) : Elsewhere id s (dispose worker now s id d) := by
  cases d with
  | cancel => exact ignoring_elsewhere fun _ h => finish_elsewhere h
  | fail error => exact ignoring_elsewhere fun _ h => failPermanently_elsewhere h
  | release delay => exact ignoring_elsewhere fun _ h => releaseClaimed_elsewhere h
  | spawn => exact Elsewhere.refl id s

theorem persist_elsewhere (worker : String) (now : Int) (s : Store) (id : JobId)
    (outcome : Option JobOutcome) :
    Elsewhere id s (persistJobTaskResult worker now s id outcome) := by
  cases outcome with
  | none => exact Elsewhere.refl id s
  | some outcome =>
    cases outcome with
    | complete => exact ignoring_elsewhere fun _ h => finish_elsewhere h
    | deferred delay code => exact ignoring_elsewhere fun _ h => releaseClaimed_elsewhere h
    | retry delay code =>
      refine ignoring_elsewhere fun s' h => ?_
      obtain ⟨status, h⟩ := map_fst_ok h
      exact retryOrFail_elsewhere h
    | failed code => exact ignoring_elsewhere fun _ h => failPermanently_elsewhere h
    | cancelled => exact ignoring_elsewhere fun _ h => finish_elsewhere h

end Leases

/-! ## What a claim brings in -/

section Claim

variable {worker : String} {s s' : Store} {id : JobId} {now leaseUntil moment : Int} {limit : Nat}
variable {claimed : List JobRow}

/-- A claim returns candidates, in order. -/
theorem reserve_ids (cs : List JobRow) :
    ∀ {s : Store}, reserve worker now leaseUntil s cs = .ok (s', claimed) →
      (claimed.map (·.id)).Sublist (cs.map (·.id)) := by
  induction cs generalizing claimed with
  | nil =>
    intro s h
    cases h
    exact List.Sublist.slnil
  | cons c cs ih =>
    intro s h
    obtain ⟨⟨t, affected⟩, _, h⟩ := bind_ok_iff.mp h
    obtain ⟨⟨u, rest⟩, hrest, h⟩ := bind_ok_iff.mp h
    cases h
    by_cases hone : affected = 1
    · simp only [if_pos hone]
      exact (ih hrest).cons_cons c.id
    · simp only [if_neg hone]
      exact (ih hrest).cons c.id

theorem rows_ids_nodup (s : Store) : (s.jobs.rows.map (·.id)).Nodup := by
  have h : (s.jobs.rows.filterMap fun r => some r.id).Nodup := s.jobs.ok.1
  rwa [filterMap_eq_map'] at h

theorem candidates_ids_nodup (s : Store) (now : Int) (limit : Nat) :
    ((candidates s now limit).map (·.id)).Nodup := by
  have hrows : ((s.jobs.rows.filter (eligible now)).map (·.id)).Nodup :=
    (rows_ids_nodup s).sublist (filter_sublist.map _)
  have hsort := ((perm_insertionSort (precedes (s.jobs.rows.filter (eligible now)))
    (s.jobs.rows.filter (eligible now))).map (·.id)).nodup_iff.mpr hrows
  exact hsort.sublist ((take_sublist limit _).map _)

section

variable (h : claimBatch s worker now leaseUntil limit = .ok (s', claimed))

include h

theorem claimBatch_ids :
    (claimed.map (·.id)).Sublist ((candidates s now limit).map (·.id)) := by
  obtain ⟨_, _, h⟩ := bind_ok_iff.mp h
  obtain ⟨_, _, h⟩ := bind_ok_iff.mp h
  obtain ⟨_, _, h⟩ := bind_ok_iff.mp h
  exact reserve_ids _ h

theorem claimBatch_rows :
    s'.jobs.rows = updateRows (reserved ((candidates s now limit).map (·.id)) now)
      (claim worker now leaseUntil) s.jobs.rows := by
  obtain ⟨t, _, ht, hrows⟩ := claimBatch_ok (claimArguments_of_ok h)
  cases h.symm.trans ht
  exact hrows

/-- A claimed job is leased as the claim says. -/
theorem claimBatch_leases (hmem : id ∈ claimed.map (·.id)) (hlt : moment < leaseUntil) :
    Leased worker s' id moment := by
  obtain ⟨c, hc, rfl⟩ := mem_map.mp ((claimBatch_ids h).subset hmem)
  have hrow := (mem_candidates hc).1
  refine ⟨claim worker now leaseUntil c, ?_, by simp [owned, claim], leaseUntil, rfl, hlt⟩
  rw [claimBatch_rows h]
  exact mem_updateRows.mpr ⟨c, hrow, .inl ⟨(reserved_iff hrow).mpr hc, rfl⟩⟩

end

/-- A job whose lease is running is not eligible. -/
theorem Leased.not_eligible {r : JobRow} (h : Leased worker s id now) (hr : r ∈ s.jobs.rows)
    (hid : r.id = id) : eligible now r = false := by
  obtain ⟨q, hq, hown, end_, hlease, hlt⟩ := h
  rw [row_unique hr hq (hid.trans (owned_id hown).symm)]
  have hno : ¬ end_ ≤ now := by omega
  simp [eligible, hlease, hno]

/-- A claim passes over running leases. -/
theorem Leased.not_claimed (hleased : Leased worker s id now)
    (h : claimBatch s worker now leaseUntil limit = .ok (s', claimed)) :
    id ∉ claimed.map (·.id) := by
  intro hmem
  obtain ⟨c, hc, hid⟩ := mem_map.mp ((claimBatch_ids h).subset hmem)
  have heligible := (mem_candidates hc).2
  rw [hleased.not_eligible (mem_candidates hc).1 hid] at heligible
  cases heligible

theorem Leased.claimBatch (hleased : Leased worker s id moment) (hle : now ≤ moment)
    (h : claimBatch s worker now leaseUntil limit = .ok (s', claimed)) :
    Leased worker s' id moment := by
  obtain ⟨r, hr, hown, hlease⟩ := hleased
  have hno : eligible now r = false :=
    (Leased.mono ⟨r, hr, hown, hlease⟩ hle).not_eligible hr (owned_id hown)
  refine ⟨r, ?_, hown, hlease⟩
  rw [claimBatch_rows h]
  refine mem_updateRows.mpr ⟨r, hr, .inr ⟨?_, rfl⟩⟩
  rw [reserved, hno, Bool.and_false]

end Claim

/-! ## The renewal -/

section Renewal

variable {c : WorkerConfig} {worker : String} {s s' : Store} {id : JobId}
variable {now leaseUntil moment : Int} {lost : Bool}

/-- What a renewal selects gets the new end. -/
theorem renewClaimed_ok (h : renewClaimed s id worker leaseUntil now = .ok (s', lost)) :
    s'.jobs.rows = updateRows (fun r => owned id worker r && !r.cancelRequested)
        (fun r => { r with leaseUntil := some leaseUntil, updatedAt := now }) s.jobs.rows ∧
      lost = decide (s.jobs.rows.countP (fun r => owned id worker r && !r.cancelRequested) = 0) := by
  obtain ⟨_, _, h⟩ := bind_ok_iff.mp h
  obtain ⟨_, _, h⟩ := bind_ok_iff.mp h
  obtain ⟨⟨t, n⟩, ht, h⟩ := bind_ok_iff.mp h
  cases h
  obtain ⟨_, hrows, rfl⟩ := execute_ok ht
  exact ⟨hrows, rfl⟩

theorem renewClaimed_elsewhere (h : renewClaimed s id worker leaseUntil now = .ok (s', lost)) :
    Elsewhere id s s' :=
  elsewhere_update (renewClaimed_ok h).1 fun _ hw => owned_id (Bool.and_eq_true_iff.mp hw).1

/-- A renewal that hit has moved the end. -/
theorem renewClaimed_leased (h : renewClaimed s id worker leaseUntil now = .ok (s', false))
    (hlt : moment < leaseUntil) :
    Leased worker s' id moment := by
  obtain ⟨hrows, hfound⟩ := renewClaimed_ok h
  have hpos : s.jobs.rows.countP (fun r => owned id worker r && !r.cancelRequested) ≠ 0 := by
    simpa using hfound
  obtain ⟨r, hr, hsel⟩ := countP_pos_iff.mp (Nat.pos_of_ne_zero hpos)
  refine ⟨{ r with leaseUntil := some leaseUntil, updatedAt := now }, ?_, ?_, leaseUntil, rfl, hlt⟩
  · rw [hrows]
    exact mem_updateRows.mpr ⟨r, hr, .inl ⟨hsel, rfl⟩⟩
  · exact (Bool.and_eq_true_iff.mp hsel).1

/-- A renewal that found no row has changed none. -/
theorem renewClaimed_lost (h : renewClaimed s id worker leaseUntil now = .ok (s', true)) :
    s'.jobs.rows = s.jobs.rows := by
  obtain ⟨hrows, hnone⟩ := renewClaimed_ok h
  have hzero : s.jobs.rows.countP (fun r => owned id worker r && !r.cancelRequested) = 0 := by
    simpa using hnone
  rw [hrows]
  exact updateRows_of_none fun r hr =>
    Bool.eq_false_iff.mpr (countP_eq_zero.mp hzero r hr)

/-- A renewal touches no key, so it breaks no constraint. -/
theorem renewed_jobsOk {rows : List JobRow} {w : JobRow → Bool} (h : JobsOk rows) :
    JobsOk (updateRows w
      (fun r => { r with leaseUntil := some leaseUntil, updatedAt := now }) rows) := by
  obtain ⟨hid, hscope, hsingle, hmax⟩ := h
  exact ⟨hid.updateRows fun _ _ _ => .inl rfl, hscope.updateRows fun _ _ _ => .inl rfl,
    hsingle.updateRows fun _ _ _ => .inl rfl, forall_updateRows hmax fun _ _ _ hpos => hpos⟩

theorem renewClaimed_succeeds (hworker : boundedText 128 worker) (hlt : now < leaseUntil) :
    ∃ s' lost, renewClaimed s id worker leaseUntil now = .ok (s', lost) := by
  have hok : JobsOk (updateRows (fun r => owned id worker r && !r.cancelRequested)
      (fun r => { r with leaseUntil := some leaseUntil, updatedAt := now }) s.jobs.rows) :=
    renewed_jobsOk s.jobs.ok
  have hexec : execute s (fun r => owned id worker r && !r.cancelRequested)
      (fun r => { r with leaseUntil := some leaseUntil, updatedAt := now }) =
      .ok ({ s with jobs := ⟨_, hok⟩ },
        s.jobs.rowsAffected fun r => owned id worker r && !r.cancelRequested) := by
    unfold execute Table.update
    rw [Table.store_of_ok hok]
  refine ⟨{ s with jobs := ⟨_, hok⟩ }, decide (s.jobs.rowsAffected
    (fun r => owned id worker r && !r.cancelRequested) = 0), ?_⟩
  unfold renewClaimed validateWorker require
  rw [hworker, decide_eq_true hlt, hexec]
  rfl

theorem monitorInterval_lt (hpos : 0 < c.leaseDuration) : c.monitorInterval < c.leaseDuration := by
  unfold WorkerConfig.monitorInterval
  omega

end Renewal

/-! ## The invariant -/

section Invariant

variable {c : WorkerConfig} {worker : String} {w w' : Worker} {t : JobTask} {s : Store}

/-- Up to when a task's lease has to last. -/
def Phase.horizon (now : Int) : Phase → Int
  | .running (some due) => due
  | _ => now

/-- The lease of the task's job lasts beyond its horizon. -/
structure Secure (worker : String) (s : Store) (now : Int) (t : JobTask) : Prop where
  onTime : now ≤ t.phase.horizon now
  leased : Leased worker s t.job.id (t.phase.horizon now)

variable {now : Int} {id : JobId} {job : JobRow} {loop : Loop} {i : Nat}
  {outcome : Option JobOutcome} {phase : Phase} {s' : Store}

theorem Secure.leased_now (h : Secure worker s now t) :
    Leased worker s t.job.id now := h.leased.mono h.onTime

/-- The jobs that the loop itself has in hand. -/
def Loop.jobs : Loop → List JobId
  | .spawning jobs => jobs.map (·.id)
  | .persisting job _ => [job.id]
  | _ => []

def Worker.inHand (w : Worker) : List JobId := w.tasks.map (·.job.id) ++ w.loop.jobs

/-- What holds between the moves. -/
structure Inv (c : WorkerConfig) (worker : String) (w : Worker) : Prop where
  unique : w.inHand.Nodup
  secure : ∀ t ∈ w.tasks, Secure worker w.store w.now t
  pending : ∀ job ∈ w.loop.pending, Leased worker w.store job.id w.now
  reading : ∀ now ∈ w.loop.reading,
    now ≤ w.now ∧ (0 < c.leaseDuration → w.now < now + c.leaseDuration)
  valid : w.inHand ≠ [] → boundedText 128 worker ∧ 0 < c.leaseDuration

theorem Starts.inv (h : Starts w) (c : WorkerConfig) (worker : String) : Inv c worker w := by
  have hhand : w.inHand = [] := by simp [Worker.inHand, h.tasks, h.loop, Loop.jobs]
  refine ⟨by simp [hhand], ?_, ?_, ?_, fun hne => absurd hhand hne⟩
  · simp [h.tasks]
  · simp [h.loop, Loop.pending]
  · simp [h.loop, Loop.reading]

@[simp] theorem Loop.spawn_jobs (jobs : List JobRow) : (Loop.spawn jobs).jobs = jobs.map (·.id) := by
  cases jobs <;> rfl

@[simp] theorem Loop.spawn_pending (jobs : List JobRow) : (Loop.spawn jobs).pending = jobs := by
  cases jobs <;> rfl

@[simp] theorem Loop.spawn_reading (jobs : List JobRow) : (Loop.spawn jobs).reading = none := by
  cases jobs <;> rfl

theorem Loop.mem_jobs (h : job ∈ loop.pending) : job.id ∈ loop.jobs := by
  cases loop with
  | spawning jobs => exact mem_map_of_mem h
  | top | claiming now | persisting job' outcome | stopped => cases h

theorem Secure.elsewhere (h : Secure worker s now t) (hframe : Elsewhere id s s')
    (hne : t.job.id ≠ id) : Secure worker s' now t :=
  ⟨h.onTime, h.leased.elsewhere hframe hne⟩

/-- Such a task is not of a job in the loop's hands. -/
theorem Inv.task_ne (h : Inv c worker w) (ht : t ∈ w.tasks) (hid : id ∈ w.loop.jobs) :
    t.job.id ≠ id := by
  intro heq
  exact (nodup_append.mp h.unique).2.2 t.job.id (mem_map_of_mem ht) id hid heq

/-- A change of the loop that takes nothing new in hand. -/
theorem Inv.idle (h : Inv c worker w) (hjobs : w.loop.jobs = []) (hjobs' : loop.jobs = [])
    (hpending : loop.pending = [])
    (hreading : ∀ now ∈ loop.reading,
      now ≤ w.now ∧ (0 < c.leaseDuration → w.now < now + c.leaseDuration)) :
    Inv c worker { w with loop } := by
  have hhand : ({ w with loop := loop } : Worker).inHand = w.inHand := by
    simp [Worker.inHand, hjobs, hjobs']
  refine ⟨by rw [hhand]; exact h.unique, h.secure, ?_, hreading, ?_⟩
  · simp [hpending]
  · rw [hhand]
    exact h.valid

theorem Inv.advance {elapsed : Nat} (h : Inv c worker w)
    (hontime : OnTime w (.advance elapsed) w') (htimely : Timely c w (.advance elapsed) w') :
    Inv c worker { w with now := w.now + elapsed } := by
  obtain ⟨htasks, hpending, hreading⟩ := htimely
  refine ⟨h.unique, ?_, ?_, ?_, h.valid⟩
  · intro t ht
    have hsecure := h.secure t ht
    cases hphase : t.phase with
    | waiting =>
      have hout := htasks t ht (by rw [hphase]; rfl)
      exact ⟨by rw [hphase]; exact le_refl _, by
        rw [hphase]; exact hsecure.leased.outlive hout⟩
    | finished outcome =>
      have hout := htasks t ht (by rw [hphase]; rfl)
      exact ⟨by rw [hphase]; exact le_refl _, by
        rw [hphase]; exact hsecure.leased.outlive hout⟩
    | running due =>
      cases due with
      | none =>
        have hout := htasks t ht (by rw [hphase]; rfl)
        exact ⟨by rw [hphase]; exact le_refl _, by
          rw [hphase]; exact hsecure.leased.outlive hout⟩
      | some due =>
        have hleased := hsecure.leased
        rw [hphase] at hleased
        exact ⟨by rw [hphase]; exact hontime t ht due (by rw [hphase]; rfl), by
          rw [hphase]; exact hleased⟩
  · intro job hjob
    exact (h.pending job hjob).outlive (hpending job hjob)
  · intro now hnow
    have hold := h.reading now hnow
    have hnew := hreading now hnow
    exact ⟨by show now ≤ w.now + elapsed; omega, fun _ => hnew⟩

theorem Inv.claim {jobs : List JobRow} {limit : Nat} (h : Inv c worker w)
    (hloop : w.loop = .claiming now)
    (hclaim : claimBatch w.store worker now (now + c.leaseDuration) limit = .ok (s', jobs)) :
    Inv c worker { w with store := s', loop := Loop.spawn jobs } := by
  obtain ⟨hread, hfresh⟩ := h.reading now (by rw [hloop]; rfl)
  obtain ⟨hworker, hlease, _, _⟩ := claimArguments_of_ok hclaim
  have hkept : ∀ t ∈ w.tasks, Secure worker s' w.now t := by
    intro t ht
    have hsecure := h.secure t ht
    exact ⟨hsecure.onTime, hsecure.leased.claimBatch (hread.trans hsecure.onTime) hclaim⟩
  refine ⟨?_, hkept, ?_, ?_, fun _ => ⟨hworker, by omega⟩⟩
  · -- The jobs that come in are no two the same, and none of them is with a task.
    have htasks : (w.tasks.map (·.job.id)).Nodup := (nodup_append.mp h.unique).1
    have hjobs : (jobs.map (·.id)).Nodup :=
      (candidates_ids_nodup w.store now limit).sublist (claimBatch_ids hclaim)
    show (w.tasks.map (·.job.id) ++ (Loop.spawn jobs).jobs).Nodup
    rw [Loop.spawn_jobs, nodup_append]
    refine ⟨htasks, hjobs, ?_⟩
    intro id hid id' hid' heq
    obtain ⟨t, ht, rfl⟩ := mem_map.mp hid
    have hleased := ((h.secure t ht).leased_now).mono hread
    exact hleased.not_claimed hclaim (heq ▸ hid')
  · intro job hjob
    rw [Loop.spawn_pending] at hjob
    exact claimBatch_leases hclaim (mem_map_of_mem hjob) (hfresh (by omega))
  · intro now' hnow'
    rw [Loop.spawn_reading] at hnow'
    cases hnow'

/-- A job leaves the loop's hands. -/
theorem Inv.dispatch {rest : List JobRow} (h : Inv c worker w)
    (hloop : w.loop = .spawning (job :: rest)) (e : Surroundings) :
    Inv c worker { w with
      store := dispose worker w.now w.store job.id (disposition c e job)
      loop := Loop.spawn rest
      tasks := if disposition c e job = .spawn then w.tasks ++ [⟨job, .waiting⟩]
        else w.tasks } := by
  have hjobs : w.loop.jobs = job.id :: rest.map (·.id) := by rw [hloop]; rfl
  have hunique := h.unique
  rw [Worker.inHand, hjobs] at hunique
  have hrest : ∀ other ∈ rest, other.id ≠ job.id := by
    intro other hother heq
    have hcons := (nodup_append.mp hunique).2.1
    exact (nodup_cons.mp hcons).1 (heq ▸ mem_map_of_mem hother)
  have hpending : ∀ other ∈ w.loop.pending, Leased worker w.store other.id w.now := h.pending
  rw [hloop] at hpending
  have hvalid : boundedText 128 worker ∧ 0 < c.leaseDuration :=
    h.valid (by simp [Worker.inHand, hjobs])
  have hframe := dispose_elsewhere worker w.now w.store job.id (disposition c e job)
  have hkept : ∀ t ∈ w.tasks, Secure worker
      (dispose worker w.now w.store job.id (disposition c e job)) w.now t := by
    intro t ht
    exact (h.secure t ht).elsewhere hframe (h.task_ne ht (by rw [hjobs]; exact mem_cons_self))
  have hlater : ∀ other ∈ (Loop.spawn rest).pending, Leased worker
      (dispose worker w.now w.store job.id (disposition c e job)) other.id w.now := by
    intro other hother
    rw [Loop.spawn_pending] at hother
    exact (hpending other (mem_cons_of_mem job hother)).elsewhere hframe (hrest other hother)
  have hreading : ∀ now ∈ (Loop.spawn rest).reading,
      now ≤ w.now ∧ (0 < c.leaseDuration → w.now < now + c.leaseDuration) := by
    rw [Loop.spawn_reading]
    exact nofun
  by_cases hspawn : disposition c e job = .spawn
  · rw [if_pos hspawn]
    refine ⟨?_, ?_, hlater, hreading, fun _ => hvalid⟩
    · show (List.map (fun t : JobTask => t.job.id) (w.tasks ++ [⟨job, .waiting⟩]) ++
        (Loop.spawn rest).jobs).Nodup
      rw [Loop.spawn_jobs, map_append, append_assoc]
      exact hunique
    · intro t ht
      rcases mem_append.mp ht with ht | ht
      · exact hkept t ht
      · rw [mem_singleton.mp ht]
        refine ⟨le_refl _, ?_⟩
        show Leased worker (dispose worker w.now w.store job.id (disposition c e job)) job.id w.now
        rw [hspawn]
        exact hpending job mem_cons_self
  · rw [if_neg hspawn]
    refine ⟨?_, hkept, hlater, hreading, fun _ => hvalid⟩
    show (w.tasks.map (·.job.id) ++ (Loop.spawn rest).jobs).Nodup
    rw [Loop.spawn_jobs]
    exact hunique.sublist ((sublist_cons_self _ _).append_left _)

theorem Inv.join (h : Inv c worker w) (hloop : w.loop = .top)
    (ht : w.tasks[i]? = some ⟨job, .finished outcome⟩) :
    Inv c worker { w with loop := .persisting job outcome, tasks := w.tasks.eraseIdx i } := by
  have hlt : i < w.tasks.length := (List.getElem?_eq_some_iff.mp ht).1
  have hperm : (w.tasks.map (·.job.id)).Perm
      ((w.tasks.eraseIdx i).map (·.job.id) ++ [job.id]) := by
    have hget : w.tasks[i] = ⟨job, .finished outcome⟩ := (List.getElem?_eq_some_iff.mp ht).2
    have hcons := (getElem_cons_eraseIdx_perm hlt).symm.map (·.job.id)
    rw [hget] at hcons
    exact hcons.trans (perm_append_singleton _ _).symm
  have hhand : w.inHand = w.tasks.map (·.job.id) := by simp [Worker.inHand, hloop, Loop.jobs]
  have hunique := h.unique
  rw [hhand] at hunique
  refine ⟨hperm.nodup_iff.mp hunique, ?_, ?_, ?_, fun _ => h.valid ?_⟩
  · intro t hmem
    exact h.secure t ((eraseIdx_sublist _ _).subset hmem)
  · exact fun _ hjob => nomatch hjob
  · exact fun _ hnow => nomatch hnow
  · intro hnil
    rw [hhand, map_eq_nil_iff] at hnil
    rw [hnil] at hlt
    exact absurd hlt (Nat.not_lt_zero i)

theorem Inv.persist (h : Inv c worker w) (hloop : w.loop = .persisting job outcome) :
    Inv c worker { w with
      store := persistJobTaskResult worker w.now w.store job.id outcome, loop := .top } := by
  have hjobs : w.loop.jobs = [job.id] := by rw [hloop]; rfl
  have hframe := persist_elsewhere worker w.now w.store job.id outcome
  have htasks : (w.tasks.map (·.job.id)).Nodup := (nodup_append.mp h.unique).1
  refine ⟨?_, ?_, ?_, ?_, fun _ => h.valid (by simp [Worker.inHand, hjobs])⟩
  · show (List.map (fun t : JobTask => t.job.id) w.tasks ++ []).Nodup
    rw [append_nil]
    exact htasks
  · intro t ht
    exact (h.secure t ht).elsewhere hframe
      (h.task_ne ht (by rw [hjobs]; exact mem_cons_self))
  · exact fun _ hjob => nomatch hjob
  · exact nofun

/-! ## One step of a task -/

/-- The lease lasts beyond the task's horizon. -/
structure Steady (worker : String) (w : Worker) (t : JobTask) (s : Store) (phase : Phase) :
    Prop where
  frame : Elsewhere t.job.id w.store s
  secure : Secure worker s w.now { t with phase }

theorem Secure.rest (h : Secure worker s now t) (hphase : phase.horizon now = now) :
    Secure worker s now { t with phase } := by
  refine ⟨?_, ?_⟩
  · show now ≤ phase.horizon now
    omega
  · show Leased worker s t.job.id (phase.horizon now)
    rw [hphase]
    exact h.leased_now

theorem renew_steady (h : Secure worker w.store w.now t) (hworker : boundedText 128 worker)
    (hpos : 0 < c.leaseDuration) :
    Steady worker w t (renew c worker w t.job).1 (renew c worker w t.job).2 := by
  have hinterval := monitorInterval_lt hpos
  obtain ⟨s', lost, hrenew⟩ : ∃ s' lost, renewClaimed w.store t.job.id worker
      (w.now + c.leaseDuration) w.now = .ok (s', lost) :=
    renewClaimed_succeeds hworker (by omega)
  rw [renew, hrenew]
  cases lost with
  | true =>
    -- Nothing was renewed, so the row is still the one the task has relied on.
    have hrows := renewClaimed_lost hrenew
    refine ⟨renewClaimed_elsewhere hrenew, ?_⟩
    refine Secure.rest ⟨h.onTime, ?_⟩ rfl
    obtain ⟨r, hr, hlease⟩ := h.leased
    exact ⟨r, hrows.symm ▸ hr, hlease⟩
  | false =>
    refine ⟨renewClaimed_elsewhere hrenew, ?_, ?_⟩
    · show w.now ≤ w.now + (c.monitorInterval : Int)
      omega
    · exact renewClaimed_leased hrenew (show w.now + (c.monitorInterval : Int) <
        w.now + (c.leaseDuration : Int) by omega)

theorem taskStep_steady {m : TaskMove} (h : Secure worker w.store w.now t)
    (hworker : boundedText 128 worker) (hpos : 0 < c.leaseDuration)
    (hstart : m = .start → Outlives w.store t.job.id (w.now + c.monitorInterval))
    (hstep : taskStep c worker w t m = some (s, phase)) : Steady worker w t s phase := by
  cases m with
  | start =>
    simp only [taskStep, ite_none_right_eq_some] at hstep
    obtain ⟨_, rfl, rfl⟩ := hstep
    refine ⟨Elsewhere.refl _ _, ?_, h.leased.outlive (hstart rfl)⟩
    show w.now ≤ w.now + (c.monitorInterval : Int)
    omega
  | interrupt =>
    simp only [taskStep, ite_none_right_eq_some] at hstep
    obtain ⟨_, rfl, rfl⟩ := hstep
    exact ⟨Elsewhere.refl _ _, h.rest rfl⟩
  | renew =>
    simp only [taskStep] at hstep
    split at hstep
    · simp only [ite_none_right_eq_some, Option.some.injEq] at hstep
      obtain ⟨_, hrenew⟩ := hstep
      have hsteady := renew_steady h hworker hpos
      rw [hrenew] at hsteady
      exact hsteady
    · cases hstep
  | stopMonitor =>
    simp only [taskStep] at hstep
    split at hstep
    · simp only [ite_none_right_eq_some] at hstep
      obtain ⟨_, rfl, rfl⟩ := hstep
      exact ⟨Elsewhere.refl _ _, h.rest rfl⟩
    · cases hstep
  | finish outcome =>
    simp only [taskStep] at hstep
    split at hstep
    · simp only [Option.some.injEq] at hstep
      obtain ⟨rfl, rfl⟩ := hstep
      exact ⟨Elsewhere.refl _ _, h.rest rfl⟩
    · cases hstep

theorem Inv.task (h : Inv c worker w) (ht : w.tasks[i]? = some t)
    (hsteady : Steady worker w t s phase) :
    Inv c worker { w with store := s, tasks := w.tasks.set i { t with phase } } := by
  obtain ⟨l, r, hpool, hset⟩ := pool_split ht
  have hids : (w.tasks.set i { t with phase := phase }).map (·.job.id) =
      w.tasks.map (·.job.id) := by
    rw [hset, hpool]
    simp
  have hhand : ({ w with store := s, tasks := w.tasks.set i { t with phase := phase } } :
      Worker).inHand = w.inHand := by
    simp only [Worker.inHand, hids]
  have hmem : t ∈ w.tasks := mem_of_getElem? ht
  have hunique : ((l ++ t :: r).map (·.job.id)).Nodup := by
    rw [← hpool]
    exact (nodup_append.mp h.unique).1
  have hothers : ∀ q ∈ l ++ r, q.job.id ≠ t.job.id := by
    intro q hq heq
    rw [map_append, map_cons] at hunique
    have hnot := (nodup_middle.mp hunique)
    refine (nodup_cons.mp hnot).1 ?_
    rw [← map_append, ← heq]
    exact mem_map_of_mem hq
  refine ⟨by rw [hhand]; exact h.unique, ?_, ?_, h.reading, by rw [hhand]; exact h.valid⟩
  · intro q hq
    have hq' : q ∈ l ++ { t with phase := phase } :: r := by
      rw [← hset]
      exact hq
    rcases mem_pool.mp hq' with rfl | hq'
    · exact hsteady.secure
    · have hq : q ∈ w.tasks := by
        rw [hpool]
        exact mem_pool.mpr (.inr hq')
      exact (h.secure q hq).elsewhere hsteady.frame (hothers q hq')
  · intro job hjob
    have hid := Loop.mem_jobs hjob
    exact (h.pending job hjob).elsewhere hsteady.frame (Ne.symm (h.task_ne hmem hid))

/-! ## Every run -/

theorem step_inv {m : Move} (h : Inv c worker w) (hstep : step c worker w m = some w')
    (hontime : OnTime w m w') (htimely : Timely c w m w') : Inv c worker w' := by
  cases m with
  | advance elapsed =>
    cases hstep
    exact h.advance hontime htimely
  | setMode mode =>
    cases hstep
    exact { h with }
  | shutdown =>
    cases hstep
    exact { h with }
  | read =>
    simp only [step, ite_none_right_eq_some, Option.some.injEq] at hstep
    obtain ⟨⟨hloop, _, _, _⟩, rfl⟩ := hstep
    refine h.idle (by rw [hloop]; rfl) rfl rfl ?_
    intro now hnow
    cases hnow
    exact ⟨le_refl _, fun hpos => by omega⟩
  | claim =>
    simp only [step] at hstep
    split at hstep
    next now hloop =>
      split at hstep
      next s jobs hclaim =>
        cases hstep
        exact h.claim hloop hclaim
      · cases hstep
        exact h.idle (by rw [hloop]; rfl) rfl rfl nofun
    · cases hstep
  | dispatch e =>
    simp only [step] at hstep
    split at hstep
    next job rest hloop =>
      cases hstep
      exact h.dispatch hloop e
    · cases hstep
  | join i =>
    simp only [step] at hstep
    split at hstep
    next job outcome hloop ht =>
      cases hstep
      exact h.join hloop ht
    · cases hstep
  | persist =>
    simp only [step] at hstep
    split at hstep
    next job outcome hloop =>
      cases hstep
      exact h.persist hloop
    · cases hstep
  | release =>
    simp only [step, ite_none_right_eq_some, Option.some.injEq] at hstep
    obtain ⟨⟨hloop, _, htasks⟩, rfl⟩ := hstep
    have hhand : Worker.inHand { w with
        store := ignoring w.store (releaseWorkerLeases w.store worker w.now)
        loop := .stopped } = [] := by
      simp [Worker.inHand, htasks, Loop.jobs]
    refine ⟨by rw [hhand]; exact nodup_nil, ?_, ?_, ?_, fun hne => absurd hhand hne⟩
    · simp [htasks]
    · exact fun _ hjob => nomatch hjob
    · exact fun _ hnow => nomatch hnow
  | task i m =>
    simp only [step] at hstep
    split at hstep
    next t ht =>
      obtain ⟨⟨s, phase⟩, htask, rfl⟩ := map_eq_some_iff.mp hstep
      have hmem := mem_of_getElem? ht
      obtain ⟨hworker, hpos⟩ := h.valid (ne_nil_of_mem (mem_append_left _ (mem_map_of_mem hmem)))
      have hstart : m = .start → Outlives w.store t.job.id (w.now + c.monitorInterval) := by
        rintro rfl
        exact htimely t ht
      exact h.task ht (taskStep_steady (h.secure t hmem) hworker hpos hstart htask)
    · cases hstep

theorem reach_inv (hstart : Starts w)
    (h : Reach (step c worker) (fun w m w' => OnTime w m w' ∧ Timely c w m w') w w') :
    Inv c worker w' := by
  refine h.invariant ?_ (hstart.inv c worker)
  intro w m w' hinv hstep hcond
  exact step_inv hinv hstep hcond.1 hcond.2

end Invariant

/-- **ONE TASK FOR EACH JOB** while leases are renewed in time. -/
theorem one_task_per_job (c : WorkerConfig) (worker : String) {w w' : Worker} (hstart : Starts w)
    (h : Reach (step c worker) (fun w m w' => OnTime w m w' ∧ Timely c w m w') w w') :
    OneTask w' := by
  have hinv := reach_inv hstart h
  exact (nodup_append.mp hinv.unique).1

/-! ## A maintenance longer than a lease -/

def defaultConfig : WorkerConfig := ⟨250, 30000, 16, 4⟩

def rebuild : EnqueueInput := ⟨"index.rebuild", "rebuild", "null", 0, 3, 0, 7, 0⟩

/-- A process over a table with one job. -/
def withOneJob : Worker where
  store := ((enqueueGlobal (Store.empty []) rebuild).toOption.map (·.1)).getD (Store.empty [])
  now := 0
  mode := .normal
  shutdown := false
  loop := .top
  tasks := []

def rebuildOnly : Surroundings := ⟨fun _ => .missing, fun _ => true, ["index.rebuild"]⟩

/-- The tasks' jobs, and which are executed. -/
def Worker.view (w : Worker) : List (JobId × Bool) :=
  w.tasks.map fun t => (t.job.id, t.phase.due.isSome)

/-- It starts late and renews once. -/
theorem one_task_per_job_renewed : ∃ w, w.view = [(7, true)] ∧ OneTask w := by
  have hrun : ((runWhere (step defaultConfig "job-1")
      (fun w m w' => OnTime w m w' ∧ Timely defaultConfig w m w') withOneJob
      [.read, .claim, .dispatch rebuildOnly, .advance 1000, .task 0 .start, .advance 250,
        .task 0 .renew]).map Worker.view) = some [(7, true)] := by
    decide +kernel
  obtain ⟨w, hw, hview⟩ := map_eq_some_iff.mp hrun
  exact ⟨w, hview, one_task_per_job defaultConfig "job-1" ⟨rfl, rfl, rfl⟩ (Reach.of_runWhere hw)⟩

/-- Maintenance outlasts a lease: claimed again. -/
theorem two_tasks_after_maintenance : ∃ w, Reach (step defaultConfig "job-1") OnTime withOneJob w ∧
      w.view = [(7, true), (7, true)] ∧ ¬ OneTask w := by
  have hrun : ((runWhere (step defaultConfig "job-1") OnTime withOneJob
      [.read, .claim, .dispatch rebuildOnly, .setMode .offline, .advance 30000, .setMode .normal,
        .read, .claim, .dispatch rebuildOnly, .task 0 .start, .task 1 .start]).map Worker.view) =
      some [(7, true), (7, true)] := by
    decide +kernel
  obtain ⟨w, hw, hview⟩ := map_eq_some_iff.mp hrun
  refine ⟨w, Reach.of_runWhere hw, hview, ?_⟩
  intro hone
  have hids : w.tasks.map (·.job.id) = w.view.map (·.1) := by simp [Worker.view]
  rw [OneTask, hids, hview] at hone
  exact absurd hone (by decide)

end JobWorker
