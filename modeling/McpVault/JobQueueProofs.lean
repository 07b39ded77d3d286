import McpVault.TransitionProofs
import McpVault.SqlTableProofs
import McpVault.DomainProofs

/-! # The job queue — leases, attempts, and who can still be claimed

A claim takes a lease and spends one attempt; a crash leaves the lease to expire.  Whether an
unfinished job can be claimed again depends on two columns only (`claimable_iff`), and every
operation but one keeps it row by row.  The exception is `claim_batch` itself, on the last
permitted attempt (`claimBatch_strands_iff`). -/

namespace JobQueue

open Transition SqlTable VaultDomain List
open Fallible (bind_ok_iff map_fst_ok)

abbrev JobId := Nat

inductive JobStatus where
  | queued
  | running
  | retryWait
  | completed
  | failed
  | cancelled
  deriving DecidableEq

/-- `status IN ('queued', 'running', 'retry_wait')`. -/
def JobStatus.active : JobStatus → Bool
  | .queued | .running | .retryWait => true
  | _ => false

/-- One row of `jobs`. -/
structure JobRow where
  id : JobId
  vaultId : Option VaultId
  (jobType dedupKey payloadJson : String)
  status : JobStatus
  priority : Int
  (attempts maxAttempts : Nat)
  availableAt : Int
  leaseOwner : Option String
  leaseUntil : Option Int
  (progressJson lastError : Option String)
  (createdAt updatedAt : Int)
  completedAt : Option Int
  cancelRequested : Bool
  deriving DecidableEq

/-- Types with a unique index on active rows. -/
def singletonTypes : List String :=
  ["memory.consolidate", "memory.reset_pipeline", "memory.enrich_retrieval",
    "retrieval.calibrate", "memory.deduplicate", "memory.organize",
    "memory.overview"]

/-- The key of those indexes; a global job has none. -/
def singletonKey (r : JobRow) : Option (VaultId × String) :=
  if r.status.active ∧ r.jobType ∈ singletonTypes then
    r.vaultId.map (·, r.jobType)
  else none

/-- The keys and indexes of `jobs`, and its `CHECK`. -/
def JobsOk (rows : List JobRow) : Prop :=
  Unique (fun r => some r.id) rows ∧
  Unique (fun r => some (r.vaultId, r.dedupKey)) rows ∧
  Unique singletonKey rows ∧ ∀ r ∈ rows, 0 < r.maxAttempts

instance : DecidablePred JobsOk := fun rows =>
  inferInstanceAs (Decidable (_ ∧ _ ∧ _ ∧ ∀ r ∈ rows, 0 < r.maxAttempts))

/-- The registered Vaults and the job table. -/
structure Store where
  vaults : List VaultContext
  jobs : Table JobsOk

/-- No job yet. -/
def Store.empty (vaults : List VaultContext) : Store :=
  ⟨vaults, [], by decide⟩

/-! ## The operations -/

def validateWorker (worker : String) : Except StateError Unit :=
  require (boundedText 128 worker) "worker ID is invalid"

def validateLease (now leaseUntil : Int) : Except StateError Unit :=
  require (decide (now < leaseUntil)) "lease must expire in the future"

def validateBatch (limit : Nat) : Except StateError Unit :=
  require (decide (limit ≠ 0 ∧ limit ≤ 128)) "worker batch size is invalid"

def validateError (error : String) : Except StateError Unit :=
  require (boundedText 2048 error) "worker error is invalid"

def validateJobLabels (jobType dedupKey : String) : Except StateError Unit :=
  require (boundedText 128 jobType && boundedText 512 dedupKey)
    "job label is invalid"

def validateAttempts (maxAttempts : Nat) : Except StateError Unit :=
  require (decide (maxAttempts ≠ 0 ∧ maxAttempts ≤ 100))
    "job max attempts are invalid"

def validatePayload (encoded : String) : Except StateError Unit :=
  require (decide (encoded.utf8ByteSize ≤ 256 * 1024))
    "worker payload is too large"

/-- One `UPDATE jobs`, with the number of its rows. -/
def execute (s : Store) (w : JobRow → Bool) (f : JobRow → JobRow) :
    Except StateError (Store × Nat) :=
  match s.jobs.update w f with
  | some jobs => .ok ({ s with jobs }, s.jobs.rowsAffected w)
  | none => .error .database

/-- An `UPDATE` that has to hit its one row. -/
def executeOne (s : Store) (w : JobRow → Bool) (f : JobRow → JobRow)
    (message : String) : Except StateError Store := do
  let (s', affected) ← execute s w f
  require (decide (affected = 1)) message
  pure s'

def findByScope (s : Store) (vaultId : Option VaultId) (dedupKey : String) : Option JobRow :=
  s.jobs.rows.find? fun r => r.vaultId = vaultId ∧ r.dedupKey = dedupKey

/-- `created_at DESC, id DESC`: the newer of two rows. -/
def newer (a b : JobRow) : Bool :=
  decide (b.createdAt < a.createdAt ∨ b.createdAt = a.createdAt ∧ b.id < a.id)

/-- The newest open job of a type in this Vault. -/
def findActiveByType (s : Store) (context : VaultContext) (jobType : String) :
    Except StateError (Option JobRow) := do
  ensureContext s.vaults context
  validateJobLabels jobType "active-job-type"
  let rows := s.jobs.rows.filter fun r =>
    r.vaultId = some context.id ∧ r.jobType = jobType ∧ r.status.active
  pure (rows.find? fun r => rows.all fun q => q = r ∨ newer r q)

/-- The arguments, a fresh identifier and the clock. -/
structure EnqueueInput where
  (jobType dedupKey payloadJson : String)
  priority : Int
  maxAttempts : Nat
  availableAt : Int
  id : JobId
  now : Int

def EnqueueInput.row (i : EnqueueInput) (vaultId : Option VaultId) : JobRow where
  id := i.id
  vaultId
  jobType := i.jobType
  dedupKey := i.dedupKey
  payloadJson := i.payloadJson
  status := .queued
  priority := i.priority
  attempts := 0
  maxAttempts := i.maxAttempts
  availableAt := i.availableAt
  leaseOwner := none
  leaseUntil := none
  progressJson := none
  lastError := none
  createdAt := i.now
  updatedAt := i.now
  completedAt := none
  cancelRequested := false

/-- The job with this key, or a new row. -/
def enqueueInner (s : Store) (vaultId : Option VaultId) (i : EnqueueInput) :
    Except StateError (Store × JobRow) := do
  validateJobLabels i.jobType i.dedupKey
  validateAttempts i.maxAttempts
  validatePayload i.payloadJson
  match findByScope s vaultId i.dedupKey with
  | some existing => pure (s, existing)
  | none =>
    match s.jobs.insert (i.row vaultId) with
    | some jobs => pure ({ s with jobs }, i.row vaultId)
    | none =>
      match findByScope s vaultId i.dedupKey with
      | some existing => pure (s, existing)
      | none => .error .database

def enqueue (s : Store) (context : VaultContext) (i : EnqueueInput) :
    Except StateError (Store × JobRow) := do
  ensureContext s.vaults context
  enqueueInner s (some context.id) i

def enqueueGlobal (s : Store) (i : EnqueueInput) : Except StateError (Store × JobRow) :=
  enqueueInner s none i

/-- The active job of the type, or a new one. -/
def enqueueSingleton (s : Store) (context : VaultContext) (i : EnqueueInput) :
    Except StateError (Store × JobRow) := do
  match ← findActiveByType s context i.jobType with
  | some existing => pure (s, existing)
  | none =>
    match enqueue s context i with
    | .ok r => pure r
    | .error error => do
      match ← findActiveByType s context i.jobType with
      | some existing => pure (s, existing)
      | none => .error error

/-- The `WHERE` clause of a claim. -/
def eligible (now : Int) (r : JobRow) : Bool :=
  r.status.active && decide (r.availableAt ≤ now) &&
    (match r.leaseUntil with
      | none => true
      | some leaseUntil => decide (leaseUntil ≤ now)) &&
    (decide (r.attempts < r.maxAttempts) || r.cancelRequested)

/-- `ORDER BY priority DESC, created_at ASC, id ASC`. -/
def before (a b : JobRow) : Bool :=
  decide (b.priority < a.priority ∨ b.priority = a.priority ∧
    (a.createdAt < b.createdAt ∨ a.createdAt = b.createdAt ∧ a.id < b.id))

/-- `ROW_NUMBER()` among the Vault's eligible rows. -/
def vaultRank (rows : List JobRow) (r : JobRow) : Nat :=
  1 + rows.countP fun q => decide (q.vaultId = r.vaultId) && before q r

/-- The order of the outer `SELECT`. -/
def precedes (rows : List JobRow) (a b : JobRow) : Prop :=
  b.priority < a.priority ∨ b.priority = a.priority ∧
    (vaultRank rows a < vaultRank rows b ∨ vaultRank rows a = vaultRank rows b ∧
      (a.createdAt < b.createdAt ∨ a.createdAt = b.createdAt ∧ a.id ≤ b.id))

instance (rows : List JobRow) : DecidableRel (precedes rows) := fun _ _ =>
  inferInstanceAs (Decidable (_ < _ ∨ _ ∧ (_ ∨ _ ∧ (_ ∨ _))))

/-- The rows a claim selects. -/
def candidates (s : Store) (now : Int) (limit : Nat) : List JobRow :=
  let rows := s.jobs.rows.filter (eligible now)
  (rows.insertionSort (precedes rows)).take limit

/-- The columns a claim sets. -/
def claim (worker : String) (now leaseUntil : Int) (r : JobRow) : JobRow :=
  { r with status := .running, leaseOwner := some worker,
           leaseUntil := some leaseUntil, attempts := r.attempts + 1,
           updatedAt := now }

/-- The loop of `claim_batch`; each `UPDATE` checks again. -/
def reserve (worker : String) (now leaseUntil : Int) :
    Store → List JobRow → Except StateError (Store × List JobRow)
  | s, [] => pure (s, [])
  | s, candidate :: rest => do
    let (s', affected) ← execute s
      (fun r => decide (r.id = candidate.id) && eligible now r)
      (claim worker now leaseUntil)
    let (s'', claimed) ← reserve worker now leaseUntil s' rest
    let record := { candidate with
      status := .running, leaseOwner := some worker,
      leaseUntil := some leaseUntil, attempts := candidate.attempts + 1 }
    pure (s'', if affected = 1 then record :: claimed else claimed)

/-- The candidates that can be reserved. -/
def claimBatch (s : Store) (worker : String) (now leaseUntil : Int)
    (limit : Nat) : Except StateError (Store × List JobRow) := do
  validateWorker worker
  validateLease now leaseUntil
  validateBatch limit
  reserve worker now leaseUntil s (candidates s now limit)

/-- The job is running under this worker's lease. -/
def owned (id : JobId) (worker : String) (r : JobRow) : Bool :=
  decide (r.id = id ∧ r.status = .running ∧ r.leaseOwner = some worker)

def updateProgress (s : Store) (id : JobId) (worker progress : String)
    (now : Int) : Except StateError Store := do
  validateWorker worker
  validatePayload progress
  executeOne s (owned id worker)
    (fun r => { r with progressJson := some progress, updatedAt := now })
    "job lease is not owned"

/-- The columns the end of a claim sets. -/
def finished (status : JobStatus) (availableAt : Option Int)
    (error : Option String) (now : Int) (r : JobRow) : JobRow :=
  { r with status, availableAt := availableAt.getD r.availableAt,
           leaseOwner := none, leaseUntil := none, lastError := error,
           completedAt := if status.active then r.completedAt else some now,
           updatedAt := now }

section

variable (s : Store) (id : JobId)

/-- The lease holder ends its job. -/
def finish (worker : String) (status : JobStatus)
    (availableAt : Option Int) (error : Option String) (now : Int) :
    Except StateError Store := do
  validateWorker worker
  match error with
  | some error => validateError error
  | none => pure ()
  executeOne s (owned id worker) (finished status availableAt error now)
    "job lease is not owned"

def complete (worker : String) (now : Int) : Except StateError Store :=
  finish s id worker .completed none none now

/-- A failure, or a retry while attempts are left. -/
def retryOrFail (worker : String) (availableAt : Int)
    (error : String) (now : Int) : Except StateError (Store × JobStatus) := do
  validateError error
  match s.jobs.rows.find? fun r => r.id = id with
  | none => .error (.invalidInput "job does not exist")
  | some job =>
    if job.leaseOwner ≠ some worker ∨ job.status ≠ .running then
      .error (.invalidInput "job lease is not owned")
    else do
      let status :=
        if job.maxAttempts ≤ job.attempts then .failed else .retryWait
      let s' ← finish s id worker status (some availableAt) (some error) now
      pure (s', status)

def failPermanently (worker error : String) (now : Int) : Except StateError Store := do
  validateError error
  finish s id worker .failed none (some error) now

def cancelClaimed (worker : String) (now : Int) : Except StateError Store :=
  finish s id worker .cancelled none (some "cancelled") now

/-- Given back unstarted: the attempt does not count. -/
def releaseClaimed (worker : String) (availableAt now : Int) : Except StateError Store := do
  validateWorker worker
  executeOne s (fun r => owned id worker r && !r.cancelRequested)
    (fun r => { r with status := .queued, availableAt,
                       leaseOwner := none, leaseUntil := none,
                       attempts := r.attempts - 1, updatedAt := now })
    "job lease is not owned"

/-- `true` reports cancellation or a lost lease. -/
def renewClaimed (worker : String) (leaseUntil now : Int) : Except StateError (Store × Bool) := do
  validateWorker worker
  require (decide (now < leaseUntil)) "job lease renewal is invalid"
  let (s', affected) ← execute s
    (fun r => owned id worker r && !r.cancelRequested)
    (fun r => { r with leaseUntil := some leaseUntil, updatedAt := now })
  pure (s', decide (affected = 0))

end

/-- Running jobs of these types stay (`LIKE`). -/
def uncancellable (r : JobRow) : Bool :=
  decide (r.status = .running) &&
    ("backup.".toList.isPrefixOf (r.jobType.toList.map Char.toLower) ||
      decide (r.jobType ∈ ["memory.consolidate", "memory.reset_pipeline"]))

/-- The columns a cancellation request sets. -/
def cancelled (now : Int) (r : JobRow) : JobRow :=
  let waiting := r.status = .queued ∨ r.status = .retryWait
  { r with cancelRequested := true,
           status := if waiting then .cancelled else r.status,
           completedAt := if waiting then some now else r.completedAt,
           updatedAt := now }

/-- An active job of the Vault is to end. -/
def requestCancel (s : Store) (context : VaultContext) (id : JobId)
    (now : Int) : Except StateError Store := do
  ensureContext s.vaults context
  executeOne s
    (fun r => decide (r.id = id ∧ r.vaultId = some context.id) &&
      r.status.active && !uncancellable r)
    (cancelled now) "job is not cancellable"

/-- A finished job goes back in the queue. -/
def requeued (now : Int) (progressJson : Option String) (r : JobRow) : JobRow :=
  { r with status := .queued, availableAt := now, leaseOwner := none,
           leaseUntil := none, attempts := 0, progressJson,
           cancelRequested := false, lastError := none, completedAt := none,
           updatedAt := now }

/-- A failed job of the Vault is queued again. -/
def requestRetry (s : Store) (context : VaultContext) (id : JobId)
    (now : Int) : Except StateError Store := do
  ensureContext s.vaults context
  executeOne s
    (fun r => decide (r.id = id ∧ r.vaultId = some context.id ∧ r.status = .failed))
    -- the paid-work cursor of these types survives the retry
    (fun r => requeued now (if r.jobType ∈ ["memory.extract", "memory.overview"]
      then r.progressJson else none) r)
    "job is not retryable"

def requestRestartTerminal (s : Store) (context : VaultContext) (id : JobId)
    (now : Int) : Except StateError Store := do
  ensureContext s.vaults context
  executeOne s
    (fun r => decide (r.id = id ∧ r.vaultId = some context.id ∧
      (r.status = .failed ∨ r.status = .cancelled)))
    (requeued now none) "job is not restartable"

/-- A worker's running jobs wait for a retry. -/
def releaseWorkerLeases (s : Store) (worker : String) (now : Int) :
    Except StateError Store := do
  validateWorker worker
  let (s', _) ← execute s
    (fun r => decide (r.leaseOwner = some worker ∧ r.status = .running))
    (fun r => { r with leaseOwner := none, leaseUntil := none,
                       status := .retryWait, updatedAt := now })
  pure s'

/-- The calls.  A crash is none: the lease runs out. -/
inductive Op where
  | enqueue (context : VaultContext) (i : EnqueueInput)
  | enqueueGlobal (i : EnqueueInput)
  | enqueueSingleton (context : VaultContext) (i : EnqueueInput)
  | claimBatch (worker : String) (now leaseUntil : Int) (limit : Nat)
  | updateProgress (id : JobId) (worker progress : String) (now : Int)
  | complete (id : JobId) (worker : String) (now : Int)
  | retryOrFail (id : JobId) (worker : String) (availableAt : Int)
      (error : String) (now : Int)
  | failPermanently (id : JobId) (worker error : String) (now : Int)
  | cancelClaimed (id : JobId) (worker : String) (now : Int)
  | releaseClaimed (id : JobId) (worker : String) (availableAt now : Int)
  | renewClaimed (id : JobId) (worker : String) (leaseUntil now : Int)
  | requestCancel (context : VaultContext) (id : JobId) (now : Int)
  | requestRetry (context : VaultContext) (id : JobId) (now : Int)
  | requestRestartTerminal (context : VaultContext) (id : JobId) (now : Int)
  | releaseWorkerLeases (worker : String) (now : Int)

/-- One call, with its effect on the tables. -/
def perform (s : Store) : Op → Except StateError Store
  | .enqueue context i => Prod.fst <$> enqueue s context i
  | .enqueueGlobal i => Prod.fst <$> enqueueGlobal s i
  | .enqueueSingleton context i => Prod.fst <$> enqueueSingleton s context i
  | .claimBatch worker now leaseUntil limit =>
    Prod.fst <$> claimBatch s worker now leaseUntil limit
  | .updateProgress id worker progress now =>
    updateProgress s id worker progress now
  | .complete id worker now => complete s id worker now
  | .retryOrFail id worker availableAt error now =>
    Prod.fst <$> retryOrFail s id worker availableAt error now
  | .failPermanently id worker error now => failPermanently s id worker error now
  | .cancelClaimed id worker now => cancelClaimed s id worker now
  | .releaseClaimed id worker availableAt now =>
    releaseClaimed s id worker availableAt now
  | .renewClaimed id worker leaseUntil now =>
    Prod.fst <$> renewClaimed s id worker leaseUntil now
  | .requestCancel context id now => requestCancel s context id now
  | .requestRetry context id now => requestRetry s context id now
  | .requestRestartTerminal context id now =>
    requestRestartTerminal s context id now
  | .releaseWorkerLeases worker now => releaseWorkerLeases s worker now

/-- A call that fails leaves the table as it was. -/
def step (s : Store) (op : Op) : Option Store :=
  match perform s op with
  | .ok s' => some s'
  | .error _ => some s

/-! ## Claimable again -/

variable {s s' : Store} {worker : String} {now leaseUntil : Int} {r : JobRow} {id : JobId}
  {limit : Nat} {w : JobRow → Bool} {op : Op}

/-- A claim finds the job late enough. -/
def Claimable (r : JobRow) : Prop :=
  ∃ t, ∀ now, t ≤ now → eligible now r

/-- Every unfinished job is claimable again. -/
def NoneStranded (s : Store) : Prop :=
  ∀ r ∈ s.jobs.rows, r.status.active → Claimable r

/-- An attempt is left, or the job is to be cancelled. -/
def live (r : JobRow) : Prop :=
  r.attempts < r.maxAttempts ∨ r.cancelRequested

/-- An attempt must be left; time merely delays. -/
theorem claimable_iff (hactive : r.status.active) : Claimable r ↔ live r := by
  constructor
  · rintro ⟨t, ht⟩
    have h := ht t (Int.le_refl t)
    have hlast := (Bool.and_eq_true_iff.mp h).2
    rcases Bool.or_eq_true_iff.mp hlast with hlt | hc
    · exact .inl (of_decide_eq_true hlt)
    · exact .inr hc
  · intro hlive
    have hattempt :
        (decide (r.attempts < r.maxAttempts) || r.cancelRequested) := by
      rcases hlive with hlt | hc
      · rw [decide_eq_true hlt]; rfl
      · rw [hc, Bool.or_true]
    refine ⟨max r.availableAt (r.leaseUntil.getD 0), fun now hnow => ?_⟩
    have havail : r.availableAt ≤ now := Int.le_trans (Int.le_max_left ..) hnow
    have hlease : r.leaseUntil.getD 0 ≤ now :=
      Int.le_trans (Int.le_max_right ..) hnow
    unfold eligible
    rw [hactive, decide_eq_true havail, hattempt]
    cases hl : r.leaseUntil with
    | none => rfl
    | some leaseUntil =>
      rw [hl] at hlease
      have hle : leaseUntil ≤ now := hlease
      simp only [decide_eq_true hle, Bool.and_self]

/-- What a row has to satisfy. -/
def Fine (r : JobRow) : Prop := r.status.active → live r

theorem noneStranded_iff : NoneStranded s ↔ ∀ r ∈ s.jobs.rows, Fine r := by
  constructor
  · intro h r hr hactive
    exact (claimable_iff hactive).mp (h r hr hactive)
  · intro h r hr hactive
    exact (claimable_iff hactive).mpr (h r hr hactive)

/-! ## One lemma per statement -/

variable {i : EnqueueInput} {q : JobRow} {f : JobRow → JobRow} {status : JobStatus}
  {claimed : List JobRow} {availableAt : Option Int} {error : Option String}
  {message : String} {context : VaultContext}

theorem execute_ok {n : Nat} (h : execute s w f = .ok (s', n)) :
    s'.vaults = s.vaults ∧ s'.jobs.rows = updateRows w f s.jobs.rows ∧
      n = s.jobs.rows.countP w := by
  unfold execute at h
  cases hu : s.jobs.update w f with
  | none =>
    rw [hu] at h
    cases h
  | some jobs =>
    rw [hu] at h
    cases h
    exact ⟨rfl, Table.update_rows hu, rfl⟩

theorem executeOne_ok (h : executeOne s w f message = .ok s') :
    s'.vaults = s.vaults ∧ s'.jobs.rows = updateRows w f s.jobs.rows := by
  obtain ⟨⟨t, n⟩, ht, h⟩ := bind_ok_iff.mp h
  obtain ⟨_, _, h⟩ := bind_ok_iff.mp h
  cases h
  exact ⟨(execute_ok ht).1, (execute_ok ht).2.1⟩

/-- Rows stay fine, and new ones are. -/
def Keeps (s s' : Store) : Prop :=
  (∀ r ∈ s.jobs.rows, Fine r) → ∀ r ∈ s'.jobs.rows, Fine r

theorem keeps_refl (s : Store) : Keeps s s := fun h => h

/-- An `UPDATE` is fine if it is so on each row. -/
theorem keeps_update (h : s'.jobs.rows = updateRows w f s.jobs.rows)
    (hf : ∀ r ∈ s.jobs.rows, w r → Fine r → Fine (f r)) : Keeps s s' := by
  intro hs
  rw [h]
  exact forall_updateRows hs hf

theorem maxAttempts_pos (hr : r ∈ s.jobs.rows) : 0 < r.maxAttempts := s.jobs.ok.2.2.2 r hr

theorem row_unique (hr : r ∈ s.jobs.rows) (hq : q ∈ s.jobs.rows) (h : r.id = q.id) : r = q :=
  s.jobs.ok.1.eq_of_key hr hq rfl (congrArg some h.symm)

theorem fine_of_terminal (h : r.status.active = false) : Fine r := by
  intro hactive
  rw [h] at hactive
  cases hactive

theorem enqueueInner_keeps {vaultId : Option VaultId}
    (h : enqueueInner s vaultId i = .ok (s', r)) : Keeps s s' := by
  obtain ⟨_, _, h⟩ := bind_ok_iff.mp h
  obtain ⟨_, hattempts, h⟩ := bind_ok_iff.mp h
  obtain ⟨_, _, h⟩ := bind_ok_iff.mp h
  have hpos : 0 < i.maxAttempts :=
    Nat.pos_of_ne_zero (of_decide_eq_true (require_ok hattempts)).1
  split at h
  · cases h
    exact keeps_refl s
  · split at h
    next jobs hins =>
      cases h
      intro hs q hq
      have hrows : jobs.rows = s.jobs.rows ++ [i.row vaultId] :=
        Table.insert_rows hins
      have hq' : q ∈ jobs.rows := hq
      rw [hrows] at hq'
      rcases mem_append.mp hq' with hq' | hq'
      · exact hs q hq'
      · rw [mem_singleton.mp hq']
        exact fun _ => .inl hpos
    next =>
      split at h
      · cases h
        exact keeps_refl s
      · cases h

theorem enqueue_keeps (h : enqueue s context i = .ok (s', r)) : Keeps s s' := by
  obtain ⟨_, _, h⟩ := bind_ok_iff.mp h
  exact enqueueInner_keeps h

theorem enqueueSingleton_keeps (h : enqueueSingleton s context i = .ok (s', r)) : Keeps s s' := by
  obtain ⟨found, _, h⟩ := bind_ok_iff.mp h
  cases found with
  | some existing =>
    cases h
    exact keeps_refl s
  | none =>
    cases he : enqueue s context i with
    | ok res =>
      simp only [he] at h
      cases h
      exact enqueue_keeps he
    | error error =>
      simp only [he] at h
      obtain ⟨again, _, h⟩ := bind_ok_iff.mp h
      cases again with
      | some existing =>
        cases h
        exact keeps_refl s
      | none => cases h

theorem finish_ok (h : finish s id worker status availableAt error now = .ok s') :
    s'.jobs.rows = updateRows (owned id worker)
      (finished status availableAt error now) s.jobs.rows := by
  obtain ⟨_, _, h⟩ := bind_ok_iff.mp h
  cases error with
  | none => exact (executeOne_ok h).2
  | some error =>
    obtain ⟨_, _, h⟩ := bind_ok_iff.mp h
    exact (executeOne_ok h).2

/-- Ending a claim in a terminal status strands nothing. -/
theorem finish_keeps (hstatus : status.active = false)
    (h : finish s id worker status availableAt error now = .ok s') : Keeps s s' :=
  keeps_update (finish_ok h) fun _ _ _ _ => fine_of_terminal hstatus

theorem retryOrFail_keeps {availableAt : Int} {error : String}
    (h : retryOrFail s id worker availableAt error now = .ok (s', status)) : Keeps s s' := by
  obtain ⟨_, _, h⟩ := bind_ok_iff.mp h
  split at h
  · cases h
  next job hfind =>
    split at h
    · cases h
    · obtain ⟨t, ht, h⟩ := bind_ok_iff.mp h
      cases h
      refine keeps_update (finish_ok ht) fun r hr hw _ => ?_
      have hjob : job ∈ s.jobs.rows := mem_of_find?_eq_some hfind
      have hid : job.id = id := by simpa using List.find?_some hfind
      have hrid : r.id = id := (of_decide_eq_true hw).1
      rw [row_unique hr hjob (hrid.trans hid.symm)]
      -- the status it wrote was chosen by looking at this very row
      by_cases hlast : job.maxAttempts ≤ job.attempts
      · rw [if_pos hlast]
        exact fine_of_terminal rfl
      · rw [if_neg hlast]
        exact fun _ => .inl (Nat.lt_of_not_le hlast)

theorem releaseClaimed_keeps {availableAt : Int}
    (h : releaseClaimed s id worker availableAt now = .ok s') : Keeps s s' := by
  obtain ⟨_, _, h⟩ := bind_ok_iff.mp h
  refine keeps_update (executeOne_ok h).2 fun r hr hw hfine _ => ?_
  obtain ⟨hown, hcancel⟩ := Bool.and_eq_true_iff.mp hw
  have hrun : r.status = .running := (of_decide_eq_true hown).2.1
  rcases hfine (by rw [hrun]; rfl) with hlt | hc
  · exact .inl (show r.attempts - 1 < r.maxAttempts by omega)
  · rw [hc] at hcancel
    cases hcancel

theorem requeued_keeps {progress : JobRow → Option String}
    (h : executeOne s w (fun r => requeued now (progress r) r) message = .ok s') : Keeps s s' := by
  refine keeps_update (executeOne_ok h).2 fun r hr _ _ _ => .inl ?_
  show 0 < r.maxAttempts
  exact maxAttempts_pos hr

theorem releaseWorkerLeases_keeps (h : releaseWorkerLeases s worker now = .ok s') : Keeps s s' := by
  obtain ⟨_, _, h⟩ := bind_ok_iff.mp h
  obtain ⟨⟨t, n⟩, ht, h⟩ := bind_ok_iff.mp h
  cases h
  refine keeps_update (execute_ok ht).2.1 fun r _ hw hfine _ => ?_
  have hrun : r.status = .running := (of_decide_eq_true hw).2
  exact hfine (by rw [hrun]; rfl)

theorem renewClaimed_keeps {lost : Bool}
    (h : renewClaimed s id worker leaseUntil now = .ok (s', lost)) : Keeps s s' := by
  obtain ⟨_, _, h⟩ := bind_ok_iff.mp h
  obtain ⟨_, _, h⟩ := bind_ok_iff.mp h
  obtain ⟨⟨t, n⟩, ht, h⟩ := bind_ok_iff.mp h
  cases h
  exact keeps_update (execute_ok ht).2.1 fun _ _ _ hfine => hfine

/-- **EVERY CALL BUT A CLAIM** keeps all rows fine. -/
theorem perform_keeps (hop : ∀ worker now leaseUntil limit,
      op ≠ .claimBatch worker now leaseUntil limit) (h : perform s op = .ok s') : Keeps s s' := by
  cases op with
  | enqueue context i =>
    obtain ⟨r, hr⟩ := map_fst_ok h
    exact enqueue_keeps hr
  | enqueueGlobal i =>
    obtain ⟨r, hr⟩ := map_fst_ok h
    exact enqueueInner_keeps hr
  | enqueueSingleton context i =>
    obtain ⟨r, hr⟩ := map_fst_ok h
    exact enqueueSingleton_keeps hr
  | claimBatch worker now leaseUntil limit =>
    exact absurd rfl (hop worker now leaseUntil limit)
  | updateProgress id worker progress now =>
    obtain ⟨_, _, h⟩ := bind_ok_iff.mp h
    obtain ⟨_, _, h⟩ := bind_ok_iff.mp h
    exact keeps_update (executeOne_ok h).2 fun _ _ _ hfine => hfine
  | complete id worker now =>
    have hfin : finish s id worker .completed none none now = .ok s' := h
    exact finish_keeps rfl hfin
  | retryOrFail id worker availableAt error now =>
    obtain ⟨r, hr⟩ := map_fst_ok h
    exact retryOrFail_keeps hr
  | failPermanently id worker error now =>
    obtain ⟨_, _, h⟩ := bind_ok_iff.mp h
    exact finish_keeps rfl h
  | cancelClaimed id worker now =>
    have hfin : finish s id worker .cancelled none (some "cancelled") now = .ok s' := h
    exact finish_keeps rfl hfin
  | releaseClaimed id worker availableAt now => exact releaseClaimed_keeps h
  | renewClaimed id worker leaseUntil now =>
    obtain ⟨r, hr⟩ := map_fst_ok h
    exact renewClaimed_keeps hr
  | requestCancel context id now =>
    obtain ⟨_, _, h⟩ := bind_ok_iff.mp h
    exact keeps_update (executeOne_ok h).2 fun _ _ _ _ _ => .inr rfl
  | requestRetry context id now =>
    obtain ⟨_, _, h⟩ := bind_ok_iff.mp h
    exact requeued_keeps h
  | requestRestartTerminal context id now =>
    obtain ⟨_, _, h⟩ := bind_ok_iff.mp h
    exact requeued_keeps h
  | releaseWorkerLeases worker now => exact releaseWorkerLeases_keeps h

/-! ## The claim -/

/-- The rows a claim reserves, all at once. -/
def reserved (ids : List JobId) (now : Int) (r : JobRow) : Bool :=
  decide (r.id ∈ ids) && eligible now r

/-- A claimed row is not eligible again. -/
theorem claim_not_eligible (hlease : now < leaseUntil) (r : JobRow) :
    eligible now (claim worker now leaseUntil r) = false := by
  have hno : ¬ leaseUntil ≤ now := Int.not_le.mpr hlease
  simp [eligible, claim, hno]

/-- A claim touches no key, so it breaks no constraint. -/
theorem claim_jobsOk {rows : List JobRow} (h : JobsOk rows)
    (hw : ∀ r ∈ rows, w r → r.status.active) :
    JobsOk (updateRows w (claim worker now leaseUntil) rows) := by
  obtain ⟨hid, hscope, hsingle, hmax⟩ := h
  refine ⟨hid.updateRows fun _ _ _ => .inl rfl,
    hscope.updateRows fun _ _ _ => .inl rfl, hsingle.updateRows ?_,
    forall_updateRows hmax fun _ _ _ hpos => hpos⟩
  intro r hr hsel
  refine .inl ?_
  unfold singletonKey
  rw [hw r hr hsel]
  rfl

theorem eligible_active (h : eligible now r) : r.status.active := by
  unfold eligible at h
  simp only [Bool.and_eq_true] at h
  exact h.1.1.1

/-- Reserving a row and then the rest reserves them all. -/
theorem reserved_cons (worker : String) (hlease : now < leaseUntil) (id : JobId) (ids : List JobId)
    (r : JobRow) :
    (fun q => if reserved ids now q then claim worker now leaseUntil q else q)
      (if decide (r.id = id) && eligible now r then claim worker now leaseUntil r
        else r) =
      if reserved (id :: ids) now r then claim worker now leaseUntil r
        else r := by
  by_cases he : eligible now r
  · by_cases hid : r.id = id
    · simp [reserved, he, hid, claim_not_eligible hlease]
    · simp [reserved, hid]
  · simp [reserved, he]

/-- The loop does what one `UPDATE` would do. -/
theorem reserve_ok (worker : String) (hlease : now < leaseUntil) (cs : List JobRow) :
    ∀ s : Store, ∃ s' claimed, reserve worker now leaseUntil s cs = .ok (s', claimed) ∧
      s'.vaults = s.vaults ∧
      s'.jobs.rows = updateRows (reserved (cs.map (·.id)) now)
        (claim worker now leaseUntil) s.jobs.rows := by
  induction cs with
  | nil =>
    intro s
    refine ⟨s, [], rfl, rfl, (updateRows_of_none fun r _ => ?_).symm⟩
    rfl
  | cons c cs ih =>
    intro s
    have hok : JobsOk (updateRows (fun r => decide (r.id = c.id) && eligible now r)
        (claim worker now leaseUntil) s.jobs.rows) :=
      claim_jobsOk s.jobs.ok fun r _ hw =>
        eligible_active (Bool.and_eq_true_iff.mp hw).2
    obtain ⟨s', claimed, hres, hvaults, hrows⟩ := ih
      { s with jobs := ⟨_, hok⟩ }
    have hexec : execute s (fun r => decide (r.id = c.id) && eligible now r)
        (claim worker now leaseUntil) =
        .ok ({ s with jobs := ⟨_, hok⟩ }, s.jobs.rowsAffected
          fun r => decide (r.id = c.id) && eligible now r) := by
      unfold execute Table.update
      rw [Table.store_of_ok hok]
    refine ⟨s', _, by simp only [reserve, hexec, hres, bind, Except.bind]; rfl, hvaults, ?_⟩
    rw [hrows]
    show updateRows _ _ (updateRows _ _ s.jobs.rows) = _
    unfold updateRows
    rw [map_map]
    exact map_congr_left fun r _ =>
      reserved_cons worker hlease c.id (cs.map JobRow.id) r

/-- The checks `claim_batch` makes on its arguments. -/
def claimArguments (worker : String) (now leaseUntil : Int) (limit : Nat) :
    Prop :=
  boundedText 128 worker ∧ now < leaseUntil ∧ limit ≠ 0 ∧ limit ≤ 128

theorem mem_candidates {c : JobRow} (h : c ∈ candidates s now limit) :
    c ∈ s.jobs.rows ∧ eligible now c := by
  have hsort := mem_of_mem_take h
  rw [mem_insertionSort] at hsort
  exact mem_filter.mp hsort

/-- A row is reserved exactly when it was selected. -/
theorem reserved_iff (hr : r ∈ s.jobs.rows) :
    reserved ((candidates s now limit).map (·.id)) now r ↔
      r ∈ candidates s now limit := by
  unfold reserved
  rw [Bool.and_eq_true_iff, decide_eq_true_iff, mem_map]
  constructor
  · rintro ⟨⟨c, hc, hid⟩, _⟩
    rw [← row_unique (mem_candidates hc).1 hr hid]
    exact hc
  · intro hc
    exact ⟨⟨r, hc, rfl⟩, (mem_candidates hc).2⟩

theorem claimBatch_ok (h : claimArguments worker now leaseUntil limit) :
    ∃ s' claimed, claimBatch s worker now leaseUntil limit = .ok (s', claimed) ∧
      s'.jobs.rows = updateRows
        (reserved ((candidates s now limit).map (·.id)) now)
        (claim worker now leaseUntil) s.jobs.rows := by
  obtain ⟨hworker, hlease, hzero, hmax⟩ := h
  obtain ⟨s', claimed, hres, _, hrows⟩ :=
    reserve_ok worker hlease (candidates s now limit) s
  refine ⟨s', claimed, ?_, hrows⟩
  unfold claimBatch validateWorker validateLease validateBatch require
  rw [hworker, decide_eq_true hlease, decide_eq_true ⟨hzero, hmax⟩]
  exact hres

theorem claimArguments_of_ok (h : claimBatch s worker now leaseUntil limit = .ok (s', claimed)) :
    claimArguments worker now leaseUntil limit := by
  obtain ⟨_, hworker, h⟩ := bind_ok_iff.mp h
  obtain ⟨_, hlease, h⟩ := bind_ok_iff.mp h
  obtain ⟨_, hbatch, h⟩ := bind_ok_iff.mp h
  exact ⟨require_ok hworker, of_decide_eq_true (require_ok hlease),
    of_decide_eq_true (require_ok hbatch)⟩

/-- No claim of a job's last attempt. -/
def LeavesAnAttempt (s : Store) (op : Op) (_ : Store) : Prop :=
  match op with
  | .claimBatch worker now leaseUntil limit =>
    claimArguments worker now leaseUntil limit →
    ∀ c ∈ candidates s now limit, c.attempts + 1 < c.maxAttempts ∨ c.cancelRequested
  | _ => True

/-- **WHERE A CLAIM STRANDS A JOB**: at its last attempt. -/
theorem claimBatch_strands_iff (hs : ∀ r ∈ s.jobs.rows, Fine r)
    (h : claimBatch s worker now leaseUntil limit = .ok (s', claimed)) :
    (∀ r ∈ s'.jobs.rows, Fine r) ↔ ∀ c ∈ candidates s now limit,
      c.attempts + 1 < c.maxAttempts ∨ c.cancelRequested := by
  obtain ⟨t, _, ht, hrows⟩ := claimBatch_ok (claimArguments_of_ok h)
  cases h.symm.trans ht
  rw [hrows]
  constructor
  · intro hfine c hc
    have hmem := (mem_candidates hc).1
    exact hfine (claim worker now leaseUntil c)
      (mem_updateRows.mpr ⟨c, hmem, .inl ⟨(reserved_iff hmem).mpr hc, rfl⟩⟩) rfl
  · intro hleft
    exact forall_updateRows hs fun r hr hw _ _ => hleft r ((reserved_iff hr).mp hw)

theorem step_strands_iff (hs : NoneStranded s) (h : step s op = some s')
    : NoneStranded s' ↔ LeavesAnAttempt s op s' := by
  have hfine := noneStranded_iff.mp hs
  unfold step at h
  cases hp : perform s op with
  | error e =>
    rw [hp] at h
    cases h
    refine ⟨fun _ => ?_, fun _ => hs⟩
    cases op with
    | claimBatch worker now leaseUntil limit =>
      -- arguments that pass the checks do not fail
      intro hargs
      obtain ⟨t, claimed, ht, _⟩ := claimBatch_ok hargs
      have hok : perform s (.claimBatch worker now leaseUntil limit) =
          .ok t := by
        show Prod.fst <$> claimBatch s worker now leaseUntil limit = .ok t
        rw [ht]
        rfl
      rw [hp] at hok
      cases hok
    | _ => trivial
  | ok t =>
    rw [hp] at h
    cases h
    rw [noneStranded_iff]
    by_cases hop : ∃ worker now leaseUntil limit, op = .claimBatch worker now leaseUntil limit
    · obtain ⟨worker, now, leaseUntil, limit, rfl⟩ := hop
      obtain ⟨claimed, hclaim⟩ := map_fst_ok hp
      rw [claimBatch_strands_iff hfine hclaim]
      exact ⟨fun hleft _ => hleft, fun hleft => hleft (claimArguments_of_ok hclaim)⟩
    · have hkeeps : Keeps s s' := perform_keeps
        (fun worker now leaseUntil limit heq =>
          hop ⟨worker, now, leaseUntil, limit, heq⟩) hp
      refine ⟨fun _ => ?_, fun _ => hkeeps hfine⟩
      cases op with
      | claimBatch worker now leaseUntil limit =>
        exact absurd ⟨worker, now, leaseUntil, limit, rfl⟩ hop
      | _ => trivial

/-! ## A claimable job can still finish -/

theorem step_of_ok (h : perform s op = .ok s') : step s op = some s' := by
  unfold step
  rw [h]

theorem run_cons {t u : Store} {ops : List Op} (h : step s op = some t)
    (h' : run step t ops = some u) : run step s (op :: ops) = some u := by
  show (step s op).bind (fun x => run step x ops) = some u
  rw [h]
  exact h'

/-- Claims of one come to every eligible job. -/
theorem claimed_eventually (hworker : boundedText 128 worker) (n : Nat) :
    ∀ (s : Store) (r : JobRow), s.jobs.rows.countP (eligible now) = n →
      r ∈ s.jobs.rows → eligible now r →
      ∃ ops s', run step s ops = some s' ∧
        ∃ q ∈ s'.jobs.rows, owned r.id worker q := by
  induction n using Nat.strong_induction_on with
  | _ n ih =>
    intro s r hn hr he
    obtain ⟨s', claimed, hclaim, hrows⟩ := claimBatch_ok
      (show claimArguments worker now (now + 1) 1 from
        ⟨hworker, Int.lt_succ now, by decide, by decide⟩)
    have hstep : step s (.claimBatch worker now (now + 1) 1) = some s' := by
      refine step_of_ok ?_
      show Prod.fst <$> claimBatch s worker now (now + 1) 1 = .ok s'
      rw [hclaim]
      rfl
    by_cases hsel : r ∈ candidates s now 1
    · refine ⟨[_], s', run_cons hstep rfl, claim worker now (now + 1) r, ?_, ?_⟩
      · rw [hrows]
        exact mem_updateRows.mpr
          ⟨r, hr, .inl ⟨(reserved_iff hr).mpr hsel, rfl⟩⟩
      · exact decide_eq_true ⟨rfl, rfl, rfl⟩
    · -- another job went first
      obtain ⟨c, hc⟩ : ∃ c, c ∈ candidates s now 1 := by
        have hmem : r ∈ (s.jobs.rows.filter (eligible now)).insertionSort
            (precedes (s.jobs.rows.filter (eligible now))) := by
          rw [mem_insertionSort]
          exact mem_filter.mpr ⟨hr, he⟩
        obtain ⟨c, cs, hcs⟩ := exists_cons_of_ne_nil
          (ne_nil_of_mem hmem)
        refine ⟨c, ?_⟩
        unfold candidates
        simp only [hcs]
        exact mem_cons_self
      obtain ⟨hcr, hce⟩ := mem_candidates hc
      have hlt : s'.jobs.rows.countP (eligible now) < n := by
        rw [hrows, ← hn]
        exact countP_updateRows_lt
          (fun q _ _ => claim_not_eligible (Int.lt_succ now) q) hcr
          ((reserved_iff hcr).mpr hc) hce
      have hr' : r ∈ s'.jobs.rows := by
        rw [hrows]
        refine mem_updateRows.mpr ⟨r, hr, .inr ⟨?_, rfl⟩⟩
        exact Bool.eq_false_iff.mpr fun h => hsel ((reserved_iff hr).mp h)
      obtain ⟨ops, u, hrun, hq⟩ := ih _ hlt s' r rfl hr' he
      exact ⟨_, u, run_cons hstep hrun, hq⟩

/-- The holder of a lease can complete its job. -/
theorem complete_ok (now : Int) (hworker : boundedText 128 worker) (hq : q ∈ s.jobs.rows)
    (hown : owned id worker q) :
    ∃ s', complete s id worker now = .ok s' ∧
      finished .completed none none now q ∈ s'.jobs.rows := by
  obtain ⟨hid, hscope, hsingle, hmax⟩ := s.jobs.ok
  have hok : JobsOk (updateRows (owned id worker)
      (finished .completed none none now) s.jobs.rows) :=
    ⟨hid.updateRows fun _ _ _ => .inl rfl, hscope.updateRows fun _ _ _ => .inl rfl,
      hsingle.updateRows fun _ _ _ => .inr rfl,
      forall_updateRows hmax fun _ _ _ hpos => hpos⟩
  have hone : s.jobs.rows.countP (owned id worker) = 1 :=
    hid.countP_eq_one hq hown fun p hp =>
      congrArg some (of_decide_eq_true hp).1
  refine ⟨{ s with jobs := ⟨_, hok⟩ }, ?_, ?_⟩
  · unfold complete finish validateWorker executeOne execute Table.update
      Table.rowsAffected require
    rw [hworker, Table.store_of_ok hok, hone]
    rfl
  · exact mem_updateRows.mpr ⟨q, hq, .inl ⟨hown, rfl⟩⟩

/-- From a claimable job calls lead to a terminal status. -/
theorem terminal_reachable (hr : r ∈ s.jobs.rows) (h : Claimable r) :
    ∃ ops s', run step s ops = some s' ∧
      (∃ q ∈ s'.jobs.rows, q.id = r.id ∧ q.status.active = false) ∧
      ∀ context jobType q, findActiveByType s' context jobType = .ok (some q) →
        q.id ≠ r.id := by
  obtain ⟨now, hnow⟩ := h
  have hworker : boundedText 128 "worker" := by decide
  obtain ⟨ops, s₁, hrun, q, hq, hown⟩ :=
    claimed_eventually hworker _ s r rfl hr (hnow now (Int.le_refl now))
  obtain ⟨s₂, hcomplete, hmem⟩ := complete_ok now hworker hq hown
  have hid : q.id = r.id := (of_decide_eq_true hown).1
  refine ⟨ops ++ [.complete r.id "worker" now], s₂, ?_, ⟨_, hmem, hid, rfl⟩, ?_⟩
  · rw [run_append, hrun]
    exact run_cons (step_of_ok hcomplete) rfl
  · intro context jobType p hfind heq
    obtain ⟨_, _, hfind⟩ := bind_ok_iff.mp hfind
    obtain ⟨_, _, hfind⟩ := bind_ok_iff.mp hfind
    have hfound : List.find? _ (s₂.jobs.rows.filter _) = some p :=
      Except.ok.inj hfind
    obtain ⟨hp, hactive⟩ := mem_filter.mp (mem_of_find?_eq_some hfound)
    have hsame := row_unique hp hmem (heq.trans hid.symm)
    rw [hsame] at hactive
    exact absurd (of_decide_eq_true hactive).2.2 Bool.false_ne_true

/-- **NO JOB IS STRANDED** where claims leave an attempt or take a cancelled job: each job can
    be claimed late enough and finished.  The first other claim strands one. -/
theorem no_job_stranded {vaults : List VaultContext} {s : Store}
    (h : Reach step LeavesAnAttempt (Store.empty vaults) s) :
    (∀ r ∈ s.jobs.rows, r.status.active → Claimable r ∧ ∃ ops s', run step s ops = some s' ∧
        (∃ q ∈ s'.jobs.rows, q.id = r.id ∧ q.status.active = false) ∧
        ∀ context jobType q, findActiveByType s' context jobType = .ok (some q) → q.id ≠ r.id) ∧
    ∀ op s', step s op = some s' →
      (NoneStranded s' ↔ LeavesAnAttempt s op s') := by
  have hnone : NoneStranded s := by
    refine h.invariant (fun _ _ _ hs hstep hleft => ?_) fun _ hr => nomatch hr
    exact (step_strands_iff hs hstep).mpr hleft
  refine ⟨fun r hr hactive => ?_, fun op s' hstep => step_strands_iff hnone hstep⟩
  have hclaim := hnone r hr hactive
  exact ⟨hclaim, terminal_reachable hr hclaim⟩

/-- A Vault and a job with a single permitted attempt. -/
def notes : VaultContext := ⟨1, "notes", "/vaults/notes"⟩

def oneAttempt : EnqueueInput :=
  ⟨"vault.reconcile", "vault:1:reconcile", "null", 0, 1, 0, 7, 0⟩

/-- A job with two attempts is claimable during the first. -/
theorem no_job_stranded_first_of_two : ∃ s, Reach step LeavesAnAttempt (Store.empty [notes]) s ∧
      (∃ r ∈ s.jobs.rows, r.status = .running ∧ r.attempts = 1) ∧
      ∀ r ∈ s.jobs.rows, r.status.active → Claimable r := by
  have hfirst : step (Store.empty [notes])
      (.enqueue notes { oneAttempt with maxAttempts := 2 }) = some _ := rfl
  have hreach : Reach step LeavesAnAttempt (Store.empty [notes]) _ :=
    (Reach.refl.tail hfirst trivial).tail
      (a := .claimBatch "worker" 0 60 8) rfl fun _ => by decide
  exact ⟨_, hreach, by decide, fun r hr hactive =>
    ((no_job_stranded hreach).1 r hr hactive).1⟩

/-- The only attempt, and its worker dies. -/
theorem last_attempt_stranded :
    ¬ ∀ s, Reach step Always (Store.empty [notes]) s → NoneStranded s := by
  intro hall
  have hrun : run step (Store.empty [notes])
      [.enqueue notes oneAttempt, .claimBatch "worker" 0 60 8] = some _ := rfl
  have hnone := noneStranded_iff.mp (hall _ (Reach.of_run hrun))
  have hlive := hnone _ mem_cons_self rfl
  rcases hlive with hlt | hcancel
  · exact absurd hlt (by decide)
  · cases hcancel

end JobQueue
