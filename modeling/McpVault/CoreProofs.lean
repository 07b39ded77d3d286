import McpVault.FileStoreProofs
import McpVault.MaintenanceGateProofs
import McpVault.PatchProofs
import McpVault.ProgramProofs
import McpVault.StorageProofs

/-! # Vault Core — the calls it makes and what answers them

Every operation is a sequence of calls to the maintenance gate, the lock table, storage, the
history store and the file repository.  This file has the calls, and the world of one Vault that
answers them.  What the host decides (clock, time stamps, inodes) is a parameter of the
environment. -/

namespace VaultCore

open VaultDomain FileStore VaultStorage Program
open MaintenanceGate (MaintenanceMode)

/-- The errors of Vault Core. -/
inductive VaultError where
  | domain (error : DomainError)
  | state (error : StateError)
  | storage (error : StorageError)
  | vaultNotRegistered
  | contextMismatch
  | alreadyExists
  | notFound
  | externalMismatch
  | inFlight
  | idempotencyConflict
  | invalidPatch (message : String)
  | binaryTextOperation
  | needsReview
  | maintenance
  | revisionConflict (expected current : Revision) (currentHash : Option String)
  deriving DecidableEq

/-- What finishes an operation after a restart. -/
structure CorePayload where
  operationId : OperationId
  fileId : FileId
  entryType : EntryType
  operation : FileOperation
  path : VaultPath
  (pathBefore pathAfter : Option VaultPath)
  expectedRevision : Option Revision
  requireAbsent : Bool
  tombstoneArchivePath : Option VaultPath
  (contentHash historyBlobHash : Option String)
  size : Nat
  modifiedAt : Option Int
  filesystemIdentity : Option String
  deletedAt : Option Int
  actor : Actor
  sourcePlane : SourcePlane
  idempotencyKey : Option String
  auditAction : String
  outboxEvents : List OutboxEventInput

/-- The payload column, if it reads as a `CorePayload`. -/
abbrev StoredPayload := Option CorePayload

/-- The accessors see every key of a payload. -/
instance : PayloadAccess StoredPayload where
  view payload := payload.map fun p =>
    { operation := some p.operation, fileId := some p.fileId, path := some p.path,
      contentHash := p.contentHash, size := some p.size,
      operationId := some p.operationId, entryType := some p.entryType,
      pathBeforeNull := p.pathBefore.isNone, pathAfter := p.pathAfter,
      deletedAtNull := p.deletedAt.isNone, requireAbsent := some p.requireAbsent }

def CorePayload.prepareInput (p : CorePayload) (operationId : OperationId)
    (sourcePath tempPath : Option VaultPath) (priorHash proposedHash : Option String) :
    PrepareOperationInput StoredPayload where
  id := operationId
  operation := p.operation
  sourcePath
  destinationPath := some p.path
  priorFileId := some p.fileId
  expectedRevision := p.expectedRevision
  priorHash
  proposedHash
  tempPath
  payload := some p
  idempotencyKey := p.idempotencyKey

/-- What a payload says to commit. -/
def CorePayload.toCommitInput (p : CorePayload) (now : Int) : CommitMutationInput where
  operationId := p.operationId
  fileId := p.fileId
  entryType := p.entryType
  path := p.path
  pathBefore := p.pathBefore
  pathAfter := p.pathAfter
  expectedRevision := p.expectedRevision
  requireAbsent := p.requireAbsent
  tombstoneArchivePath := p.tombstoneArchivePath
  contentHash := p.contentHash
  historyBlobHash := p.historyBlobHash
  size := p.size
  modifiedAt := p.modifiedAt.getD now
  filesystemIdentity := p.filesystemIdentity
  deletedAt := p.deletedAt
  operation := p.operation
  actor := p.actor
  sourcePlane := p.sourcePlane
  idempotencyKey := p.idempotencyKey
  auditAction := p.auditAction
  outboxEvents := p.outboxEvents

/-- Requests are the same if these six agree. -/
def sameRequestSignature (stored : StoredPayload) (payload : CorePayload) : Bool :=
  match stored with
  | none => false
  | some p => decide (p.operation = payload.operation ∧ p.path = payload.path ∧
      p.pathBefore = payload.pathBefore ∧ p.pathAfter = payload.pathAfter ∧
      p.expectedRevision = payload.expectedRevision ∧
      p.requireAbsent = payload.requireAbsent)

/-! ## The world of one Vault -/

inductive VaultStatus where
  | active
  | maintenance
  | disabled
  | error
  deriving DecidableEq

/-- The Vault as `validate_registered_context` reads it. -/
structure VaultRecord where
  (slug contentRoot : String)
  status : VaultStatus

/-- Namespace claims have a lock, and each path key. -/
inductive LockKey where
  | claims
  | path (key : VaultPath)
  deriving DecidableEq

/-- What does not change while the process runs. -/
structure Env where
  context : VaultContext
  policy : PathPolicy
  hasher : ContentHasher
  clock : Nat → Int
  times : HostTimes
  identity : Nat → Option String

/-- Lock holders, answers so far, the next id. -/
structure World where
  mode : MaintenanceMode
  registered : Option VaultRecord
  db : Store StoredPayload
  tree : Tree
  history : List (String × Bytes)
  locks : List (LockKey × Nat)
  (tick fresh : Nat)

/-- The calls of Vault Core, by the answer they get. -/
inductive Call : Type → Type where
  | validateContext (write : Bool) : Call (Except VaultError Unit)
  | lock (key : LockKey) : Call Unit
  | unlock (key : LockKey) : Call Unit
  | newId : Call Nat
  | nowMillis : Call Int
  -- storage
  | stat (path : VaultPath) (managed : Bool) : Call (Except StorageError FileMetadata)
  | openRead (path : VaultPath) (managed : Bool) : Call (Except StorageError Bytes)
  | hashFile (path : VaultPath) (managed : Bool) : Call (Except StorageError (Nat × String))
  | ensureDirectory (path : VaultPath) (leaf : Bool) : Call (Except StorageError Unit)
  | prepareTemp (temp : VaultPath) : Call (Except StorageError Unit)
  | writeChunk (temp : VaultPath) (chunk : Bytes) : Call (Except StorageError Unit)
  | sync (temp : VaultPath) : Call (Except StorageError Unit)
  | commitTemp (temp path : VaultPath) (policy : DestinationPolicy) :
      Call (Except StorageError Unit)
  | cleanupTemp (temp : VaultPath) : Call Unit
  | moveEntry (source destination : VaultPath) : Call (Except StorageError Unit)
  | deleteEntry (path : VaultPath) (managed : Bool) : Call (Except StorageError Unit)
  | removeTemporary (temp : VaultPath) : Call (Except StorageError Unit)
  -- the history store
  | historyContains (hash : String) : Call Bool
  | historyPut (bytes : Bytes) : Call String
  | historyOpen (hash : String) : Call (Except StorageError Bytes)
  -- the file repository
  | getAnyByPath (path : VaultPath) : Call (Option FileRow)
  | getActive (path : VaultPath) : Call (Option FileRow)
  | listActiveEntries : Call (List FileRow)
  | getRevision (fileId : FileId) (revision : Revision) : Call (Option RevisionRow)
  | findIdempotency (key : String) :
      Call (Except StateError (Option (IdempotencyLookup StoredPayload)))
  | listIncomplete : Call (List (JournalRow StoredPayload))
  | prepareOperation (input : PrepareOperationInput StoredPayload) : Call (Except StateError Unit)
  | updateOperationPayload (id : OperationId) (payload : CorePayload) :
      Call (Except StateError Unit)
  | markFileCommitted (id : OperationId) (hash : Option String) : Call (Except StateError Unit)
  | markRolledBack (id : OperationId) (reason : String) : Call (Except StateError Unit)
  | markNeedsReview (id : OperationId) (reason : String) : Call (Except StateError Unit)
  | commitMutation (payload : CorePayload) : Call (Except StateError MutationCommitResult)
  | supersedeReplayedCreate (witness : SupersedeCreateWitness) :
      Call (Except StateError SupersedeCreateResult)

/-! ## The answers -/

/-- The gate, then the registered context. -/
def validateContext (env : Env) (w : World) (write : Bool) : Except VaultError Unit :=
  if MaintenanceGate.allowed write w.mode = false then .error .maintenance
  else
    match w.registered with
    | none => .error .vaultNotRegistered
    | some record =>
      if record.slug ≠ env.context.slug ∨ record.contentRoot ≠ env.context.contentRoot then
        .error .contextMismatch
      else if write ∧ record.status ≠ .active then .error .maintenance
      else .ok ()

/-- A repository write: the transaction, or nothing. -/
def World.stored (w : World) (r : Except StateError (Store StoredPayload)) :
    Except StateError Unit × World :=
  match r with
  | .ok db => (.ok (), { w with db, tick := w.tick + 1 })
  | .error e => (.error e, { w with tick := w.tick + 1 })

/-- A storage change: the new tree, or nothing. -/
def World.changed (w : World) (r : Except StorageError Tree) : Except StorageError Unit × World :=
  match r with
  | .ok tree => (.ok (), { w with tree, tick := w.tick + 1 })
  | .error e => (.error e, { w with tick := w.tick + 1 })

def historyPut (env : Env) (history : List (String × Bytes)) (bytes : Bytes) :
    List (String × Bytes) :=
  if (history.lookup (env.hasher.digest bytes)).isSome then history
  else (env.hasher.digest bytes, bytes) :: history

/-- One answer of the world to the task `task`. -/
def exec (env : Env) (task : Nat) : Handler Call World
  | _, .validateContext write, w => (validateContext env w write, w)
  | _, .lock key, w => ((), { w with locks := (key, task) :: w.locks })
  | _, .unlock key, w => ((), { w with locks := w.locks.erase (key, task) })
  | _, .newId, w => (w.fresh, { w with fresh := w.fresh + 1 })
  | _, .nowMillis, w => (env.clock w.tick, { w with tick := w.tick + 1 })
  | _, .stat path managed, w => (stat env.policy env.times w.tree path managed, w)
  | _, .openRead path managed, w => (openRead env.policy w.tree path managed, w)
  | _, .hashFile path managed, w =>
    ((openRead env.policy w.tree path managed).map fun bytes =>
      (bytes.length, env.hasher.digest bytes), w)
  | _, .ensureDirectory path leaf, w =>
    w.changed (ensureDirectory w.tree path leaf (env.identity w.tick))
  | _, .prepareTemp temp, w => w.changed (prepareTemp w.tree temp (env.identity w.tick))
  | _, .writeChunk temp chunk, w => w.changed (writeChunk w.tree temp chunk)
  | _, .sync _, w => (.ok (), w)
  | _, .commitTemp temp path policy, w =>
    let r := commitTemp w.tree temp path policy
    (r.1, { w with tree := r.2 })
  | _, .cleanupTemp temp, w => ((), { w with tree := cleanupTemp w.tree temp })
  | _, .moveEntry source destination, w =>
    w.changed (moveEntry env.policy w.tree source destination)
  | _, .deleteEntry path managed, w =>
    w.changed (deleteEntry env.policy w.tree path managed)
  | _, .removeTemporary temp, w => w.changed (removeTemporary w.tree temp)
  | _, .historyContains hash, w => ((w.history.lookup hash).isSome, w)
  | _, .historyPut bytes, w =>
    (env.hasher.digest bytes, { w with history := historyPut env w.history bytes })
  | _, .historyOpen hash, w =>
    (match w.history.lookup hash with
      | some bytes => .ok bytes
      | none => .error .historyNotFound, w)
  | _, .getAnyByPath path, w => (w.db.getAny env.context.id path, w)
  | _, .getActive path, w => (w.db.getActive env.context.id path, w)
  | _, .listActiveEntries, w => (w.db.listActiveEntries env.context.id, w)
  | _, .getRevision fileId revision, w =>
    (w.db.getRevision env.context.id fileId revision, w)
  | _, .findIdempotency key, w => (findIdempotency w.db env.context.id key, w)
  | _, .listIncomplete, w => (listIncomplete w.db env.context.id, w)
  | _, .prepareOperation input, w =>
    w.stored (prepareOperation w.db env.context.id input (env.clock w.tick))
  | _, .updateOperationPayload id payload, w =>
    w.stored (updateOperationPayload w.db env.context.id id (some payload)
      payload.contentHash (env.clock w.tick))
  | _, .markFileCommitted id hash, w =>
    w.stored (markFileCommitted w.db env.context.id id hash (env.clock w.tick))
  | _, .markRolledBack id reason, w =>
    w.stored (markRolledBack w.db env.context.id id (some reason) (env.clock w.tick))
  | _, .markNeedsReview id reason, w =>
    w.stored (markNeedsReview w.db env.context.id id reason (env.clock w.tick))
  | _, .commitMutation payload, w =>
    match commitMutation w.db env.context.id (payload.toCommitInput (env.clock w.tick))
        (fun _ => .ok ()) (env.clock (w.tick + 1)) with
    | .ok (db, result) => (.ok result, { w with db, tick := w.tick + 2 })
    | .error e => (.error e, { w with tick := w.tick + 2 })
  | _, .supersedeReplayedCreate witness, w =>
    match supersedeReplayedCreate w.db env.context.id witness (env.clock w.tick) with
    | .ok (db, result) => (.ok result, { w with db, tick := w.tick + 1 })
    | .error e => (.error e, { w with tick := w.tick + 1 })

/-! ## Errors of the layers below, as Core reports them -/

def storageNotFound : StorageError → Bool
  | .sourceNotFound | .historyNotFound | .io _ .notFound => true
  | _ => false

/-- How a storage failure is reported. -/
def mapStorage (error : StorageError) : VaultError :=
  if storageNotFound error then .notFound
  else
    match error with
    | .domain error => .domain error
    | .destinationExists => .alreadyExists
    | other => .storage other

def contains (text part : String) : Bool := decide (part.toList <:+: text.toList)

/-- How a repository failure is reported. -/
def mapState (error : StateError) : VaultError :=
  match error with
  | .invalidDomain (.revisionConflict expected current) =>
    .revisionConflict expected current none
  | .invalidDomain (.preconditionFailed reason) =>
    if contains reason "already exists" || contains reason "destination" then
      .alreadyExists
    else if contains reason "does not exist" then .notFound
    else .state error
  | other => .state other

/-- A procedure of Vault Core. -/
abbrev Core (α : Type) := Prog Call VaultError α

structure MutationResult where
  etag : String
  file : FileRow
  revision : RevisionRow
  deriving DecidableEq

def etag (file : FileRow) : String :=
  "\"" ++ toString file.currentRevision ++ "-" ++ file.contentHash.getD "directory" ++ "\""

def mutationResult (file : FileRow) (revision : RevisionRow) : MutationResult :=
  ⟨etag file, file, revision⟩

/-! ## Steps that the operations share -/

def eventFor (eventType : String) (fileId : FileId) : List OutboxEventInput :=
  [⟨eventType, "file", toString fileId⟩]

/-- The outbox event of an operation. -/
def eventTypeFor : FileOperation → String
  | .create => "FileCreated"
  | .move => "FileMoved"
  | .delete => "FileDeleted"
  | .restore => "FileRestored"
  | _ => "FileUpdated"

def entryKind : EntryType → EntryKind
  | .file => .regularFile
  | .directory => .directory

/-- The locks, one after the other. -/
def lockAll : List LockKey → Core Unit
  | [] => pure ()
  | key :: rest => do
    perform (.lock key)
    lockAll rest

def unlockAll : List LockKey → Core Unit
  | [] => pure ()
  | key :: rest => do
    perform (.unlock key)
    unlockAll rest

/-- `acquire_locks`: sorted, dropped at the end. -/
def withLocks {α : Type} (env : Env) (paths : List VaultPath) (body : Core α) : Core α :=
  let keys := ((paths.map env.policy.comparisonKey).insertionSort
    fun a b => pathText a ≤ pathText b).dedup.map LockKey.path
  bracket (lockAll keys) (unlockAll keys) body

/-- `acquire_namespace_lock`, to claim an absent path. -/
def withNamespaceLock {α : Type} (claims : Bool) (body : Core α) : Core α :=
  if claims then bracket (lockAll [.claims]) (unlockAll [.claims]) body else body

def requireActiveFile (path : VaultPath) : Core FileRow := do
  let file ← perform (.getActive path)
  orFail .notFound file

def requireRevision (file : FileRow) (expected : Revision) : Core Unit :=
  check (decide (file.currentRevision = expected))
    (.revisionConflict expected file.currentRevision file.contentHash)

/-- The bytes on disk have the recorded hash, if any. -/
def verifyHash (file : FileRow) (managed : Bool) : Core Unit :=
  match file.contentHash with
  | none => pure ()
  | some expected => do
    let hashed ← demand (.hashFile file.path managed) mapStorage
    check (decide (hashed.2 = expected)) .externalMismatch

/-- The file on disk is the one the row describes. -/
def verifyCurrent (file : FileRow) (managed : Bool) : Core FileMetadata := do
  let metadata ← demand (.stat file.path managed) mapStorage
  check (decide (metadata.kind = entryKind file.entryType ∧
    (file.entryType = .file → metadata.size = file.size))) .externalMismatch
  verifyHash file managed
  check (decide (∀ expected ∈ file.filesystemIdentity, ∀ actual ∈ metadata.identity,
    expected = actual)) .externalMismatch
  pure metadata

def storageAbsent (path : VaultPath) (managed : Bool) : Core Bool := do
  let found ← perform (.stat path managed)
  match found with
  | .ok _ => pure false
  | .error e => if storageNotFound e then pure true else .fail (mapStorage e)

def createDirAllFrom (done : VaultPath) : List String → Core Unit
  | [] => pure ()
  | segment :: rest => do
    demand (.ensureDirectory (done ++ [segment]) rest.isEmpty) mapStorage
    createDirAllFrom (done ++ [segment]) rest

section

variable (env : Env) (path : VaultPath) (managed : Bool)

def createDirAll : Core Unit := do
  ofExcept ((env.policy.validatePathFor path managed).mapError mapStorage)
  createDirAllFrom [] path

/-- `if let Some(parent) = path.parent()`. -/
def createParent : Core Unit :=
  if path = [] then pure () else createDirAll env path.dropLast managed

/-- `temporary_path_for`: beside the destination. -/
def temporaryPathFor : Core VaultPath := do
  ofExcept ((env.policy.validateWritePathFor path managed).mapError .storage)
  let name ← perform .newId
  pure (path.dropLast ++ [temporaryStem ++ toString name])

end

def updatePayload (payload : CorePayload) : Core Unit :=
  demand (.updateOperationPayload payload.operationId payload) .state

def commitPayload (payload : CorePayload) : Core MutationResult := do
  let result ← demand (.commitMutation payload) mapState
  pure (mutationResult result.file result.revision)

/-- The outcome of an earlier request with the key. -/
def lookupIdempotency (key : Option String) (payload : CorePayload) :
    Core (Option MutationResult) :=
  match key with
  | none => pure none
  | some key => do
    let found ← demand (.findIdempotency key) .state
    match found with
    | none => pure none
    | some (.committed stored file revision) => do
      check (sameRequestSignature stored payload) .idempotencyConflict
      pure (some (mutationResult file revision))
    | some (.inFlight _ _ stored) => do
      check (sameRequestSignature stored payload) .idempotencyConflict
      .fail .inFlight

/-- The blob is in the history store, or put there. -/
def ensureHistoryBlob (path : VaultPath) (hash : Option String) (managed : Bool) : Core Unit :=
  match hash with
  | none => pure ()
  | some hash => do
    let address ← ofExcept ((fromHex hash).mapError .storage)
    let present ← perform (.historyContains address)
    if present then pure ()
    else do
      let bytes ← demand (.openRead path managed) mapStorage
      let stored ← perform (.historyPut bytes)
      check (decide (stored = address)) .externalMismatch

/-- Keep the current bytes of a live file. -/
def captureHistory (file : FileRow) (managed : Bool) : Core (Option String) :=
  if file.entryType ≠ .file ∨ file.isActive = false then pure none
  else do
    let bytes ← demand (.openRead file.path managed) mapStorage
    let hash ← perform (.historyPut bytes)
    pure (some hash)

end VaultCore
