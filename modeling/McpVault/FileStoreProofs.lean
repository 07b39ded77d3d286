import McpVault.SqlTableProofs
import McpVault.DomainProofs

/-! # The file repository — identities, revisions, and the operation journal

Every call of `FileStateRepository` as the code performs it, statement by statement, on the rows
of the files, their revisions, the journal and the audit log.  The journal payload is a type
parameter: only the adjudication of a replayed create looks inside, through `PayloadAccess`. -/

namespace FileStore

open SqlTable VaultDomain List
open Fallible (bind_ok_iff)

inductive EntryType where
  | file
  | directory
  deriving DecidableEq

inductive FileOperation where
  | create
  | replace
  | patch
  | append
  | move
  | copy
  | delete
  | restore
  | externalChange
  deriving DecidableEq

inductive JournalState where
  | prepared
  | fileCommitted
  | metadataCommitted
  | rolledBack
  | needsReview
  | superseded
  | discarded
  deriving DecidableEq

/-- One row of `file_entries`. -/
structure FileRow where
  id : FileId
  vaultId : VaultId
  path : VaultPath
  entryType : EntryType
  currentRevision : Revision
  contentHash : Option String
  size : Nat
  modifiedAt : Int
  filesystemIdentity : Option String
  deletedAt : Option Int
  (createdAt updatedAt : Int)
  deriving DecidableEq

def FileRow.isActive (r : FileRow) : Bool := r.deletedAt.isNone

/-- A row of `file_revisions`, with its operation. -/
structure RevisionRow where
  vaultId : VaultId
  fileId : FileId
  revision : Revision
  operation : FileOperation
  (pathBefore pathAfter : Option VaultPath)
  (contentHash historyBlobHash : Option String)
  size : Option Nat
  actor : Actor
  sourcePlane : SourcePlane
  idempotencyKey : Option String
  createdAt : Int
  contributor : OperationId
  deriving DecidableEq

/-- One row of `operation_journal`. -/
structure JournalRow (P : Type) where
  id : OperationId
  vaultId : VaultId
  operation : FileOperation
  state : JournalState
  (sourcePath destinationPath : Option VaultPath)
  priorFileId : Option FileId
  expectedRevision : Option Revision
  (priorHash proposedHash : Option String)
  tempPath : Option VaultPath
  payload : P
  idempotencyKey : Option String
  (createdAt updatedAt : Int)
  error : Option String

/-- What an audit row is about. -/
inductive AuditTarget where
  | file (id : FileId)
  | operationJournal (id : OperationId)

/-- One row of `audit_log`. -/
structure AuditRow where
  vaultId : VaultId
  occurredAt : Int
  sourcePlane : SourcePlane
  actor : Actor
  action : String
  target : AuditTarget
  contributor : OperationId

/-- One row of `outbox_events`. -/
structure OutboxRow where
  vaultId : VaultId
  (eventType aggregateType aggregateId : String)
  createdAt : Int

/-! ## Constraints -/

/-- The primary key and `UNIQUE (vault_id, path)`. -/
def EntriesOk (rows : List FileRow) : Prop :=
  Unique (fun r => some r.id) rows ∧ Unique (fun r => some (r.vaultId, r.path)) rows

/-- Both `UNIQUE` constraints of `file_revisions`. -/
def RevisionsOk (rows : List RevisionRow) : Prop :=
  Unique (fun r => some (r.vaultId, r.fileId, r.revision)) rows ∧
  Unique (fun r => r.idempotencyKey.map (r.vaultId, ·)) rows

/-- The primary key and the partial index. -/
def JournalOk {P : Type} (rows : List (JournalRow P)) : Prop :=
  Unique (fun r => some r.id) rows ∧
  Unique (fun r => r.idempotencyKey.map (r.vaultId, ·)) rows

instance : DecidablePred EntriesOk := fun rows =>
  inferInstanceAs (Decidable (Unique _ rows ∧ Unique _ rows))

instance : DecidablePred RevisionsOk := fun rows =>
  inferInstanceAs (Decidable (Unique _ rows ∧ Unique _ rows))

instance {P : Type} : DecidablePred (JournalOk (P := P)) := fun rows =>
  inferInstanceAs (Decidable (Unique _ rows ∧ Unique _ rows))

/-- The tables, with the registered Vaults. -/
structure Store (P : Type) where
  vaults : List VaultId
  entries : Table EntriesOk
  revisions : Table RevisionsOk
  journal : Table (JournalOk (P := P))
  audit : List AuditRow
  outbox : List OutboxRow

/-- The empty tables. -/
def Store.empty (P : Type) (vaults : List VaultId) : Store P :=
  ⟨vaults, ⟨[], by decide⟩, ⟨[], by decide⟩, ⟨[], by exact ⟨.nil, .nil⟩⟩, [], []⟩

variable {P : Type}

/-! ## Reading -/

def Store.getById (s : Store P) (vaultId : VaultId) (id : FileId) : Option FileRow :=
  s.entries.rows.find? fun r => r.vaultId = vaultId ∧ r.id = id

/-- The row at a path, a tombstone included. -/
def Store.getAny (s : Store P) (vaultId : VaultId) (path : VaultPath) : Option FileRow :=
  s.entries.rows.find? fun r => r.vaultId = vaultId ∧ r.path = path

/-- The active row at a path. -/
def Store.getActive (s : Store P) (vaultId : VaultId) (path : VaultPath) : Option FileRow :=
  s.entries.rows.find? fun r =>
    r.vaultId = vaultId ∧ r.path = path ∧ r.isActive

/-- A path as its text. -/
def pathText (path : VaultPath) : String := "/".intercalate path

/-- `ORDER BY path ASC`. -/
def Store.listActiveEntries (s : Store P) (vaultId : VaultId) : List FileRow :=
  (s.entries.rows.filter fun r => r.vaultId = vaultId ∧ r.isActive).insertionSort
    fun a b => pathText a.path ≤ pathText b.path

def Store.getRevision (s : Store P) (vaultId : VaultId) (fileId : FileId)
    (revision : Revision) : Option RevisionRow :=
  s.revisions.rows.find? fun r =>
    r.vaultId = vaultId ∧ r.fileId = fileId ∧ r.revision = revision

def Store.getJournal (s : Store P) (vaultId : VaultId) (id : OperationId) : Option (JournalRow P) :=
  s.journal.rows.find? fun r => r.vaultId = vaultId ∧ r.id = id

/-- The durable result of an idempotency lookup. -/
inductive IdempotencyLookup (P : Type) where
  | committed (payload : P) (file : FileRow) (revision : RevisionRow)
  | inFlight (operationId : OperationId) (state : JournalState) (payload : P)

def validateIdempotencyKey (key : String) : Except StateError Unit :=
  require (boundedText 256 key) "idempotency key is invalid"

/-- A journal row without a revision is in flight. -/
def findIdempotency (s : Store P) (vaultId : VaultId) (key : String) :
    Except StateError (Option (IdempotencyLookup P)) := do
  validateIdempotencyKey key
  match s.journal.rows.find? fun r =>
      r.vaultId = vaultId ∧ r.idempotencyKey = some key with
  | none => pure none
  | some journal =>
    match s.revisions.rows.find? fun r =>
        r.vaultId = vaultId ∧ r.idempotencyKey = some key with
    | some revision =>
      match s.getById vaultId revision.fileId with
      | some file => pure (some (.committed journal.payload file revision))
      | none => .error (.invalidInput "revision file entry is missing")
    | none => pure (some (.inFlight journal.id journal.state journal.payload))

/-- `ORDER BY created_at ASC`, then insertion order. -/
def listIncomplete (s : Store P) (vaultId : VaultId) : List (JournalRow P) :=
  (s.journal.rows.filter fun r => r.vaultId = vaultId ∧
    (r.state = .prepared ∨ r.state = .fileCommitted)).insertionSort
    fun a b => a.createdAt ≤ b.createdAt

/-! ## The journal -/

structure PrepareOperationInput (P : Type) where
  id : OperationId
  operation : FileOperation
  (sourcePath destinationPath : Option VaultPath)
  priorFileId : Option FileId
  expectedRevision : Option Revision
  (priorHash proposedHash : Option String)
  tempPath : Option VaultPath
  payload : P
  idempotencyKey : Option String

/-- The row a prepared intent is stored as. -/
def PrepareOperationInput.row (i : PrepareOperationInput P) (vaultId : VaultId)
    (now : Int) : JournalRow P where
  id := i.id
  vaultId
  operation := i.operation
  state := .prepared
  sourcePath := i.sourcePath
  destinationPath := i.destinationPath
  priorFileId := i.priorFileId
  expectedRevision := i.expectedRevision
  priorHash := i.priorHash
  proposedHash := i.proposedHash
  tempPath := i.tempPath
  payload := i.payload
  idempotencyKey := i.idempotencyKey
  createdAt := now
  updatedAt := now
  error := none

/-- `as_i64`: stored as signed integers. -/
def fitsI64 (n : Nat) : Bool := decide (n < 2 ^ 63)

def asI64 (revision : Revision) : Except StateError Unit :=
  if fitsI64 revision then .ok () else .error (.invalidDomain .revisionOverflow)

section

variable (s : Store P) (vaultId : VaultId)

/-- The journal row of an intent. -/
def prepareOperation (i : PrepareOperationInput P) (now : Int) : Except StateError (Store P) := do
  i.idempotencyKey.elim (pure ()) validateIdempotencyKey
  i.expectedRevision.elim (pure ()) asI64
  -- the foreign key on the Vault, then the unique indexes
  if vaultId ∉ s.vaults then .error .database
  else
    match s.journal.insert (i.row vaultId now) with
    | some journal => pure { s with journal }
    | none => .error .database

section

variable (id : OperationId)

/-- One conditional `UPDATE` that has to hit its row. -/
def updateJournal (states : List JournalState) (f : JournalRow P → JournalRow P)
    (failure : StateError) : Except StateError (Store P) :=
  let w := fun r : JournalRow P =>
    decide (r.vaultId = vaultId ∧ r.id = id ∧ r.state ∈ states)
  match s.journal.update w f with
  | some journal =>
    if s.journal.rowsAffected w = 1 then .ok { s with journal }
    else .error failure
  | none => .error .database

/-- The file is in place. -/
def markFileCommitted (proposedHash : Option String) (now : Int) : Except StateError (Store P) :=
  updateJournal s vaultId id [.prepared]
    (fun r => { r with state := .fileCommitted,
                       proposedHash := proposedHash.or r.proposedHash,
                       updatedAt := now })
    (.invalidInput "journal is not prepared")

/-- The row learns the hash of the new bytes. -/
def setProposedHash (proposedHash : String) (now : Int) : Except StateError (Store P) := do
  require (!(proposedHash.isEmpty || decide (128 < proposedHash.utf8ByteSize)))
    "proposed hash is invalid"
  updateJournal s vaultId id [.prepared]
    (fun r => { r with proposedHash := some proposedHash, updatedAt := now })
    (.invalidInput "journal is not prepared")

def updateOperationPayload (payload : P) (proposedHash : Option String)
    (now : Int) : Except StateError (Store P) :=
  updateJournal s vaultId id [.prepared]
    (fun r => { r with payload,
                       proposedHash := proposedHash.or r.proposedHash,
                       updatedAt := now })
    (.invalidInput "journal is not prepared")

/-- An open row comes to its end. -/
def markTerminal (state : JournalState) (error : Option String) (now : Int) :
    Except StateError (Store P) :=
  updateJournal s vaultId id [.prepared, .fileCommitted]
    (fun r => { r with state, error, updatedAt := now })
    (.invalidInput "journal is already terminal")

def markRolledBack (error : Option String) (now : Int) : Except StateError (Store P) :=
  markTerminal s vaultId id .rolledBack error now

def markNeedsReview (error : String) (now : Int) : Except StateError (Store P) :=
  markTerminal s vaultId id .needsReview (some error) now

end

end

/-- A row goes only as it was read. -/
def discardLegacyMemoryJournals (vaultId : VaultId) (now : Int) :
    Store P → List (JournalRow P) → Except StateError (Store P)
  | s, [] => pure s
  | s, journal :: rest => do
    if journal.vaultId ≠ vaultId ∨ journal.state ∉ [.prepared, .fileCommitted, .needsReview] then
      .error (.invalidInput "legacy memory journal is outside the discardable state")
    else
      let w := fun r : JournalRow P => decide (r.vaultId = vaultId ∧
        r.id = journal.id ∧ r.state = journal.state ∧
        r.updatedAt = journal.updatedAt)
      match s.journal.update w fun r => { r with
          state := .discarded, updatedAt := now,
          error := some "discarded by legacy memory initialization" } with
      | some table =>
        if s.journal.rowsAffected w = 1 then
          discardLegacyMemoryJournals vaultId now
            { s with journal := table } rest
        else .error .conflict
      | none => .error .database

/-! ## The metadata commit -/

structure OutboxEventInput where
  (eventType aggregateType aggregateId : String)

structure CommitMutationInput where
  operationId : OperationId
  fileId : FileId
  entryType : EntryType
  path : VaultPath
  (pathBefore pathAfter : Option VaultPath)
  expectedRevision : Option Revision
  requireAbsent : Bool
  tombstoneArchivePath : Option VaultPath
  (contentHash historyBlobHash : Option String)
  size : Nat
  modifiedAt : Int
  filesystemIdentity : Option String
  deletedAt : Option Int
  operation : FileOperation
  actor : Actor
  sourcePlane : SourcePlane
  idempotencyKey : Option String
  auditAction : String
  outboxEvents : List OutboxEventInput

/-- Where the caller's hook may fail the transaction. -/
inductive CommitHookPhase where
  | metadataTransactionStarted
  | outboxInserted

structure MutationCommitResult where
  file : FileRow
  revision : RevisionRow
  deriving DecidableEq

def preconditionFailed {α : Type} (reason : String) : Except StateError α :=
  .error (.invalidDomain (.preconditionFailed reason))

/-- No other active file holds the destination. -/
def checkAbsent (i : CommitMutationInput) (destination : Option FileRow) : Except StateError Unit :=
  match destination with
  | some d =>
    if i.requireAbsent ∧ d.isActive ∧ d.id ≠ i.fileId then
      preconditionFailed "destination already exists"
    else pure ()
  | none => pure ()

/-- Moving the tombstone out of the way. -/
def archiveTombstone (entries : Table EntriesOk) (vaultId : VaultId)
    (i : CommitMutationInput) (destination : Option FileRow) (now : Int) :
    Except StateError (Table EntriesOk) :=
  match i.tombstoneArchivePath with
  | none => pure entries
  | some archivePath =>
    match destination with
    | none => .error (.invalidInput "tombstone archive was requested without a destination")
    | some d =>
      if d.isActive ∨ d.id = i.fileId then
        .error (.invalidInput "tombstone archive target is not a prior destination")
      else if entries.rows.any fun r =>
          r.vaultId = vaultId ∧ r.path = archivePath then
        .error (.invalidInput "tombstone archive path is already occupied")
      else
        let w := fun r : FileRow => decide (r.vaultId = vaultId ∧ r.id = d.id ∧ r.isActive = false)
        match entries.update w fun r =>
            { r with path := archivePath, updatedAt := now } with
        | some entries' =>
          if entries.rowsAffected w = 1 then pure entries'
          else .error (.invalidInput "tombstone archive update did not match one row")
        | none => .error .database

/-- The revision the caller saw must be the current one. -/
def checkRevision (i : CommitMutationInput) (current : Option FileRow) : Except StateError Unit :=
  match i.expectedRevision, current with
  | some _, none => preconditionFailed "entry does not exist"
  | some expected, some c =>
    if c.isActive = false ∧ i.operation ≠ .restore then
      preconditionFailed "entry is deleted"
    else if c.currentRevision ≠ expected then
      .error (.invalidDomain (.revisionConflict expected c.currentRevision))
    else pure ()
  | none, some c =>
    if c.isActive ∧ i.requireAbsent then
      preconditionFailed "entry already exists"
    else pure ()
  | none, none => pure ()

/-- A tombstone at the destination is reused or archived. -/
def checkDestination (i : CommitMutationInput) (current destination :
    Option FileRow) : Except StateError Unit :=
  if i.operation = .move ∧ current.isNone then
    .error (.invalidInput "move file entry is missing")
  else
    match destination with
    | some d =>
      if d.isActive = false ∧ d.id ≠ i.fileId ∧ i.tombstoneArchivePath = none then
        .error (.invalidInput "destination tombstone must be reused explicitly")
      else pure ()
    | none => pure ()

def nextRevision : Option FileRow → Except StateError Revision
  | some c => do
    asI64 (c.currentRevision + 1)
    pure (c.currentRevision + 1)
  | none => pure 1

/-- The row the commit leaves for the file. -/
def CommitMutationInput.file (i : CommitMutationInput) (vaultId : VaultId)
    (revision : Revision) (createdAt now : Int) : FileRow where
  id := i.fileId
  vaultId
  path := i.path
  entryType := i.entryType
  currentRevision := revision
  contentHash := i.contentHash
  size := i.size
  modifiedAt := i.modifiedAt
  filesystemIdentity := i.filesystemIdentity
  deletedAt := i.deletedAt
  createdAt
  updatedAt := now

/-- The revision row of a commit. -/
def CommitMutationInput.revision (i : CommitMutationInput) (vaultId : VaultId)
    (current : Option FileRow) (revision : Revision) (now : Int) :
    RevisionRow where
  vaultId
  fileId := i.fileId
  revision
  operation := i.operation
  pathBefore := i.pathBefore.or (current.map (·.path))
  pathAfter := i.pathAfter.or (some i.path)
  contentHash := i.contentHash
  historyBlobHash := i.historyBlobHash
  size := some i.size
  actor := i.actor
  sourcePlane := i.sourcePlane
  idempotencyKey := i.idempotencyKey
  createdAt := now
  contributor := i.operationId

/-- Update the file's row, or insert its first one. -/
def writeEntry (vaults : List VaultId) (entries : Table EntriesOk)
    (vaultId : VaultId) (i : CommitMutationInput) (current : Option FileRow)
    (revision : Revision) (now : Int) :
    Except StateError (Table EntriesOk × FileRow) := do
  require (fitsI64 i.size) "file size is too large"
  match current with
  | some c =>
    let file := i.file vaultId revision c.createdAt now
    let w := fun r : FileRow => decide (r.vaultId = vaultId ∧
      r.id = i.fileId ∧ r.currentRevision = c.currentRevision)
    match entries.update w fun _ => file with
    | some entries' =>
      if entries.rowsAffected w = 1 then pure (entries', file)
      else .error (.invalidDomain (.revisionConflict c.currentRevision (c.currentRevision + 1)))
    | none => .error .database
  | none =>
    let file := i.file vaultId revision now now
    -- the foreign key on the Vault, then the unique indexes
    if vaultId ∉ vaults then .error .database
    else
      match entries.insert file with
      | some entries' => pure (entries', file)
      | none => .error .database

def validateEvent (event : OutboxEventInput) : Except StateError Unit :=
  require (!(event.eventType.isEmpty || event.aggregateType.isEmpty ||
    event.aggregateId.isEmpty)) "outbox event identity is invalid"

/-- Events of a commit, in order. -/
def insertEvents (vaultId : VaultId) (now : Int) (outbox : List OutboxRow) :
    List OutboxEventInput → Except StateError (List OutboxRow)
  | [] => pure outbox
  | event :: rest => do
    validateEvent event
    insertEvents vaultId now
      (outbox ++ [⟨vaultId, event.eventType, event.aggregateType, event.aggregateId, now⟩]) rest

/-- File, revision, audit and events in one transaction. -/
def commitMutation (s : Store P) (vaultId : VaultId) (i : CommitMutationInput)
    (hook : CommitHookPhase → Except StateError Unit) (now : Int) :
    Except StateError (Store P × MutationCommitResult) := do
  hook .metadataTransactionStarted
  let current := s.getById vaultId i.fileId
  let destination := s.getAny vaultId i.path
  checkAbsent i destination
  let archived ← archiveTombstone s.entries vaultId i destination now
  checkRevision i current
  checkDestination i current destination
  let revision ← nextRevision current
  let (entries, file) ← writeEntry s.vaults archived vaultId i current revision now
  let record := i.revision vaultId current revision now
  match s.revisions.insert record with
  | none => .error .database
  | some revisions => do
    let audit := s.audit ++ [⟨vaultId, now, i.sourcePlane, i.actor,
      i.auditAction, .file i.fileId, i.operationId⟩]
    let outbox ← insertEvents vaultId now s.outbox i.outboxEvents
    hook .outboxInserted
    let s' ← updateJournal
      { s with entries, revisions, audit,
               outbox }
      vaultId i.operationId [.fileCommitted]
      (fun r => { r with state := .metadataCommitted, updatedAt := now,
                         error := none })
      (.invalidInput "journal is not file-committed")
    pure (s', ⟨file, record⟩)

/-! ## Adjudicating a replayed create -/

/-- What the accessors of the JSON payload find. -/
structure PayloadView where
  operation : Option FileOperation
  fileId : Option FileId
  path : Option VaultPath
  contentHash : Option String
  size : Option Nat
  operationId : Option OperationId
  entryType : Option EntryType
  pathBeforeNull : Bool
  pathAfter : Option VaultPath
  deletedAtNull : Bool
  requireAbsent : Option Bool

/-- A payload with accessors; `none` if it is not JSON. -/
class PayloadAccess (P : Type) where
  view : P → Option PayloadView

structure SupersedeCreateWitness where
  operationId : OperationId
  path : VaultPath
  (priorFileId replacementFileId : FileId)
  replacementRevision : Revision
  physicalHash : String

inductive SupersedeCreateResult where
  | applied
  | alreadyApplied
  | notProven
  deriving DecidableEq

/-- The payload of a create of `path` for `fileId`. -/
def createPayload (view : PayloadView) (operationId : OperationId)
    (fileId : FileId) (path : VaultPath) (hash : String) : Bool :=
  decide (view.operation = some .create ∧ view.fileId = some fileId ∧
    view.path = some path ∧ view.contentHash = some hash ∧
    view.operationId = some operationId ∧ view.entryType = some .file ∧
    view.pathBeforeNull ∧ view.pathAfter = some path ∧
    view.deletedAtNull ∧ view.requireAbsent = some true)

/-- The journal columns of such a create. -/
def createJournal (r : JournalRow P) (fileId : FileId) (path : VaultPath)
    (hash : String) : Bool :=
  decide (r.destinationPath = some path ∧ (r.sourcePath = none ∨ r.sourcePath = some path) ∧
    r.priorFileId = some fileId ∧ r.expectedRevision = none ∧
    r.priorHash = none ∧ r.proposedHash = some hash)

/-- The journal row's state lets it be adjudicated. -/
def adjudicable (r : JournalRow P) (allowReviewed : Bool) : Bool :=
  decide (r.state = .fileCommitted ∨ allowReviewed ∧ r.state = .needsReview ∧
    r.error = some "recovery metadata destination already exists")

/-- What the witness has to prove against the tables. -/
def witnessProven [PayloadAccess P] (s : Store P) (vaultId : VaultId)
    (w : SupersedeCreateWitness) (journal : JournalRow P) : Bool :=
  match PayloadAccess.view journal.payload with
  | none => false
  | some view =>
    decide (journal.operation = .create) &&
    createJournal journal w.priorFileId w.path w.physicalHash &&
    createPayload view w.operationId w.priorFileId w.path w.physicalHash &&
    -- the journal's own file was never materialized
    !(s.entries.rows.any fun r => r.vaultId = vaultId ∧ r.id = w.priorFileId) &&
    !(s.revisions.rows.any fun r =>
      r.vaultId = vaultId ∧ r.fileId = w.priorFileId) &&
    match s.getActive vaultId w.path with
    | none => false
    | some active =>
      decide (active.id = w.replacementFileId ∧ active.id ≠ w.priorFileId ∧
        active.currentRevision = w.replacementRevision ∧
        active.contentHash = some w.physicalHash ∧
        active.entryType = .file ∧ view.size = some active.size) &&
      match s.getRevision vaultId w.replacementFileId w.replacementRevision with
      | none => false
      | some revision =>
        decide (revision.operation = .create ∧ revision.pathBefore = none ∧
          revision.pathAfter = some w.path ∧
          revision.contentHash = some w.physicalHash ∧
          revision.size = some active.size) &&
        -- a later create of that file committed, and nothing is unfinished
        (s.journal.rows.any fun c => decide (c.vaultId = vaultId ∧
            c.operation = .create ∧ c.state = .metadataCommitted ∧
            c.id ≠ w.operationId ∧ c.updatedAt = revision.createdAt ∧
            journal.createdAt < c.createdAt ∧
            c.createdAt ≤ revision.createdAt) &&
          createJournal c w.replacementFileId w.path w.physicalHash &&
          match PayloadAccess.view c.payload with
          | none => false
          | some later =>
            createPayload later c.id w.replacementFileId w.path w.physicalHash &&
            decide (later.size = some active.size)) &&
        !(s.journal.rows.any fun c => c.vaultId = vaultId ∧
          (c.sourcePath = some w.path ∨ c.destinationPath = some w.path) ∧
          c.id ≠ w.operationId ∧
          c.state ∈ [.prepared, .fileCommitted, .needsReview])

/-- A replayed create, closed with an audit row. -/
def supersedeReplayedCreateInner [PayloadAccess P] (s : Store P)
    (vaultId : VaultId) (w : SupersedeCreateWitness) (allowReviewed : Bool)
    (now : Int) : Except StateError (Store P × SupersedeCreateResult) :=
  match s.getJournal vaultId w.operationId with
  | none => pure (s, .notProven)
  | some journal =>
    if adjudicable journal allowReviewed = false then
      if journal.state = .superseded then pure (s, .alreadyApplied)
      else pure (s, .notProven)
    else if witnessProven s vaultId w journal = false then pure (s, .notProven)
    else
      match updateJournal s vaultId w.operationId [journal.state]
          (fun r => { r with
            state := JournalState.superseded, updatedAt := now,
            error := some "superseded by verified later create" })
          .conflict with
      | .error .conflict => pure (s, .notProven)
      | .error error => .error error
      | .ok s' =>
        pure ({ s' with audit := s'.audit ++ [⟨vaultId, now, .system,
          ⟨.system, none⟩, "file.recovery_superseded",
          .operationJournal w.operationId, w.operationId⟩] }, .applied)

def supersedeReplayedCreate [PayloadAccess P] (s : Store P) (vaultId : VaultId)
    (w : SupersedeCreateWitness) (now : Int) :
    Except StateError (Store P × SupersedeCreateResult) :=
  supersedeReplayedCreateInner s vaultId w false now

def supersedeReviewedReplayedCreate [PayloadAccess P] (s : Store P)
    (vaultId : VaultId) (w : SupersedeCreateWitness) (now : Int) :
    Except StateError (Store P × SupersedeCreateResult) :=
  supersedeReplayedCreateInner s vaultId w true now

/-! ## What a successful call leaves behind -/

section Specs

variable {s s' : Store P} {vaultId : VaultId} {id : OperationId} {now : Int}

/-- The row a conditional journal update selects. -/
def selects (vaultId : VaultId) (id : OperationId) (states : List JournalState)
    (r : JournalRow P) : Bool :=
  decide (r.vaultId = vaultId ∧ r.id = id ∧ r.state ∈ states)

theorem updateJournal_ok {states : List JournalState} {f : JournalRow P → JournalRow P}
    {failure : StateError} (h : updateJournal s vaultId id states f failure = .ok s') :
    (∃ journal, s' = { s with journal }) ∧
      s'.journal.rows = updateRows (selects vaultId id states) f s.journal.rows ∧
      s.journal.rows.countP (selects vaultId id states) = 1 := by
  simp only [updateJournal] at h
  split at h
  next journal hu =>
    split at h
    next hone =>
      cases h
      exact ⟨⟨journal, rfl⟩, Table.update_rows hu, hone⟩
    next => cases h
  next => cases h

/-- The prepared row is appended; nothing else moves. -/
theorem prepareOperation_ok {i : PrepareOperationInput P}
    (h : prepareOperation s vaultId i now = .ok s') :
    (∃ journal, s' = { s with journal }) ∧
      s'.journal.rows = s.journal.rows ++ [i.row vaultId now] := by
  obtain ⟨_, _, h⟩ := bind_ok_iff.mp h
  obtain ⟨_, _, h⟩ := bind_ok_iff.mp h
  split at h
  · cases h
  · split at h
    next journal hins =>
      cases h
      exact ⟨⟨journal, rfl⟩, Table.insert_rows hins⟩
    next => cases h

variable {i : CommitMutationInput} {current : Option FileRow} {revision : Revision}
  {entries entries' : Table EntriesOk}

/-- Archiving renames one tombstone at most. -/
theorem archiveTombstone_ok {destination : Option FileRow}
    (h : archiveTombstone entries vaultId i destination now = .ok entries') :
    entries' = entries ∨ ∃ archivePath d, i.tombstoneArchivePath = some archivePath ∧
      destination = some d ∧ d.isActive = false ∧ d.id ≠ i.fileId ∧
      entries'.rows = updateRows
        (fun r => decide (r.vaultId = vaultId ∧ r.id = d.id ∧ r.isActive = false))
        (fun r => { r with path := archivePath, updatedAt := now })
        entries.rows := by
  unfold archiveTombstone at h
  split at h
  next =>
    cases h
    exact .inl rfl
  next archivePath harchive =>
    split at h
    next => cases h
    next d =>
      split at h
      next => cases h
      next hd =>
        split at h
        next => cases h
        next =>
          simp only at h
          split at h
          next table hu =>
            split at h
            next =>
              cases h
              rw [not_or] at hd
              exact .inr ⟨archivePath, d, harchive, rfl,
                Bool.eq_false_iff.mpr hd.1, hd.2, Table.update_rows hu⟩
            next => cases h
          next => cases h

theorem nextRevision_ok (h : nextRevision current = .ok revision) :
    revision = (current.map (·.currentRevision)).getD 0 + 1 := by
  cases current with
  | none =>
    cases h
    rfl
  | some c =>
    obtain ⟨_, _, h⟩ := bind_ok_iff.mp h
    cases h
    rfl

theorem writeEntry_ok {vaults : List VaultId} {file : FileRow}
    (h : writeEntry vaults entries vaultId i current revision now = .ok (entries', file)) :
    (current = none ∧ file = i.file vaultId revision now now ∧
      entries'.rows = entries.rows ++ [file]) ∨
    ∃ c, current = some c ∧ file = i.file vaultId revision c.createdAt now ∧
      entries'.rows = updateRows (fun r => decide (r.vaultId = vaultId ∧
        r.id = i.fileId ∧ r.currentRevision = c.currentRevision))
        (fun _ => file) entries.rows := by
  obtain ⟨_, _, h⟩ := bind_ok_iff.mp h
  cases current with
  | none =>
    refine .inl ⟨rfl, ?_⟩
    simp only at h
    split at h
    next => cases h
    next =>
      split at h
      next table hins =>
        cases h
        exact ⟨rfl, Table.insert_rows hins⟩
      next => cases h
  | some c =>
    refine .inr ⟨c, rfl, ?_⟩
    simp only at h
    split at h
    next table hu =>
      split at h
      next =>
        cases h
        exact ⟨rfl, Table.update_rows hu⟩
      next => cases h
    next => cases h

/-- **THE COMMIT, INVERTED**: all that a success did. -/
structure Committed (s : Store P) (vaultId : VaultId) (i : CommitMutationInput)
    (now : Int) (s' : Store P) (result : MutationCommitResult) : Prop where
  vaults : s'.vaults = s.vaults
  revision : result.revision = i.revision vaultId (s.getById vaultId i.fileId)
    (((s.getById vaultId i.fileId).map (·.currentRevision)).getD 0 + 1) now
  revisions : s'.revisions.rows = s.revisions.rows ++ [result.revision]
  audit : s'.audit = s.audit ++ [⟨vaultId, now, i.sourcePlane, i.actor,
    i.auditAction, .file i.fileId, i.operationId⟩]
  entries : ∃ archived entries, archiveTombstone s.entries vaultId i (s.getAny vaultId i.path) now =
      .ok archived ∧
    writeEntry s.vaults archived vaultId i (s.getById vaultId i.fileId)
      (((s.getById vaultId i.fileId).map (·.currentRevision)).getD 0 + 1) now =
      .ok (entries, result.file) ∧ s'.entries = entries
  selected : s.journal.rows.countP
    (selects vaultId i.operationId [.fileCommitted]) = 1
  journal : s'.journal.rows = updateRows
    (selects vaultId i.operationId [.fileCommitted])
    (fun r => { r with state := .metadataCommitted, updatedAt := now,
                       error := none }) s.journal.rows
  absent : checkAbsent i (s.getAny vaultId i.path) = .ok ()
  expected : checkRevision i (s.getById vaultId i.fileId) = .ok ()

theorem commitMutation_ok {hook : CommitHookPhase → Except StateError Unit}
    {result : MutationCommitResult} (h : commitMutation s vaultId i hook now = .ok (s', result)) :
    Committed s vaultId i now s' result := by
  obtain ⟨_, _, h⟩ := bind_ok_iff.mp h
  obtain ⟨_, habsent, h⟩ := bind_ok_iff.mp h
  obtain ⟨archived, harchived, h⟩ := bind_ok_iff.mp h
  obtain ⟨_, hexpected, h⟩ := bind_ok_iff.mp h
  obtain ⟨_, _, h⟩ := bind_ok_iff.mp h
  obtain ⟨revision, hrev, h⟩ := bind_ok_iff.mp h
  obtain ⟨⟨entries, file⟩, hentry, h⟩ := bind_ok_iff.mp h
  cases nextRevision_ok hrev
  simp only at h
  split at h
  next => cases h
  next revisions hins =>
    obtain ⟨outbox, _, h⟩ := bind_ok_iff.mp h
    obtain ⟨_, _, h⟩ := bind_ok_iff.mp h
    obtain ⟨t, ht, h⟩ := bind_ok_iff.mp h
    cases h
    obtain ⟨⟨journal, hs'⟩, hjournal, hone⟩ := updateJournal_ok ht
    cases hs'
    exact ⟨rfl, rfl, Table.insert_rows hins, rfl,
      ⟨archived, entries, harchived, hentry, rfl⟩, hone, hjournal, habsent,
      hexpected⟩

end Specs

/-! ## Rows by their path -/

section Paths

variable {s : Store P} {vaultId : VaultId} {path : VaultPath} {file : FileRow}

theorem getAny_iff : s.getAny vaultId path = some file ↔
    file ∈ s.entries.rows ∧ file.vaultId = vaultId ∧ file.path = path := by
  constructor
  · intro h
    have hkey : file.vaultId = vaultId ∧ file.path = path := by
      simpa using List.find?_some h
    exact ⟨mem_of_find?_eq_some h, hkey⟩
  · rintro ⟨hmem, hkey⟩
    obtain ⟨other, hother⟩ : ∃ other, s.getAny vaultId path = some other :=
      Option.isSome_iff_exists.mp (List.find?_isSome.mpr ⟨file, hmem, by simpa using hkey⟩)
    have hkey' : other.vaultId = vaultId ∧ other.path = path := by
      simpa using List.find?_some hother
    -- one row for each path
    rw [hother, s.entries.ok.2.eq_of_key (mem_of_find?_eq_some hother) hmem rfl
      (by rw [hkey.1, hkey.2, hkey'.1, hkey'.2])]

theorem getActive_iff : s.getActive vaultId path = some file ↔
    s.getAny vaultId path = some file ∧ file.isActive := by
  constructor
  · intro h
    have hkey : file.vaultId = vaultId ∧ file.path = path ∧ file.isActive := by
      simpa using List.find?_some h
    exact ⟨getAny_iff.mpr ⟨mem_of_find?_eq_some h, hkey.1, hkey.2.1⟩, hkey.2.2⟩
  · rintro ⟨hany, hactive⟩
    obtain ⟨hmem, hvault, hpath⟩ := getAny_iff.mp hany
    obtain ⟨other, hother⟩ : ∃ other, s.getActive vaultId path = some other :=
      Option.isSome_iff_exists.mp (List.find?_isSome.mpr
        ⟨file, hmem, by simpa using ⟨hvault, hpath, hactive⟩⟩)
    have hkey : other.vaultId = vaultId ∧ other.path = path ∧ other.isActive := by
      simpa using List.find?_some hother
    have hsame := getAny_iff.mpr ⟨mem_of_find?_eq_some hother, hkey.1, hkey.2.1⟩
    rw [hany] at hsame
    cases hsame
    exact hother

end Paths

/-! ## The rows after a commit -/

section Commit

variable {s s' : Store P} {vaultId : VaultId} {i : CommitMutationInput}
  {now : Int} {result : MutationCommitResult}
  {id : FileId} {e e' : FileRow}

theorem getById_spec {c : FileRow} (h : s.getById vaultId id = some c) :
    c ∈ s.entries.rows ∧ c.vaultId = vaultId ∧ c.id = id := by
  have hprop : c.vaultId = vaultId ∧ c.id = id := by
    simpa using List.find?_some h
  exact ⟨mem_of_find?_eq_some h, hprop⟩

theorem getById_none (h : s.getById vaultId id = none) (he : e ∈ s.entries.rows) :
    ¬ (e.vaultId = vaultId ∧ e.id = id) := by
  have hno := List.find?_eq_none.mp h e he
  simpa using hno

/-- Another file's row stays, or is renamed. -/
def Archived (i : CommitMutationInput) (now : Int) (e e' : FileRow) : Prop :=
  e' = e ∨ e.isActive = false ∧ e.id ≠ i.fileId ∧ ∃ path, i.tombstoneArchivePath = some path ∧
      e' = { e with path, updatedAt := now }

theorem Archived.key (h : Archived i now e e') : e'.vaultId = e.vaultId ∧ e'.id = e.id ∧
      e'.currentRevision = e.currentRevision ∧
      e'.contentHash = e.contentHash ∧ e'.size = e.size ∧
      (e'.path = e.path ∨ e'.isActive = false) := by
  rcases h with rfl | ⟨hdead, _, path, _, rfl⟩
  · exact ⟨rfl, rfl, rfl, rfl, rfl, .inl rfl⟩
  · exact ⟨rfl, rfl, rfl, rfl, rfl, .inr hdead⟩

theorem archived_rows {entries entries' : Table EntriesOk} {destination : Option FileRow}
    (h : archiveTombstone entries vaultId i destination now = .ok entries') :
    (∀ e' ∈ entries'.rows, ∃ e ∈ entries.rows, Archived i now e e') ∧
    ∀ e ∈ entries.rows, ∃ e' ∈ entries'.rows, Archived i now e e' := by
  rcases archiveTombstone_ok h with rfl | ⟨path, d, hpath, _, _, hd, hrows⟩
  · exact ⟨fun e he => ⟨e, he, .inl rfl⟩, fun e he => ⟨e, he, .inl rfl⟩⟩
  · rw [hrows]
    constructor
    · intro e' he'
      obtain ⟨e, he, ⟨hw, rfl⟩ | ⟨_, rfl⟩⟩ := mem_updateRows.mp he'
      · obtain ⟨_, hid, hdead⟩ := of_decide_eq_true hw
        exact ⟨e, he, .inr ⟨hdead, hid ▸ hd, path, hpath, rfl⟩⟩
      · exact ⟨e', he, .inl rfl⟩
    · intro e he
      by_cases hw : e.vaultId = vaultId ∧ e.id = d.id ∧ e.isActive = false
      · exact ⟨_, mem_updateRows.mpr ⟨e, he, .inl ⟨decide_eq_true hw, rfl⟩⟩,
          .inr ⟨hw.2.2, hw.2.1 ▸ hd, path, hpath, rfl⟩⟩
      · exact ⟨e, mem_updateRows.mpr ⟨e, he, .inr ⟨decide_eq_false hw, rfl⟩⟩, .inl rfl⟩

variable (h : Committed s vaultId i now s' result)

include h

/-- **THE ROWS AFTER A COMMIT**: its own, and the others. -/
theorem Committed.entry_cases (he' : e' ∈ s'.entries.rows) :
    e' = result.file ∨ ∃ e ∈ s.entries.rows,
      ¬ (e.vaultId = vaultId ∧ e.id = i.fileId) ∧ Archived i now e e' := by
  obtain ⟨archived, entries, harch, hwrite, hentries⟩ := h.entries
  have hback := (archived_rows harch).1
  rw [hentries] at he'
  rcases writeEntry_ok hwrite with ⟨hcur, _, hrows⟩ | ⟨c, hcur, _, hrows⟩
  · rw [hrows] at he'
    rcases mem_append.mp he' with he' | he'
    · obtain ⟨e, he, ha⟩ := hback e' he'
      exact .inr ⟨e, he, getById_none hcur he, ha⟩
    · exact .inl (mem_singleton.mp he')
  · rw [hrows] at he'
    obtain ⟨q, hq, ⟨_, rfl⟩ | ⟨hw, rfl⟩⟩ := mem_updateRows.mp he'
    · exact .inl rfl
    · obtain ⟨e, he, ha⟩ := hback e' hq
      refine .inr ⟨e, he, ?_, ha⟩
      rintro ⟨hv, hid⟩
      -- it would be the current row, which the update selects
      obtain ⟨hc, _, hcid⟩ := getById_spec hcur
      have hec : e = c := s.entries.ok.1.eq_of_key he hc rfl
        (congrArg some (hcid.trans hid.symm))
      obtain ⟨hv', hid', hrev', _⟩ := ha.key
      rw [hec] at hrev'
      exact of_decide_eq_false hw ⟨hv'.trans hv, hid'.trans hid, hrev'⟩

/-- The row of the file is the one the input asks for. -/
theorem Committed.file_eq : ∃ createdAt, result.file = i.file vaultId
      (((s.getById vaultId i.fileId).map (·.currentRevision)).getD 0 + 1) createdAt now := by
  obtain ⟨archived, entries, _, hwrite, _⟩ := h.entries
  rcases writeEntry_ok hwrite with ⟨_, hfile, _⟩ | ⟨c, _, hfile, _⟩
  · exact ⟨_, hfile⟩
  · exact ⟨_, hfile⟩

theorem Committed.file_key : result.file.vaultId = vaultId ∧ result.file.id = i.fileId ∧
    result.file.currentRevision =
      ((s.getById vaultId i.fileId).map (·.currentRevision)).getD 0 + 1 ∧
    result.file.contentHash = i.contentHash ∧ result.file.size = i.size ∧
    result.file.path = i.path := by
  obtain ⟨_, hfile⟩ := h.file_eq
  rw [hfile]
  exact ⟨rfl, rfl, rfl, rfl, rfl, rfl⟩

/-- No row is lost. -/
theorem Committed.entry_kept (he : e ∈ s.entries.rows) :
    ∃ e' ∈ s'.entries.rows, e'.vaultId = e.vaultId ∧ e'.id = e.id := by
  obtain ⟨archived, entries, harch, hwrite, hentries⟩ := h.entries
  obtain ⟨q, hq, ha⟩ := (archived_rows harch).2 e he
  obtain ⟨hv, hid, _⟩ := ha.key
  rw [hentries]
  rcases writeEntry_ok hwrite with ⟨_, _, hrows⟩ | ⟨c, _, _, hrows⟩
  · rw [hrows]
    exact ⟨q, mem_append_left _ hq, hv, hid⟩
  · rw [hrows]
    by_cases hw : q.vaultId = vaultId ∧ q.id = i.fileId ∧ q.currentRevision = c.currentRevision
    · refine ⟨result.file, mem_updateRows.mpr ⟨q, hq, .inl ⟨decide_eq_true hw, rfl⟩⟩, ?_, ?_⟩
      · exact h.file_key.1.trans (hw.1.symm.trans hv)
      · exact h.file_key.2.1.trans (hw.2.1.symm.trans hid)
    · exact ⟨q, mem_updateRows.mpr ⟨q, hq, .inr ⟨decide_eq_false hw, rfl⟩⟩, hv, hid⟩

/-- The row the commit wrote is in the table. -/
theorem Committed.file_mem : result.file ∈ s'.entries.rows := by
  obtain ⟨archived, entries, harch, hwrite, hentries⟩ := h.entries
  rw [hentries]
  rcases writeEntry_ok hwrite with ⟨_, _, hrows⟩ | ⟨c, hcur, _, hrows⟩
  · rw [hrows]
    exact mem_append_right _ (mem_singleton_self _)
  · obtain ⟨hc, hv, hid⟩ := getById_spec hcur
    obtain ⟨q, hq, ha⟩ := (archived_rows harch).2 c hc
    obtain ⟨hqv, hqid, hqrev, _⟩ := ha.key
    rw [hrows]
    exact mem_updateRows.mpr ⟨q, hq, .inl ⟨decide_eq_true
      ⟨hqv.trans hv, hqid.trans hid, hqrev⟩, rfl⟩⟩

end Commit

end FileStore
