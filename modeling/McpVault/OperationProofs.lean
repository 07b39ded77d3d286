import McpVault.CoreProofs

/-! # The operations of Vault Core

Every mutation as the source's procedure, call by call.  The operations that write bytes meet in
`contentMutation`; moves, deletions, directories and staged uploads have procedures of their own. -/

namespace VaultCore

open VaultDomain FileStore VaultStorage Program

/-! ## Streams of bytes -/

/-- What reads return, and the error that ends them. -/
structure Reader where
  chunks : List Bytes
  failure : Option ErrorKind

def copyBufferSize : Nat := 128 * 1024

/-- At most `fuel` pieces, then the rest. -/
def piecesOf (fuel : Nat) (bytes : Bytes) : List Bytes :=
  match fuel with
  | 0 => if bytes.isEmpty then [] else [bytes]
  | fuel + 1 =>
    if bytes.isEmpty then []
    else bytes.take copyBufferSize :: piecesOf fuel (bytes.drop copyBufferSize)

/-- `ByteReader`: a buffer, read to its end. -/
def byteReader (bytes : Bytes) : Reader := ⟨piecesOf bytes.length bytes, none⟩

def decodeText (bytes : Bytes) : Option String := String.fromUTF8? ⟨bytes.toArray⟩

def encodeText (text : List Char) : Bytes := (String.ofList text).toUTF8.data.toList

/-- Chunk by chunk, until one fails. -/
def writeChunks (temp : VaultPath) : List Bytes → Prog Call StorageError Unit
  | [] => pure ()
  | chunk :: rest => do
    demand (.writeChunk temp chunk) id
    writeChunks temp rest

/-- `write_from`; a failure removes the file. -/
def writeFrom (env : Env) (temp : VaultPath) (reader : Reader) :
    Prog Call StorageError (Nat × String) := do
  let streamed ← attempt (ω := StorageError) do
    writeChunks temp reader.chunks
    match reader.failure with
    | some kind => .fail (.io "read source stream" kind)
    | none => pure ()
  match streamed with
  | .ok () => pure (reader.chunks.flatten.length, env.hasher.digest reader.chunks.flatten)
  | .error e => do
    perform (.cleanupTemp temp)
    .fail e

/-- `AtomicWrite::commit`: rename, then metadata. -/
def commitAtomic (temp path : VaultPath) (policy : DestinationPolicy) (managed : Bool) :
    Prog Call StorageError FileMetadata := do
  demand (.commitTemp temp path policy) id
  demand (.stat path managed) id

/-! ## Writing content -/

/-- Who asks, and under which idempotency key. -/
structure Caller where
  actor : Actor
  sourcePlane : SourcePlane
  key : Option String

/-- The arguments of `content_mutation_with_policy`. -/
structure Mutation where
  path : VaultPath
  operation : FileOperation
  expectedRevision : Option Revision
  (requireAbsent managed : Bool)
  reader : Reader

/-- Those that accept a tombstone as target. -/
def readsTombstone (operation : FileOperation) : Bool :=
  decide (operation ∈ [.create, .copy, .restore])

def auditActionFor : FileOperation → String
  | .create => "file.create"
  | .copy => "file.copy"
  | .patch => "file.patch"
  | .append => "file.append"
  | .restore => "file.restore"
  | .replace => "file.replace"
  | _ => "file.update"

/-- The payload before any byte is written. -/
def contentPayload (m : Mutation) (caller : Caller) (operationId : OperationId)
    (fileId : FileId) (pathBefore : Option VaultPath) (modifiedAt : Int)
    (auditAction : String) : CorePayload where
  operationId
  fileId
  entryType := .file
  operation := m.operation
  path := m.path
  pathBefore
  pathAfter := some m.path
  expectedRevision := m.expectedRevision
  requireAbsent := m.requireAbsent
  tombstoneArchivePath := none
  contentHash := none
  historyBlobHash := none
  size := 0
  modifiedAt := some modifiedAt
  filesystemIdentity := none
  deletedAt := none
  actor := caller.actor
  sourcePlane := caller.sourcePlane
  idempotencyKey := caller.key
  auditAction
  outboxEvents := eventFor (eventTypeFor m.operation) fileId

/-- The payload; identifiers are not compared. -/
def signaturePayload (m : Mutation) (caller : Caller) (target : Option FileRow) :
    CorePayload :=
  let pathBefore :=
    if m.operation = .create ∨ m.operation = .copy then none else target.map (·.path)
  contentPayload m caller 0 ((target.map (·.id)).getD 0) pathBefore 0 "file.mutate"

/-- The revision the caller saw, if any. -/
def requireExpected (target : Option FileRow) (expected : Option Revision) : Core Unit :=
  match target, expected with
  | some file, some expected => requireRevision file expected
  | _, _ => pure ()

/-- The preconditions, once the lookup has found nothing. -/
def checkTarget (m : Mutation) (target : Option FileRow) : Core Unit := do
  check (!(m.requireAbsent && target.any (·.isActive))) .alreadyExists
  check (decide (m.operation ∈ [.create, .copy]) || target.isSome) .notFound
  requireExpected target m.expectedRevision
  match target.filter (·.isActive) with
  | some file => do
    let _ ← verifyCurrent file m.managed
    check (decide (file.entryType = .file))
      (.invalidPatch "target is not a regular file")
  | none => do
    check (readsTombstone m.operation) .notFound
    let absent ← storageAbsent m.path m.managed
    check absent .externalMismatch

def destinationPolicy (requireAbsent : Bool) : DestinationPolicy :=
  if requireAbsent then .mustNotExist else .replaceExisting

/-- Close the row of a failed write, and report it. -/
def rollBack {α : Type} (id : OperationId) (reason : String) (error : VaultError) :
    Core α := do
  let _ ← perform (.markRolledBack id reason)
  .fail error

def beginWrite (id : OperationId) (temp : VaultPath) (reason : String) : Core Unit := do
  let begun ← perform (.prepareTemp temp)
  match begun with
  | .ok () => pure ()
  | .error e => rollBack id reason (mapStorage e)

/-- From the temporary file to the commit. -/
def installPayload (payload : CorePayload) (temp : VaultPath)
    (policy : DestinationPolicy) (managed : Bool) (syncReason installReason : String)
    (report : StorageError → VaultError) : Core MutationResult := do
  let synced ← perform (.sync temp)
  match synced with
  | .error e => do
    perform (.cleanupTemp temp)
    rollBack payload.operationId syncReason (report e)
  | .ok () => do
    let receipt ← attempt (commitAtomic temp payload.path policy managed)
    match receipt with
    | .error e => rollBack payload.operationId installReason (report e)
    | .ok metadata => do
      let payload := { payload with
        modifiedAt := metadata.modifiedAt, filesystemIdentity := metadata.identity }
      updatePayload payload
      demand (.markFileCommitted payload.operationId payload.contentHash) .state
      ensureHistoryBlob payload.path payload.contentHash managed
      commitPayload payload

/-- The payload with bytes and digest known. -/
def CorePayload.written (payload : CorePayload) (progress : Nat × String) : CorePayload :=
  { payload with
    contentHash := some progress.2, historyBlobHash := some progress.2,
    size := progress.1 }

/-- The identity of the row at the path, or a new one. -/
def fileIdFor : Option FileRow → Core FileId
  | some file => pure file.id
  | none => perform .newId

/-- Under the journal row: stream, describe, install. -/
def writeContent (env : Env) (m : Mutation) (payload : CorePayload) (temp : VaultPath) :
    Core MutationResult := do
  beginWrite payload.operationId temp "temporary write could not start"
  let streamed ← attempt (writeFrom env temp m.reader)
  match streamed with
  | .error e => rollBack payload.operationId "source stream failed" (mapStorage e)
  | .ok progress => do
    updatePayload (payload.written progress)
    installPayload (payload.written progress) temp (destinationPolicy m.requireAbsent)
      m.managed "temporary sync failed" "canonical rename failed" mapStorage

/-- Journal, temporary file, rename, commit. -/
def stageContent (env : Env) (m : Mutation) (caller : Caller) (target : Option FileRow) :
    Core MutationResult := do
  let fileId ← fileIdFor target
  let operationId ← perform .newId
  createParent env m.path m.managed
  let temp ← temporaryPathFor env m.path m.managed
  let payload := contentPayload m caller operationId fileId (target.map (·.path)) 0
    (auditActionFor m.operation)
  demand (.prepareOperation (payload.prepareInput operationId (some m.path) (some temp)
    (target.bind (·.contentHash)) none)) .state
  writeContent env m payload temp

/-- The target of a mutation, looked up under its locks. -/
def contentTarget (m : Mutation) : Core (Option FileRow) :=
  if readsTombstone m.operation then perform (.getAnyByPath m.path)
  else perform (.getActive m.path)

/-- A write under the locks of its path. -/
def contentMutation (env : Env) (m : Mutation) (caller : Caller) :
    Core MutationResult := do
  demand (.validateContext true) id
  withNamespaceLock m.requireAbsent <| withLocks env [m.path] do
    let target ← contentTarget m
    let found ← lookupIdempotency caller.key (signaturePayload m caller target)
    match found with
    | some result => pure result
    | none => do
      checkTarget m target
      stageContent env m caller target

def create (env : Env) (path : VaultPath) (managed : Bool) (reader : Reader)
    (caller : Caller) : Core MutationResult :=
  contentMutation env ⟨path, .create, none, true, managed, reader⟩ caller

def replace (env : Env) (path : VaultPath) (managed : Bool) (expected : Revision)
    (bytes : Bytes) (caller : Caller) : Core MutationResult :=
  contentMutation env ⟨path, .replace, some expected, false, managed, byteReader bytes⟩
    caller

/-- `append`, at the end of what is there. -/
def appendBytes (env : Env) (path : VaultPath) (expected : Revision) (bytes : Bytes)
    (caller : Caller) : Core MutationResult := do
  demand (.validateContext true) id
  let current ← requireActiveFile path
  check (decide (current.entryType = .file)) (.invalidPatch "append target is not a file")
  requireRevision current expected
  let original ← demand (.openRead path false) mapStorage
  contentMutation env
    ⟨path, .append, some expected, false, false, byteReader (original ++ bytes)⟩ caller

def readText (path : VaultPath) : Core String := do
  let bytes ← demand (.openRead path false) mapStorage
  orFail .binaryTextOperation (decodeText bytes)

section

variable (env : Env) (path : VaultPath) (expected : Revision)

/-- Write the text an edit made of another one. -/
def writeEdited (edited : Except String (List Char)) (caller : Caller) : Core MutationResult := do
  let text ← ofExcept (edited.mapError .invalidPatch)
  contentMutation env
    ⟨path, .patch, some expected, false, false, byteReader (encodeText text)⟩ caller

/-- `patch_unified_diff`. -/
def patchUnifiedDiff (unifiedDiff : String) (caller : Caller) : Core MutationResult := do
  demand (.validateContext true) id
  let current ← requireActiveFile path
  requireRevision current expected
  let original ← readText path
  writeEdited env path expected
    (Patch.applyUnifiedDiff original.toList unifiedDiff.toList) caller

/-- `heading_edit` reads its source unchecked. -/
def headingEdit (edit : List Char → Except String (List Char)) (caller : Caller) :
    Core MutationResult := do
  let original ← readText path
  writeEdited env path expected (edit original.toList) caller

def insertAfterHeading (heading insertion : String) (caller : Caller) : Core MutationResult :=
  headingEdit env path expected
    (Patch.insertAfterHeading heading.toList insertion.toList) caller

def replaceHeadingSection (heading replacement : String) (caller : Caller) : Core MutationResult :=
  headingEdit env path expected
    (Patch.replaceHeadingSection heading.toList replacement.toList) caller

end

/-- Read under both locks, freed before the write. -/
def copy (env : Env) (source destination : VaultPath) (caller : Caller) :
    Core MutationResult := do
  demand (.validateContext true) id
  check (decide (source ≠ destination))
    (.domain (.preconditionFailed "copy source and destination match"))
  let bytes ← withLocks env [source, destination] do
    let file ← requireActiveFile source
    let _ ← verifyCurrent file false
    demand (.openRead source false) mapStorage
  contentMutation env ⟨destination, .copy, none, true, false, byteReader bytes⟩ caller

/-- `restore`: an old revision's bytes again. -/
def restore (env : Env) (path : VaultPath) (revision expected : Revision)
    (caller : Caller) : Core MutationResult := do
  demand (.validateContext true) id
  let found ← perform (.getAnyByPath path)
  let file ← orFail .notFound found
  requireRevision file expected
  let recorded ← perform (.getRevision file.id revision)
  let record ← orFail .notFound recorded
  let hash ← orFail (.invalidPatch "revision has no content blob")
    (record.historyBlobHash.or record.contentHash)
  let address ← ofExcept ((fromHex (stripSha256 hash)).mapError fun _ =>
    .invalidPatch "revision content hash is invalid")
  let bytes ← demand (.historyOpen address) mapStorage
  contentMutation env
    ⟨path, .restore, some expected, false, false, byteReader bytes⟩ caller

/-! ## Staged uploads -/

/-- What `begin_put` decides from the row at the path. -/
def putTarget (path : VaultPath) (create createNew : Bool) (target : Option FileRow) :
    Core (FileOperation × Option Revision × Bool × Option String) :=
  match target.filter (·.isActive) with
  | some file => do
    check (!createNew) .alreadyExists
    check (decide (file.entryType = .file))
      (.invalidPatch "target is not a regular file")
    let _ ← verifyCurrent file false
    pure (.replace, some file.currentRevision, false, file.contentHash)
  | none => do
    check create .notFound
    let absent ← storageAbsent path false
    check absent .externalMismatch
    pure (.create, none, true, none)

/-- An upload commits, or leaves its file and row. -/
inductive PutEnd where
  | committed (result : MutationResult)
  | dropped (id : OperationId) (temp : VaultPath) (error : VaultError)

/-- Under an upload's row: stream and install. -/
def writePut (env : Env) (requireAbsent : Bool) (reader : Reader) (payload : CorePayload)
    (temp : VaultPath) : Core PutEnd := do
  beginWrite payload.operationId temp "staged write could not start"
  let streamed ← attempt (writeChunks temp reader.chunks)
  match streamed, reader.failure with
  | .error e, _ => pure (.dropped payload.operationId temp (.storage e))
  | .ok (), some kind =>
    pure (.dropped payload.operationId temp (.storage (.io "read source stream" kind)))
  | .ok (), none => do
    let written := payload.written
      (reader.chunks.flatten.length, env.hasher.digest reader.chunks.flatten)
    let updated ← perform (.updateOperationPayload payload.operationId written)
    match updated with
    | .error e => pure (.dropped payload.operationId temp (.state e))
    | .ok () => do
      let result ← installPayload written temp (destinationPolicy requireAbsent) false
        "staged write aborted" "staged canonical commit failed" .storage
      pure (.committed result)

section

variable (env : Env) (path : VaultPath) (create createNew : Bool) (reader : Reader) (caller : Caller)

/-- An upload under the locks of its path. -/
def stagePut : Core PutEnd := do
  let target ← perform (.getAnyByPath path)
  let (operation, expected, requireAbsent, priorHash) ←
    putTarget path create createNew target
  let operationId ← perform .newId
  createParent env path false
  let temp ← temporaryPathFor env path false
  let fileId ← fileIdFor target
  let now ← perform .nowMillis
  let payload := contentPayload ⟨path, operation, expected, requireAbsent, false, reader⟩
    { caller with key := none } operationId fileId (target.map (·.path)) now
    (if operation = .create then "file.create" else "file.replace")
  demand (.prepareOperation (payload.prepareInput operationId (some path) (some temp)
    priorHash none)) .state
  writePut env requireAbsent reader payload temp

/-- An upload from `begin_put` to commit or drop. -/
def stagedPut : Core MutationResult := do
  demand (.validateContext true) id
  let ended ← withNamespaceLock true <| withLocks env [path] <|
    stagePut env path create createNew reader caller
  match ended with
  | .committed result => pure result
  | .dropped operationId temp error => do
    perform (.cleanupTemp temp)
    rollBack operationId "staged write dropped" error

end

/-! ## Directories -/

/-- Nothing is at the path, and its parent is there. -/
def requireVacant (path : VaultPath) : Core Unit := do
  let found ← perform (.stat path false)
  match found with
  | .ok _ => .fail .alreadyExists
  | .error .sourceNotFound => pure ()
  | .error e => .fail (mapStorage e)

/-- `create_directory`, with journal and row. -/
def createDirectory (env : Env) (path : VaultPath) (caller : Caller) :
    Core MutationResult := do
  demand (.validateContext true) id
  check (decide (path ≠ [])) .alreadyExists
  withNamespaceLock true <| withLocks env [path] do
    let existing ← perform (.getAnyByPath path)
    check (!existing.any (·.isActive)) .alreadyExists
    requireVacant path
    createParent env path false
    let operationId ← perform .newId
    let fileId ← fileIdFor existing
    let now ← perform .nowMillis
    let payload : CorePayload :=
      { contentPayload ⟨path, .create, none, true, false, ⟨[], none⟩⟩
          { caller with key := none } operationId fileId (existing.map (·.path)) now
          "directory.create" with entryType := .directory }
    demand (.prepareOperation (payload.prepareInput operationId (some path) none none none)) .state
    let made ← attempt (createDirAll env path false)
    match made with
    | .error e => rollBack operationId "directory create failed" e
    | .ok () => do
      demand (.markFileCommitted operationId none) .state
      commitPayload payload

/-! ## Deletion -/

/-- A deletion keeps what the row says. -/
def deletePayload (file : FileRow) (caller : Caller) (operationId : OperationId)
    (path : VaultPath) (expected : Revision) (historyHash : Option String)
    (deletedAt : Int) (auditAction : String) : CorePayload where
  operationId
  fileId := file.id
  entryType := file.entryType
  operation := .delete
  path
  pathBefore := some path
  pathAfter := some path
  expectedRevision := some expected
  requireAbsent := false
  tombstoneArchivePath := none
  contentHash := file.contentHash
  historyBlobHash := historyHash.or file.contentHash
  size := file.size
  modifiedAt := some file.modifiedAt
  filesystemIdentity := file.filesystemIdentity
  deletedAt := some deletedAt
  actor := caller.actor
  sourcePlane := caller.sourcePlane
  idempotencyKey := caller.key
  auditAction
  outboxEvents := eventFor "FileDeleted" file.id

/-- `delete`, and `delete_managed`. -/
def delete (env : Env) (path : VaultPath) (managed : Bool) (expected : Revision)
    (caller : Caller) : Core MutationResult := do
  demand (.validateContext true) id
  check (!managed || env.policy.isReserved path) (.domain .pathNotManaged)
  withLocks env [path] do
    let current ← requireActiveFile path
    requireRevision current expected
    let _ ← verifyCurrent current managed
    let historyHash ← captureHistory current managed
    let operationId ← perform .newId
    let deletedAt ← perform .nowMillis
    let payload := deletePayload current caller operationId path expected historyHash
      deletedAt (if managed then "managed.file.delete" else "file.delete")
    let found ← lookupIdempotency caller.key payload
    match found with
    | some result => pure result
    | none => do
      demand (.prepareOperation (payload.prepareInput operationId (some path) none
        current.contentHash none)) .state
      demand (.deleteEntry path managed) mapStorage
      demand (.markFileCommitted operationId current.contentHash) .state
      commitPayload payload

/-! ## Moves -/

/-- The tombstone goes below the reserved root. -/
def tombstoneArchivePath (env : Env) (fileId : FileId) : VaultPath :=
  env.policy.reservedRoot ++ ["tombstones", toString fileId]

/-- From one path to another. -/
def movePayload (env : Env) (file : FileRow) (caller : Caller) (operationId : OperationId)
    (destination : VaultPath) (occupant : Option FileRow) : CorePayload where
  operationId
  fileId := file.id
  entryType := file.entryType
  operation := .move
  path := destination
  pathBefore := some file.path
  pathAfter := some destination
  expectedRevision := some file.currentRevision
  requireAbsent := true
  tombstoneArchivePath := (occupant.filter fun f => !f.isActive).map fun f =>
    tombstoneArchivePath env f.id
  contentHash := file.contentHash
  historyBlobHash := file.contentHash
  size := file.size
  modifiedAt := some file.modifiedAt
  filesystemIdentity := file.filesystemIdentity
  deletedAt := none
  actor := caller.actor
  sourcePlane := caller.sourcePlane
  idempotencyKey := caller.key
  auditAction := "file.move"
  outboxEvents := eventFor "FileMoved" file.id

def ensureDestinationAbsent (path : VaultPath) : Core Unit := do
  let occupant ← perform (.getActive path)
  check occupant.isNone .alreadyExists
  let absent ← storageAbsent path false
  check absent .externalMismatch

/-- After a rename: metadata, then commit. -/
def finishMove (payload : CorePayload) : Core MutationResult := do
  let metadata ← demand (.stat payload.path false) mapStorage
  let now ← perform .nowMillis
  let payload := { payload with
    modifiedAt := metadata.modifiedAt.or (some now),
    filesystemIdentity := metadata.identity }
  updatePayload payload
  demand (.markFileCommitted payload.operationId payload.contentHash) .state
  commitPayload payload

/-- Every row of the subtree with the path it moves to. -/
def movedEntries (source destination : VaultPath) (entries : List FileRow) :
    List (FileRow × VaultPath) :=
  (entries.filter fun entry => decide (source <+: entry.path)).map fun entry =>
    (entry, destination ++ entry.path.drop source.length)

/-- The rows read are still the current ones. -/
def checkUnchanged (latest : List FileRow) : List (FileRow × VaultPath) → Core Unit
  | [] => pure ()
  | (entry, _) :: rest => do
    let current ← orFail (.revisionConflict entry.currentRevision 0 none)
      (latest.find? fun candidate => candidate.id = entry.id)
    check (decide (current.currentRevision = entry.currentRevision ∧
        current.path = entry.path ∧ current.isActive))
      (.revisionConflict entry.currentRevision current.currentRevision current.contentHash)
    checkUnchanged latest rest

/-- Every entry's payload; the root has the key. -/
def planMoves (env : Env) (source : VaultPath) (caller : Caller) :
    List (FileRow × VaultPath) → Core (List (FileRow × CorePayload))
  | [] => pure []
  | (entry, target) :: rest => do
    let occupant ← perform (.getAnyByPath target)
    check (!occupant.any (·.isActive)) .alreadyExists
    let operationId ← perform .newId
    let payload := movePayload env entry
      (if entry.path = source then caller else { caller with key := none })
      operationId target occupant
    let planned ← planMoves env source caller rest
    pure ((entry, payload) :: planned)

/-- All prepared rows are closed. -/
def rollBackAll (reason : String) : List OperationId → Core Unit
  | [] => pure ()
  | id :: rest => do
    let _ ← perform (.markRolledBack id reason)
    rollBackAll reason rest

/-- A row for each entry; a refusal closes them. -/
def prepareMoves (prepared : List OperationId) : List (FileRow × CorePayload) → Core Unit
  | [] => pure ()
  | (entry, payload) :: rest => do
    let made ← perform (.prepareOperation (payload.prepareInput payload.operationId
      (some entry.path) none entry.contentHash entry.contentHash))
    match made with
    | .error e => do
      rollBackAll "directory move prepare failed" prepared
      .fail (.state e)
    | .ok () => prepareMoves (prepared ++ [payload.operationId]) rest

/-- Commit every entry, keeping the result of the root. -/
def finishMoves (source : VaultPath) (root : Option MutationResult) :
    List (FileRow × CorePayload) → Core (Option MutationResult)
  | [] => pure root
  | (entry, payload) :: rest => do
    let result ← finishMove payload
    finishMoves source (if entry.path = source then some result else root) rest

/-- A directory with every row below it. -/
def moveDirectoryEntry (env : Env) (source destination : VaultPath) (caller : Caller) :
    Core MutationResult := do
  check (decide (¬ source <+: destination))
    (.domain (.preconditionFailed "directory cannot move into its own subtree"))
  let entries ← perform .listActiveEntries
  let mapped := movedEntries source destination entries
  let root ← orFail .notFound ((mapped.map (·.1)).find? fun entry => entry.path = source)
  check (decide (root.entryType = .directory))
    (.invalidPatch "directory move source is not a directory")
  withLocks env (source :: destination :: mapped.flatMap fun m => [m.1.path, m.2]) do
    let latest ← perform .listActiveEntries
    checkUnchanged latest mapped
    createParent env destination false
    let absent ← storageAbsent destination false
    check absent .alreadyExists
    let operations ← planMoves env source caller mapped
    prepareMoves [] operations
    let moved ← perform (.moveEntry source destination)
    match moved with
    | .error e => do
      rollBackAll "directory move failed" (operations.map (·.2.operationId))
      .fail (mapStorage e)
    | .ok () => do
      let result ← finishMoves source none operations
      orFail .notFound result

/-- `move_entry`, for files; directories go below. -/
def moveEntry (env : Env) (source destination : VaultPath) (expected : Revision)
    (caller : Caller) : Core MutationResult := do
  demand (.validateContext true) id
  check (decide (source ≠ destination))
    (.domain (.preconditionFailed "move source and destination match"))
  withNamespaceLock true do
    let initial ← requireActiveFile source
    requireRevision initial expected
    if initial.entryType = .directory then
      moveDirectoryEntry env source destination caller
    else withLocks env [source, destination] do
      createParent env destination false
      let occupant ← perform (.getAnyByPath destination)
      let current ← requireActiveFile source
      requireRevision current expected
      let _ ← verifyCurrent current false
      ensureDestinationAbsent destination
      let operationId ← perform .newId
      let payload := movePayload env current caller operationId destination occupant
      let found ← lookupIdempotency caller.key payload
      match found with
      | some result => pure result
      | none => do
        demand (.prepareOperation (payload.prepareInput operationId (some source) none
          current.contentHash current.contentHash)) .state
        demand (.moveEntry source destination) mapStorage
        finishMove payload

/-! ## Requests -/

/-- A mutation as its caller states it. -/
inductive Request where
  | create (path : VaultPath) (managed : Bool) (reader : Reader)
  | replace (path : VaultPath) (managed : Bool) (expected : Revision) (bytes : Bytes)
  | append (path : VaultPath) (expected : Revision) (bytes : Bytes)
  | patch (path : VaultPath) (expected : Revision) (unifiedDiff : String)
  | insertAfterHeading (path : VaultPath) (expected : Revision)
      (heading insertion : String)
  | replaceHeadingSection (path : VaultPath) (expected : Revision)
      (heading replacement : String)
  | copy (source destination : VaultPath)
  | restore (path : VaultPath) (revision expected : Revision)
  | put (path : VaultPath) (create createNew : Bool) (reader : Reader)
  | createDirectory (path : VaultPath)
  | delete (path : VaultPath) (managed : Bool) (expected : Revision)
  | move (source destination : VaultPath) (expected : Revision)

/-- The procedure that serves a request. -/
def Request.serve (env : Env) (caller : Caller) : Request → Core MutationResult
  | .create path managed reader => VaultCore.create env path managed reader caller
  | .replace path managed expected bytes =>
    VaultCore.replace env path managed expected bytes caller
  | .append path expected bytes => appendBytes env path expected bytes caller
  | .patch path expected diff => patchUnifiedDiff env path expected diff caller
  | .insertAfterHeading path expected heading insertion =>
    VaultCore.insertAfterHeading env path expected heading insertion caller
  | .replaceHeadingSection path expected heading replacement =>
    VaultCore.replaceHeadingSection env path expected heading replacement caller
  | .copy source destination => VaultCore.copy env source destination caller
  | .restore path revision expected => VaultCore.restore env path revision expected caller
  | .put path mayCreate mustCreate reader =>
    stagedPut env path mayCreate mustCreate reader caller
  | .createDirectory path => VaultCore.createDirectory env path caller
  | .delete path managed expected => VaultCore.delete env path managed expected caller
  | .move source destination expected => moveEntry env source destination expected caller

/-! ## A Vault to run -/

def smallEnv : Env where
  context := ⟨0, "notes", "/vaults/notes"⟩
  policy := ⟨[".mcp-vault"], by decide, id⟩
  hasher := smallHasher
  clock tick := tick
  times _ _ := none
  identity _ := none

/-- A registered Vault without any entry. -/
def emptyVault : World where
  mode := .normal
  registered := some ⟨"notes", "/vaults/notes", .active⟩
  db := .empty _ [0]
  tree := emptyTree
  history := []
  locks := []
  tick := 0
  fresh := 0

def callerWith (key : Option String) : Caller := ⟨⟨.mcpPat, some "pat"⟩, .mcp, key⟩

/-- The Vault after a request. -/
def World.after (w : World) (request : Request) (key : Option String) : World :=
  (run (exec smallEnv 0) (request.serve smallEnv (callerWith key)) w).2

end VaultCore
