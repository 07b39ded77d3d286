import McpVault.KeyedTableProofs
import McpVault.FallibleProofs
import McpVault.DomainProofs

/-! # The semantic memory repository — sources, extractions and cards

What a model read in a note: sources with revisions, extraction sets, observations with evidence,
cards with revisions, and snapshots of the card files to be written.  Each call is one transaction,
here a computation that changes nothing when it fails.

Revision, authorization revision, generation and commit sequence of the source fence a
publication: a set captures them when it starts, and later calls compare them.  The tables are
those of one Vault; of the time stamps only the one that orders pending sets is kept. -/

namespace SemanticMemory

open KeyedTable
open VaultDomain (FileId VaultPath Revision)

abbrev SourceId := Nat
abbrev SourceRevisionId := Nat
abbrev EvidenceRefId := Nat
abbrev ObservationId := Nat
abbrev ExtractionSetId := Nat
abbrev MemoryCardId := Nat
abbrev CardRevisionId := Nat
abbrev CardItemId := Nat
abbrev PreparedSnapshotId := Nat
abbrev ComposedCardId := Nat
abbrev RuleId := Nat
abbrev Bytes := List UInt8

/-- The errors of these repositories. -/
inductive StateError where
  | invalidInput (message : String)
  | conflict
  | integrityFailure
  | database
  deriving DecidableEq

/-- The errors of the service over the repository. -/
inductive MemoryError where
  | accessDenied
  | invalidInput (message : String)
  | notFound
  | conflict
  | quarantined
  | state (error : StateError)
  deriving DecidableEq

/-- `map_state_error`. -/
def mapStateError : StateError → MemoryError
  | .conflict => .conflict
  | .invalidInput message => .invalidInput message
  | error => .state error

/-- Digests, JSON, Markdown and normal forms. -/
structure Env where
  sha256Hex : String → String
  hashBytes : Bytes → String
  jsonTexts : List String → String
  materialLines : Bytes → List String
  normalizeMarkdownLine : String → String

/-! ## Rows -/

/-- A row of `semantic_sources`. -/
structure SourceRow where
  fileId : FileId
  currentRevisionId : Option SourceRevisionId
  sourcePath : VaultPath
  contentHash : String
  authorizationRevision : Int
  (sourceGeneration extractionCommitSequence : Nat)
  eligible : Bool
  invalidReason : Option String
  pendingRebuild : Bool

inductive Availability where
  | current
  | historical
  | unavailable
  deriving DecidableEq

structure SourceRevisionRow where
  sourceId : SourceId
  fileId : FileId
  fileRevision : Revision
  contentHash : String
  sourcePath : VaultPath
  availability : Availability
  sourceGeneration : Nat

inductive SpanRole where
  | body
  | context
  deriving DecidableEq

/-- `span_role` as its column has it. -/
def SpanRole.text : SpanRole → String
  | .body => "body"
  | .context => "context"

/-- A row of `semantic_evidence_spans`. -/
structure SpanRow where
  sourceRevisionId : SourceRevisionId
  role : SpanRole
  (ordinal startByte endByte : Nat)
  contentHash : String
  deriving DecidableEq

structure EvidenceRow where
  sourceId : SourceId
  sourceRevisionId : SourceRevisionId
  validated : Bool
  spans : List SpanRow
  deriving DecidableEq

inductive ExtractionState where
  | running
  | prepared
  | successNonempty
  | successEmpty
  | partialSet
  | failed
  | cancelled
  deriving DecidableEq

/-- A row of `semantic_extraction_sets`. -/
structure ExtractionRow where
  sourceId : SourceId
  sourceRevisionId : SourceRevisionId
  state : ExtractionState
  (inputHash profileId : String)
  authorizationRevision : Int
  (sourceGeneration extractionCommitSequence observationCount cardCount : Nat)
  safeErrorCode : Option String
  (requestHash targetKey : String)
  rulesRevision : Nat
  createdAt : Int

/-- An observation, with its linked evidence. -/
structure ObservationRow where
  sourceId : SourceId
  sourceRevisionId : SourceRevisionId
  extractionSetId : ExtractionSetId
  (localKey kind statement scope assertionStatus sourceTimeScope : String)
  (conditions exceptions orderedSteps : List String)
  (result uncertainty : Option String)
  (admissionReason valueForFutureWork : String)
  evidence : List EvidenceRefId
  deriving DecidableEq

inductive Eligibility where
  | pending
  | readable
  | invalidated
  deriving DecidableEq

/-- A row of `semantic_memory_cards`. -/
structure CardRow where
  sourceId : SourceId
  topicKey : String
  currentRevisionId : Option CardRevisionId
  eligibility : Eligibility
  deriving DecidableEq

inductive PublicationState where
  | prepared
  | published
  | blocked
  deriving DecidableEq

/-- A revision of a card, with its dependency. -/
structure CardRevisionRow where
  cardId : MemoryCardId
  sourceId : SourceId
  sourceRevisionId : SourceRevisionId
  extractionSetId : ExtractionSetId
  revisionNumber : Nat
  (title kind scopeRef assertionStatus temporalScope compositionProfileId : String)
  canonicalMarkdownHash : String
  canonicalFileId : Option FileId
  canonicalPath : VaultPath
  canonicalRevision : Option Revision
  publicationState : PublicationState
  targetKey : String
  rulesRevision : Nat
  dependency : SourceRevisionId
  deriving DecidableEq

/-- An item with the evidence for it. -/
structure CardItemRow where
  cardRevisionId : CardRevisionId
  cardId : MemoryCardId
  sourceId : SourceId
  observationId : ObservationId
  kind : String
  ordinal : Nat
  content : String
  supports : List EvidenceRefId
  deriving DecidableEq

inductive SnapshotStatus where
  | prepared
  | written
  | applied
  | blocked
  deriving DecidableEq

/-- A file to be written, and what it is fenced by. -/
structure SnapshotRow where
  extractionSetId : ExtractionSetId
  cardId : MemoryCardId
  cardRevisionId : CardRevisionId
  sourceId : SourceId
  sourceRevisionId : SourceRevisionId
  sourceContentHash : String
  authorizationRevision : Int
  (sourceGeneration extractionCommitSequence : Nat)
  expectedCardRevisionId : Option CardRevisionId
  proposedCardRevisionNumber : Nat
  expectedFileId : Option FileId
  expectedFileRevision : Option Revision
  proposedFileRevision : Revision
  publishedFileId : Option FileId
  publishedFileRevision : Option Revision
  targetPath : VaultPath
  proposedFileHash : String
  canonicalBytes : Bytes
  status : SnapshotStatus
  safeErrorCode : Option String
  targetKey : String
  rulesRevision : Nat

structure TargetRow where
  (targetKind scopeRef : String)
  fingerprintVersion : Nat
  fingerprint : String

inductive SuppressionAction where
  | suppressRead
  | suppressRegeneration
  | forgetCurrent
  deriving DecidableEq

/-- `action IN ('suppress_read', 'forget_current')`. -/
def SuppressionAction.hides : SuppressionAction → Bool
  | .suppressRead | .forgetCurrent => true
  | .suppressRegeneration => false

/-- The target of a rule, and what it is bound to. -/
structure RuleRow where
  (targetKey scopeRef targetKind : String)
  sourceId : Option SourceId
  sourceRevisionId : Option SourceRevisionId
  observationId : Option ObservationId
  cardId : Option MemoryCardId
  composedCardId : Option ComposedCardId
  authorizedBy : String
  revision : Nat
  active : Bool
  rulesRevision : Nat
  idempotencyKey : String

structure SuppressionRow extends RuleRow where
  action : SuppressionAction
  policy : String

/-- The line to be there, and the one that must not. -/
structure CorrectionRow extends RuleRow where
  (replacement removal : String)

inductive TaskState where
  | notStarted
  | inProgress
  | blocked
  | completed
  | unknown
  deriving DecidableEq

structure TaskRow where
  targetKey : String
  state : TaskState

/-- The tables of one Vault. -/
structure Repository where
  sources : Keyed SourceId SourceRow
  sourceRevisions : Keyed SourceRevisionId SourceRevisionRow
  evidence : Keyed EvidenceRefId EvidenceRow
  extractions : Keyed ExtractionSetId ExtractionRow
  idempotency : Keyed String (ExtractionSetId × String)
  observations : Keyed ObservationId ObservationRow
  cards : Keyed MemoryCardId CardRow
  cardRevisions : Keyed CardRevisionId CardRevisionRow
  items : Keyed CardItemId CardItemRow
  snapshots : Keyed PreparedSnapshotId SnapshotRow
  targets : Keyed String TargetRow
  suppressions : Keyed RuleId SuppressionRow
  corrections : Keyed RuleId CorrectionRow
  tasks : Keyed String TaskRow
  rulesRevision : Nat

/-- No row yet. -/
def Repository.empty : Repository :=
  ⟨.empty, .empty, .empty, .empty, .empty, .empty, .empty, .empty, .empty, .empty, .empty, .empty,
    .empty, .empty, 0⟩

/-! ## Statements -/

/-- Fail unless a condition holds. -/
def ensure (p : Prop) [Decidable p] (error : StateError) : Except StateError Unit :=
  if p then .ok () else .error error

/-- Fail on a missing row. -/
def demand {α : Type} (row : Option α) (error : StateError) : Except StateError α :=
  match row with
  | some a => .ok a
  | none => .error error

variable {p : Prop} {error : StateError}

theorem ensure_ok_iff [Decidable p] {u : Unit} : ensure p error = .ok u ↔ p := by
  unfold ensure
  by_cases hp : p
  · rw [if_pos hp]
    exact ⟨fun _ => hp, fun _ => rfl⟩
  · rw [if_neg hp]
    exact ⟨nofun, fun h => absurd h hp⟩

theorem ensure_congr {q : Prop} [Decidable p] [Decidable q] (h : p ↔ q) :
    ensure p error = ensure q error := by
  simp only [h]

theorem demand_ok_iff {α : Type} {row : Option α} {a : α} :
    demand row error = .ok a ↔ row = some a := by
  cases row with
  | none => exact ⟨nofun, nofun⟩
  | some b =>
    constructor
    · intro h
      exact congrArg some (Except.ok.inj h)
    · intro h
      exact congrArg Except.ok (Option.some.inj h)

/-- What a registration is fenced by. -/
structure SourceFile where
  path : VaultPath
  revision : Revision
  contentHash : Option String

/-- `sha256:` is not part of a digest. -/
def stripSha256 (hash : String) : String :=
  if hash.startsWith "sha256:" then (hash.drop 7).toString else hash

/-- `content_hash_matches`, up to case and label. -/
def contentHashMatches (expected : Option String) (actual : String) : Bool :=
  expected.any fun e => decide ((stripSha256 e).toLower = (stripSha256 actual).toLower)

def invalidateCards (s : Repository) (sourceId : SourceId) : Repository :=
  { s with
    cards := s.cards.update (fun _ c => decide (c.sourceId = sourceId))
      fun c => { c with eligibility := .invalidated } }

def invalidateEvidence (s : Repository) (sourceId : SourceId) : Repository :=
  { s with
    evidence := s.evidence.update (fun _ e => decide (e.sourceId = sourceId))
      fun e => { e with validated := false } }

/-- The row of `semantic_sources` with a file. -/
def sourceOfFile (s : Repository) (fileId : FileId) : Option (SourceId × SourceRow) :=
  s.sources.rows.find? fun r => decide (r.2.fileId = fileId)

/-! ## Registration of a source -/

/-- A note as read, fresh identifiers, the fence's row. -/
structure Registration where
  fileId : FileId
  sourcePath : VaultPath
  fileRevision : Revision
  contentHash : String
  authorizationRevision : Int
  fence : Option (SourceFile × Option SourceFile)
  newSourceId : SourceId
  newRevisionId : SourceRevisionId

/-- The file row is still the one that was read. -/
def Registration.fenced (r : Registration) : Bool :=
  match r.fence with
  | none => true
  | some (_, none) => false
  | some (expected, some found) =>
    decide (found.path = expected.path) && decide (found.revision = expected.revision) &&
      contentHashMatches found.contentHash r.contentHash &&
      contentHashMatches found.contentHash (expected.contentHash.getD "")

section

variable (s : Repository) (r : Registration)

/-- The source after an unchanged registration. -/
def registerUnchanged (sourceId : SourceId)
    (source : SourceRow) : Except StateError (Repository × SourceRevisionId) := do
  let revisionId ← demand source.currentRevisionId .integrityFailure
  let existing ← demand (s.sourceRevisions.get revisionId) .database
  let authorizationChanged := decide (source.authorizationRevision ≠ r.authorizationRevision)
  let generationReopened := decide (existing.sourceGeneration ≠ source.sourceGeneration)
  let nextGeneration :=
    if authorizationChanged then source.sourceGeneration + 1 else source.sourceGeneration
  ensure (nextGeneration < 2 ^ 63) .integrityFailure
  let s := { s with sources := s.sources.set sourceId fun row =>
    { row with sourcePath := r.sourcePath } }
  if authorizationChanged || generationReopened then
    let s := { s with
      sources := s.sources.set sourceId fun row =>
        { row with
          authorizationRevision := r.authorizationRevision
          sourceGeneration := nextGeneration
          eligible := false
          invalidReason := some (if authorizationChanged then "authorization_changed"
            else "source_not_extracted")
          pendingRebuild := true }
      sourceRevisions := s.sourceRevisions.update
        (fun id row => decide (id = revisionId ∧ row.sourceId = sourceId))
        fun row => { row with sourceGeneration := nextGeneration } }
    pure (invalidateEvidence (invalidateCards s sourceId) sourceId, revisionId)
  else pure (s, revisionId)

/-- What depends on a changed source is not read. -/
def retireContent (sourceId : SourceId) : Repository :=
  let s := { s with
    sourceRevisions := s.sourceRevisions.update
      (fun _ row => decide (row.sourceId = sourceId ∧ row.availability = .current))
      fun row => { row with availability := .historical }
    sources := s.sources.set sourceId fun row =>
      { row with
        currentRevisionId := none
        contentHash := r.contentHash
        sourcePath := r.sourcePath
        authorizationRevision := r.authorizationRevision
        sourceGeneration := row.sourceGeneration + 1
        eligible := false
        invalidReason := some "source_changed"
        pendingRebuild := true } }
  invalidateEvidence (invalidateCards s sourceId) sourceId

def insertSource : Except StateError Repository := do
  let sources ← demand (s.sources.insert r.newSourceId
    { fileId := r.fileId
      currentRevisionId := none
      sourcePath := r.sourcePath
      contentHash := r.contentHash
      authorizationRevision := r.authorizationRevision
      sourceGeneration := 0
      extractionCommitSequence := 0
      eligible := false
      invalidReason := some "source_not_extracted"
      pendingRebuild := true }) .database
  pure { s with sources }

/-- The new revision, which becomes the current one. -/
def insertSourceRevision (sourceId : SourceId) : Except StateError Repository := do
  let source ← demand (s.sources.get sourceId) .database
  ensure (0 < r.fileRevision ∧ ¬ s.sourceRevisions.rows.any fun row =>
    decide (row.2.sourceId = sourceId ∧ row.2.fileRevision = r.fileRevision ∧
      row.2.contentHash = r.contentHash)) .database
  let revisions ← demand (s.sourceRevisions.insert r.newRevisionId
    { sourceId
      fileId := r.fileId
      fileRevision := r.fileRevision
      contentHash := r.contentHash
      sourcePath := r.sourcePath
      availability := .current
      sourceGeneration := source.sourceGeneration }) .database
  pure { s with
    sourceRevisions := revisions
    sources := s.sources.set sourceId fun row =>
      { row with
        currentRevisionId := some r.newRevisionId
        contentHash := r.contentHash
        sourcePath := r.sourcePath
        authorizationRevision := r.authorizationRevision
        eligible := false
        invalidReason := some "source_changed"
        pendingRebuild := true } }

/-- `upsert_source_revision`: was the content changed? -/
def upsertSourceRevision : Except StateError (Repository × SourceId × SourceRevisionId × Bool) := do
  ensure (r.contentHash ≠ "") (.invalidInput "semantic source hash is required")
  ensure (r.fenced) .conflict
  match sourceOfFile s r.fileId with
  | some (sourceId, source) =>
    if source.contentHash = r.contentHash then
      let (s, revisionId) ← registerUnchanged s r sourceId source
      pure (s, sourceId, revisionId, false)
    else
      let s ← insertSourceRevision (retireContent s r sourceId) r sourceId
      pure (s, sourceId, r.newRevisionId, true)
  | none =>
    let s ← insertSource s r
    let s ← insertSourceRevision s r r.newSourceId
    pure (s, r.newSourceId, r.newRevisionId, true)

end

/-! ## Targets and rules -/

def deriveTargetKey (env : Env) (targetKind scopeRef : String) (fingerprintVersion : Nat)
    (fingerprint : String) : String :=
  "st_" ++ env.sha256Hex ("semantic-target-v1|" ++ targetKind ++ "|" ++ scopeRef ++ "|" ++
    toString fingerprintVersion ++ "|" ++ fingerprint)

/-- `ensure_target_tx`: a new target is stored. -/
def ensureTarget (env : Env) (s : Repository) (targetKind scopeRef : String)
    (fingerprintVersion : Nat) (fingerprint : String) :
    Except StateError (Repository × String) := do
  ensure (targetKind ≠ "" ∧ scopeRef ≠ "" ∧ fingerprint ≠ "")
    (.invalidInput "semantic target material is required")
  ensure (1 ≤ fingerprintVersion) (.invalidInput "semantic target fingerprint version is invalid")
  let key := deriveTargetKey env targetKind scopeRef fingerprintVersion fingerprint
  match s.targets.insert key ⟨targetKind, scopeRef, fingerprintVersion, fingerprint⟩ with
  | some targets => pure ({ s with targets }, key)
  | none => pure (s, key)

/-- What a candidate is, and what it uses. -/
structure Candidate where
  (targetKind targetKey scopeRef : String)
  dependencies : List (SourceId × SourceRevisionId)
  observations : List ObservationId
  cardId : Option MemoryCardId
  composedCardId : Option ComposedCardId
  material : Bytes

namespace RuleRow

variable (rule : RuleRow) (c : Candidate)

def matchesObservation : Bool := rule.observationId.any fun id => decide (id ∈ c.observations)

def matchesSource : Bool :=
  rule.sourceId.any fun source => c.dependencies.any fun d =>
    decide (source = d.1) && rule.sourceRevisionId.all fun revision => decide (revision = d.2)

def matchesCard : Bool := rule.cardId.all fun id => decide (c.cardId = some id)

def matchesComposedCard : Bool :=
  rule.composedCardId.all fun id => decide (c.composedCardId = some id)

/-- By observation, card, source, or target. -/
def isBoundTo : Bool :=
  if rule.observationId.isSome then
    rule.matchesObservation c && rule.matchesSource c && rule.matchesCard c &&
      rule.matchesComposedCard c
  else if rule.cardId.isSome || rule.composedCardId.isSome then
    rule.matchesCard c && rule.matchesComposedCard c &&
      (rule.sourceId.isNone || rule.matchesSource c)
  else if rule.sourceId.isSome || rule.sourceRevisionId.isSome then rule.matchesSource c
  else decide (rule.targetKey = c.targetKey)

def concerns : Bool :=
  rule.active && decide (rule.scopeRef = c.scopeRef) && rule.isBoundTo c

end RuleRow

/-- A rule against publishing a candidate. -/
def SuppressionRow.blocks (x : SuppressionRow) (c : Candidate) : Bool :=
  x.concerns c &&
    ((x.action.hides && decide (c.targetKind = "memory_card") &&
        (x.matchesSource c || x.matchesObservation c)) ||
      decide (x.action = .suppressRegeneration ∨ x.action = .forgetCurrent))

/-- `correction_matches_material`, line by line. -/
def correctionMatchesMaterial (env : Env) (x : CorrectionRow) (material : Bytes) : Bool :=
  let replacement := env.normalizeMarkdownLine x.replacement
  let removal := env.normalizeMarkdownLine x.removal
  let lines := (env.materialLines material).map env.normalizeMarkdownLine
  decide (replacement ≠ "" ∧ removal ≠ "" ∧ lines.count replacement = 1 ∧
    lines.count removal = 0 ∧ replacement ≠ removal)

def CorrectionRow.blocks (env : Env) (x : CorrectionRow) (c : Candidate) : Bool :=
  x.concerns c && !correctionMatchesMaterial env x c.material

/-- `target_blocks_generation`. -/
def targetBlocksGeneration (env : Env) (s : Repository) (c : Candidate) : Bool :=
  s.corrections.rows.any (fun r => r.2.blocks env c) || s.suppressions.rows.any fun r => r.2.blocks c

/-! ## Extractions -/

structure StartInput where
  id : ExtractionSetId
  sourceId : SourceId
  sourceRevisionId : SourceRevisionId
  (inputHash profileId idempotencyKey requestHash : String)
  now : Int

/-- `start_extraction`: the set, and whether it is new. -/
def startExtraction (env : Env) (s : Repository) (i : StartInput) :
    Except StateError (Repository × ExtractionSetId × Bool) := do
  match s.idempotency.get i.idempotencyKey with
  | some (existing, hash) =>
    ensure (hash = i.requestHash) .conflict
    let _ ← demand (s.extractions.get existing) .database
    pure (s, existing, false)
  | none =>
    let source ← demand (s.sources.get i.sourceId) (.invalidInput "semantic source is unavailable")
    ensure (source.currentRevisionId = some i.sourceRevisionId) .conflict
    let revision ← demand ((s.sourceRevisions.get i.sourceRevisionId).filter
      fun r => decide (r.sourceId = i.sourceId)) .database
    ensure (revision.contentHash = source.contentHash ∧
      revision.sourceGeneration = source.sourceGeneration) .conflict
    let (s, targetKey) ← ensureTarget env s "source_extraction" "source" 1
      (toString i.sourceId ++ ":" ++ toString i.sourceRevisionId ++ ":" ++ i.profileId)
    let extractions ← demand (s.extractions.insert i.id
      { sourceId := i.sourceId
        sourceRevisionId := i.sourceRevisionId
        state := .running
        inputHash := i.inputHash
        profileId := i.profileId
        authorizationRevision := source.authorizationRevision
        sourceGeneration := source.sourceGeneration
        extractionCommitSequence := source.extractionCommitSequence + 1
        observationCount := 0
        cardCount := 0
        safeErrorCode := none
        requestHash := i.requestHash
        targetKey
        rulesRevision := s.rulesRevision
        createdAt := i.now }) .database
    let idempotency ← demand
      (s.idempotency.insert i.idempotencyKey (i.id, i.requestHash)) .database
    pure ({ s with
      sources := s.sources.set i.sourceId fun row =>
        { row with extractionCommitSequence := row.extractionCommitSequence + 1 }
      extractions
      idempotency }, i.id, true)

/-- How `finish_empty_or_nonpublishable` ends a set. -/
inductive FinishState where
  | successEmpty
  | partialSet
  | failed
  | cancelled
  deriving DecidableEq

def FinishState.state : FinishState → ExtractionState
  | .successEmpty => .successEmpty
  | .partialSet => .partialSet
  | .failed => .failed
  | .cancelled => .cancelled

/-- A running set with its source and its revision. -/
def runningSet (s : Repository) (id : ExtractionSetId) :
    Except StateError (ExtractionRow × SourceRow × SourceRevisionRow) := do
  let e ← demand ((s.extractions.get id).filter fun e => decide (e.state = .running)) .conflict
  let source ← demand (s.sources.get e.sourceId) .conflict
  let revision ← demand ((s.sourceRevisions.get e.sourceRevisionId).filter
    fun r => decide (r.sourceId = e.sourceId)) .conflict
  pure (e, source, revision)

/-- The four counters are those that the set captured. -/
def ExtractionRow.Fenced (e : ExtractionRow) (source : SourceRow) (revision : SourceRevisionRow) :
    Prop :=
  source.currentRevisionId = some e.sourceRevisionId ∧
    e.authorizationRevision = source.authorizationRevision ∧
    e.sourceGeneration = source.sourceGeneration ∧
    revision.sourceGeneration = source.sourceGeneration ∧
    e.extractionCommitSequence = source.extractionCommitSequence

instance (e : ExtractionRow) (source : SourceRow) (revision : SourceRevisionRow) :
    Decidable (e.Fenced source revision) :=
  inferInstanceAs (Decidable (_ ∧ _ ∧ _ ∧ _ ∧ _))

/-- `finish_empty_or_nonpublishable`. -/
def finishEmptyOrNonpublishable (s : Repository) (id : ExtractionSetId) (state : FinishState)
    (safeErrorCode : Option String) : Except StateError Repository := do
  let (e, source, revision) ← runningSet s id
  ensure (e.rulesRevision = s.rulesRevision) .conflict
  ensure (state = .successEmpty → e.Fenced source revision) .conflict
  let s := { s with extractions := s.extractions.set id fun row =>
    { row with
      state := state.state
      safeErrorCode
      observationCount := 0
      cardCount := 0 } }
  if state = .successEmpty then
    let s := invalidateEvidence (invalidateCards s e.sourceId) e.sourceId
    pure { s with
      sources := s.sources.update
        (fun sourceId row => decide (sourceId = e.sourceId ∧
          row.currentRevisionId = some e.sourceRevisionId ∧
          row.authorizationRevision = source.authorizationRevision))
        fun row => { row with eligible := true, invalidReason := none, pendingRebuild := false } }
  else pure s

/-! ## Preparing a publication -/

structure SpanInput where
  (startByte endByte : Nat)
  contentHash : String

structure EvidenceInput where
  id : EvidenceRefId
  (bodySpans contextSpans : List SpanInput)

structure ObservationInput where
  id : ObservationId
  (localKey kind statement scope assertionStatus sourceTimeScope : String)
  (conditions exceptions orderedSteps : List String)
  (result uncertainty : Option String)
  (admissionReason valueForFutureWork : String)
  evidence : EvidenceInput

structure CardItemInput where
  id : CardItemId
  observationId : ObservationId
  kind : String
  ordinal : Nat
  content : String
  evidenceRefIds : List EvidenceRefId

structure CardRevisionInput where
  cardId : MemoryCardId
  cardRevisionId : CardRevisionId
  expectedCardRevisionId : Option CardRevisionId
  revisionNumber : Nat
  (topicKey title kind scopeRef assertionStatus temporalScope compositionProfileId : String)
  canonicalPath : VaultPath
  canonicalMarkdownHash : String
  canonicalBytes : Bytes
  items : List CardItemInput
  /-- Drawn for the snapshot of this card. -/
  snapshotId : PreparedSnapshotId

/-- `insert_spans`. -/
def spanRows (revisionId : SourceRevisionId) (role : SpanRole) (spans : List SpanInput) :
    Except StateError (List SpanRow) :=
  spans.zipIdx.mapM fun (span, ordinal) => do
    ensure (span.startByte < 2 ^ 63 ∧ span.endByte < 2 ^ 63)
      (.invalidInput "semantic span is too large")
    ensure (span.startByte < span.endByte ∧ span.contentHash ≠ "")
      (.invalidInput "semantic span is invalid")
    pure ⟨revisionId, role, ordinal, span.startByte, span.endByte, span.contentHash⟩

/-- What `prepare_publication` reads before it writes. -/
structure PrepareContext where
  id : ExtractionSetId
  set : ExtractionRow
  source : SourceRow

/-- One observation with its evidence. -/
def insertObservation (c : PrepareContext) (s : Repository) (o : ObservationInput) :
    Except StateError Repository := do
  let body ← spanRows c.set.sourceRevisionId .body o.evidence.bodySpans
  let context ← spanRows c.set.sourceRevisionId .context o.evidence.contextSpans
  let evidence ← demand (s.evidence.insert o.evidence.id
    { sourceId := c.set.sourceId
      sourceRevisionId := c.set.sourceRevisionId
      validated := true
      spans := body ++ context }) .database
  ensure (¬ s.observations.rows.any fun row =>
    decide (row.2.extractionSetId = c.id ∧ row.2.localKey = o.localKey)) .database
  let observations ← demand (s.observations.insert o.id
    { sourceId := c.set.sourceId
      sourceRevisionId := c.set.sourceRevisionId
      extractionSetId := c.id
      localKey := o.localKey
      kind := o.kind
      statement := o.statement
      scope := o.scope
      assertionStatus := o.assertionStatus
      sourceTimeScope := o.sourceTimeScope
      conditions := o.conditions
      exceptions := o.exceptions
      orderedSteps := o.orderedSteps
      result := o.result
      uncertainty := o.uncertainty
      admissionReason := o.admissionReason
      valueForFutureWork := o.valueForFutureWork
      evidence := [o.evidence.id] }) .database
  pure { s with evidence, observations }

/-- Texts in ascending order. -/
def sortTexts (texts : List String) : List String := texts.insertionSort (· ≤ ·)

/-- A span as the fingerprint names it. -/
def SpanRow.identity (span : SpanRow) : String :=
  span.role.text ++ ":" ++ toString span.ordinal ++ ":" ++ span.contentHash

/-- The part of an item in the fingerprint of its card. -/
def itemFingerprint (env : Env) (s : Repository) (sourceId : SourceId) (card : CardRevisionInput)
    (item : CardItemInput) : Except StateError String := do
  let o ← demand ((s.observations.get item.observationId).filter
    fun o => decide (o.sourceId = sourceId)) .database
  let spans := item.evidenceRefIds.flatMap fun id =>
    ((s.evidence.get id).elim [] EvidenceRow.spans).map SpanRow.identity
  pure ("|".intercalate
    [toString sourceId, card.kind, card.scopeRef, card.assertionStatus, item.kind,
      toString item.ordinal, item.content, o.kind, o.statement, o.scope, o.assertionStatus,
      env.jsonTexts o.conditions, env.jsonTexts o.exceptions, env.jsonTexts o.orderedSteps,
      o.sourceTimeScope, o.result.getD "", o.uncertainty.getD ""] ++
    "|" ++ ",".intercalate (sortTexts spans))

/-- `semantic_card_fingerprint`. -/
def semanticCardFingerprint (env : Env) (s : Repository) (sourceId : SourceId)
    (card : CardRevisionInput) : Except StateError String := do
  let parts ← card.items.mapM (itemFingerprint env s sourceId card)
  pure ("||".intercalate (sortTexts parts))

/-- The target of a card's current revision. -/
def existingTarget (s : Repository) (cardId : MemoryCardId) : Option (String × String) := do
  let card ← s.cards.get cardId
  let revision ← card.currentRevisionId.bind s.cardRevisions.get
  let target ← s.targets.get revision.targetKey
  if revision.targetKey = "" then none else some (revision.targetKey, target.fingerprint)

/-- A card that keeps its fingerprint keeps its target. -/
def cardTarget (env : Env) (s : Repository) (card : CardRevisionInput) (fingerprint : String) :
    Except StateError (Repository × String) :=
  match existingTarget s card.cardId with
  | some (key, existing) =>
    if existing = fingerprint then pure (s, key)
    else ensureTarget env s "memory_card" card.scopeRef 2 fingerprint
  | none => ensureTarget env s "memory_card" card.scopeRef 2 fingerprint

/-- An item rests on its set's observation. -/
def checkItem (c : PrepareContext) (s : Repository) (item : CardItemInput) :
    Except StateError Unit := do
  let o ← demand ((s.observations.get item.observationId).filter
    fun o => decide (o.sourceId = c.set.sourceId)) .conflict
  ensure (o.sourceRevisionId = c.set.sourceRevisionId ∧ o.extractionSetId = c.id) .conflict
  item.evidenceRefIds.forM fun id => do
    let e ← demand ((s.evidence.get id).filter fun e => decide (e.sourceId = c.set.sourceId))
      .conflict
    ensure (e.sourceRevisionId = c.set.sourceRevisionId ∧ id ∈ o.evidence ∧
      ∀ span ∈ e.spans, span.sourceRevisionId = c.set.sourceRevisionId) .conflict

/-- The current revision of a card of a source. -/
def currentCardRevision (s : Repository) (cardId : MemoryCardId) (sourceId : SourceId) :
    Option CardRevisionId :=
  ((s.cards.get cardId).filter fun c => decide (c.sourceId = sourceId)).bind
    CardRow.currentRevisionId

/-- With `UNIQUE (source_id, topic_key)`. -/
def insertCard (s : Repository) (sourceId : SourceId) (card : CardRevisionInput) :
    Except StateError Repository := do
  ensure (¬ s.cards.rows.any fun row =>
    decide (row.2.sourceId = sourceId ∧ row.2.topicKey = card.topicKey)) .database
  let cards ← demand (s.cards.insert card.cardId ⟨sourceId, card.topicKey, none, .pending⟩) .database
  pure { s with cards }

/-- The revision a card is expected to have. -/
def priorRevision (s : Repository) (card : CardRevisionInput) :
    Except StateError (Option CardRevisionRow) :=
  match card.expectedCardRevisionId with
  | none => pure none
  | some expected => do
    let prior ← demand ((s.cardRevisions.get expected).filter fun r =>
      decide (r.cardId = card.cardId ∧ r.publicationState = .published)) .conflict
    ensure (prior.canonicalFileId.isSome ∧ prior.canonicalRevision.isSome) .conflict
    pure (some prior)

/-- `INSERT`, with its `UNIQUE` key. -/
def insertCardRevision (c : PrepareContext) (s : Repository) (card : CardRevisionInput)
    (targetKey : String) : Except StateError Repository := do
  ensure (¬ s.cardRevisions.rows.any fun row =>
    decide (row.2.cardId = card.cardId ∧ row.2.revisionNumber = card.revisionNumber)) .database
  let revisions ← demand (s.cardRevisions.insert card.cardRevisionId
    { cardId := card.cardId
      sourceId := c.set.sourceId
      sourceRevisionId := c.set.sourceRevisionId
      extractionSetId := c.id
      revisionNumber := card.revisionNumber
      title := card.title
      kind := card.kind
      scopeRef := card.scopeRef
      assertionStatus := card.assertionStatus
      temporalScope := card.temporalScope
      compositionProfileId := card.compositionProfileId
      canonicalMarkdownHash := card.canonicalMarkdownHash
      canonicalFileId := none
      canonicalPath := card.canonicalPath
      canonicalRevision := none
      publicationState := .prepared
      targetKey
      rulesRevision := c.set.rulesRevision
      dependency := c.set.sourceRevisionId }) .database
  pure { s with cardRevisions := revisions }

/-- One item, with the keys of items and supports. -/
def insertItem (c : PrepareContext) (card : CardRevisionInput) (s : Repository)
    (item : CardItemInput) : Except StateError Repository := do
  ensure (item.evidenceRefIds ≠ [])
    (.invalidInput "each semantic card item requires evidence")
  ensure (item.evidenceRefIds.Nodup ∧ ¬ s.items.rows.any fun row =>
    decide (row.2.cardRevisionId = card.cardRevisionId ∧ row.2.kind = item.kind ∧
      row.2.ordinal = item.ordinal)) .database
  let items ← demand (s.items.insert item.id
    { cardRevisionId := card.cardRevisionId
      cardId := card.cardId
      sourceId := c.set.sourceId
      observationId := item.observationId
      kind := item.kind
      ordinal := item.ordinal
      content := item.content
      supports := item.evidenceRefIds }) .database
  pure { s with items }

/-- `INSERT`, with its `UNIQUE` key. -/
def insertSnapshot (c : PrepareContext) (s : Repository) (card : CardRevisionInput)
    (prior : Option CardRevisionRow) (targetKey : String) : Except StateError Repository := do
  ensure (¬ s.snapshots.rows.any fun row => decide (row.2.cardRevisionId = card.cardRevisionId))
    .database
  let snapshots ← demand (s.snapshots.insert card.snapshotId
    { extractionSetId := c.id
      cardId := card.cardId
      cardRevisionId := card.cardRevisionId
      sourceId := c.set.sourceId
      sourceRevisionId := c.set.sourceRevisionId
      sourceContentHash := c.source.contentHash
      authorizationRevision := c.set.authorizationRevision
      sourceGeneration := c.source.sourceGeneration
      extractionCommitSequence := c.set.extractionCommitSequence
      expectedCardRevisionId := card.expectedCardRevisionId
      proposedCardRevisionNumber := card.revisionNumber
      expectedFileId := prior.bind CardRevisionRow.canonicalFileId
      expectedFileRevision := prior.bind CardRevisionRow.canonicalRevision
      proposedFileRevision := (prior.bind CardRevisionRow.canonicalRevision).getD 0 + 1
      publishedFileId := none
      publishedFileRevision := none
      targetPath := card.canonicalPath
      proposedFileHash := card.canonicalMarkdownHash
      canonicalBytes := card.canonicalBytes
      status := .prepared
      safeErrorCode := none
      targetKey
      rulesRevision := c.set.rulesRevision }) .database
  pure { s with snapshots }

/-- A card as the rules judge it. -/
def cardCandidate (c : PrepareContext) (card : CardRevisionInput) (targetKey : String) :
    Candidate where
  targetKind := "memory_card"
  targetKey
  scopeRef := card.scopeRef
  dependencies := [(c.set.sourceId, c.set.sourceRevisionId)]
  observations := card.items.map CardItemInput.observationId
  cardId := some card.cardId
  composedCardId := none
  material := card.canonicalBytes

/-- One card of the set. -/
def prepareCard (env : Env) (c : PrepareContext) (s : Repository) (card : CardRevisionInput) :
    Except StateError Repository := do
  let fingerprint ← semanticCardFingerprint env s c.set.sourceId card
  let (s, targetKey) ← cardTarget env s card fingerprint
  ensure (targetBlocksGeneration env s (cardCandidate c card targetKey) = false) .conflict
  ensure (card.canonicalBytes ≠ [] ∧ card.canonicalMarkdownHash ≠ "")
    (.invalidInput "semantic card snapshot bytes and hash are required")
  let current := currentCardRevision s card.cardId c.set.sourceId
  ensure (current = card.expectedCardRevisionId) .conflict
  card.items.forM (checkItem c s)
  let s ← (if current.isNone then insertCard s c.set.sourceId card else .ok s)
  let prior ← priorRevision s card
  ensure (card.revisionNumber = prior.elim 1 fun r => r.revisionNumber + 1) .conflict
  let s ← insertCardRevision c s card targetKey
  let s ← card.items.foldlM (insertItem c card) s
  insertSnapshot c s card prior targetKey

/-- `prepare_publication`. -/
def preparePublication (env : Env) (s : Repository) (id : ExtractionSetId)
    (observations : List ObservationInput) (cards : List CardRevisionInput) :
    Except StateError Repository := do
  ensure (observations ≠ [] ∧ cards ≠ [])
    (.invalidInput "nonempty semantic publication requires observations and cards")
  let (e, source, revision) ← runningSet s id
  ensure (source.currentRevisionId = some e.sourceRevisionId) .conflict
  ensure (e.inputHash = source.contentHash) .conflict
  ensure (e.Fenced source revision) .conflict
  ensure (e.rulesRevision = s.rulesRevision) .conflict
  ensure (∀ card ∈ cards, card.compositionProfileId = e.profileId) .conflict
  let c : PrepareContext := ⟨id, e, source⟩
  let s ← observations.foldlM (insertObservation c) s
  let s ← cards.foldlM (prepareCard env c) s
  pure { s with extractions := s.extractions.set id fun row =>
    { row with
      state := .prepared
      observationCount := observations.length
      cardCount := cards.length } }

/-! ## Publishing and giving up -/

/-- `mark_snapshot_written`. -/
def markSnapshotWritten (s : Repository) (id : PreparedSnapshotId) (fileId : FileId)
    (revision : Revision) : Except StateError Repository := do
  let p ← demand ((s.snapshots.get id).filter
    fun p => decide (p.status = .prepared ∨ p.status = .written)) .conflict
  let source ← demand (s.sources.get p.sourceId) .conflict
  ensure (p.extractionCommitSequence = source.extractionCommitSequence ∧
    p.rulesRevision = s.rulesRevision ∧ revision = p.proposedFileRevision ∧
    ∀ expected ∈ p.expectedFileId, expected = fileId) .conflict
  pure { s with
    snapshots := s.snapshots.set id fun row =>
      { row with
        status := .written
        publishedFileId := some fileId
        publishedFileRevision := some revision }
    cardRevisions := s.cardRevisions.update
      (fun rid row => decide (rid = p.cardRevisionId ∧ row.publicationState = .prepared))
      fun row => { row with canonicalFileId := some fileId, canonicalRevision := some revision } }

/-- `ORDER BY snapshot_id`. -/
def snapshotsOf (s : Repository) (id : ExtractionSetId) :
    List (PreparedSnapshotId × SnapshotRow) :=
  (s.snapshots.select fun _ p => decide (p.extractionSetId = id)).insertionSort
    fun a b => a.1 ≤ b.1

/-- Both are of one capture of one source. -/
def SnapshotRow.Agrees (p q : SnapshotRow) : Prop :=
  p.sourceId = q.sourceId ∧ p.sourceRevisionId = q.sourceRevisionId ∧
    p.authorizationRevision = q.authorizationRevision ∧
    p.sourceGeneration = q.sourceGeneration ∧
    p.extractionCommitSequence = q.extractionCommitSequence

instance (p q : SnapshotRow) : Decidable (p.Agrees q) :=
  inferInstanceAs (Decidable (_ ∧ _ ∧ _ ∧ _ ∧ _))

/-- The source is as the snapshot has it. -/
def SnapshotRow.Current (p : SnapshotRow) (source : SourceRow) : Prop :=
  source.currentRevisionId = some p.sourceRevisionId ∧
    source.contentHash = p.sourceContentHash ∧
    source.authorizationRevision = p.authorizationRevision ∧
    source.sourceGeneration = p.sourceGeneration ∧
    source.extractionCommitSequence = p.extractionCommitSequence

instance (p : SnapshotRow) (source : SourceRow) : Decidable (p.Current source) :=
  inferInstanceAs (Decidable (_ ∧ _ ∧ _ ∧ _ ∧ _))

section

variable (s : Repository)

/-- A snapshot's fences and expected revision. -/
def checkSnapshot (p : SnapshotRow) : Except StateError Unit := do
  let source ← demand (s.sources.get p.sourceId) .conflict
  let revision ← demand ((s.sourceRevisions.get p.sourceRevisionId).filter
    fun r => decide (r.sourceId = p.sourceId)) .database
  ensure (p.Current source ∧ revision.contentHash = p.sourceContentHash ∧
    revision.sourceGeneration = source.sourceGeneration ∧
    p.publishedFileRevision = some p.proposedFileRevision ∧ p.publishedFileId.isSome) .conflict
  ensure (currentCardRevision s p.cardId p.sourceId = p.expectedCardRevisionId) .conflict

/-- A card takes the revision of a snapshot. -/
def publishSnapshot (entry : PreparedSnapshotId × SnapshotRow) : Except StateError Repository := do
  let p := entry.2
  ensure (currentCardRevision s p.cardId p.sourceId = p.expectedCardRevisionId ∧
    (s.cards.get p.cardId).any fun c => decide (c.sourceId = p.sourceId)) .conflict
  pure { s with
    cards := s.cards.set p.cardId fun row =>
      { row with currentRevisionId := some p.cardRevisionId, eligibility := .readable }
    cardRevisions := s.cardRevisions.update
      (fun id row => decide (id = p.cardRevisionId ∧ row.publicationState = .prepared))
      fun row =>
        { row with
          publicationState := .published
          canonicalFileId := p.publishedFileId
          canonicalRevision := p.publishedFileRevision }
    snapshots := s.snapshots.update
      (fun id row => decide (id = entry.1 ∧ row.status = .written))
      fun row => { row with status := .applied } }

/-- `apply_publication`. -/
def applyPublication (id : ExtractionSetId) : Except StateError Repository := do
  let snapshots := snapshotsOf s id
  let first ← demand snapshots.head? .conflict
  ensure (∀ p ∈ snapshots, p.2.status = .written) .conflict
  ensure (∀ p ∈ snapshots, p.2.rulesRevision = s.rulesRevision) .conflict
  ensure (∀ p ∈ snapshots, p.2.Agrees first.2) .conflict
  -- a complete set replaces the cards of its source
  let s := { s with
    cards := s.cards.update
      (fun cardId row => decide (row.sourceId = first.2.sourceId ∧
        cardId ∉ snapshots.map fun p => p.2.cardId))
      fun row => { row with eligibility := .invalidated } }
  snapshots.forM fun p => checkSnapshot s p.2
  let s ← snapshots.foldlM publishSnapshot s
  pure { s with
    sources := s.sources.update
      (fun sourceId row => decide (sourceId = first.2.sourceId ∧
        row.currentRevisionId = some first.2.sourceRevisionId ∧
        row.authorizationRevision = first.2.authorizationRevision))
      fun row => { row with eligible := true, invalidReason := none, pendingRebuild := false }
    extractions := s.extractions.update
      (fun eid row => decide (eid = id ∧ row.state = .prepared))
      fun row => { row with state := .successNonempty } }

section

variable (id : ExtractionSetId) (safeErrorCode : String)

/-- What was not applied of a set is blocked. -/
def blockSet : Repository :=
  { s with
    snapshots := s.snapshots.update
      (fun _ p => decide (p.extractionSetId = id ∧ (p.status = .prepared ∨ p.status = .written)))
      fun p => { p with status := .blocked, safeErrorCode := some safeErrorCode }
    cardRevisions := s.cardRevisions.update
      (fun _ r => decide (r.extractionSetId = id ∧ r.publicationState = .prepared))
      fun r => { r with publicationState := .blocked } }

/-- `reject_publication`. -/
def rejectPublication : Repository :=
  let s := blockSet s id safeErrorCode
  { s with
    extractions := s.extractions.update
      (fun eid row => decide (eid = id ∧ row.state = .prepared))
      fun row => { row with state := .partialSet, safeErrorCode := some safeErrorCode } }

/-- `cancel_extraction`. -/
def cancelExtraction :
    Except StateError Repository := do
  let e ← demand (s.extractions.get id) .conflict
  match e.state with
  | .cancelled => pure s
  | .running =>
    let s := { s with extractions := s.extractions.set id fun row =>
      { row with
        state := .cancelled
        safeErrorCode := some safeErrorCode
        observationCount := 0
        cardCount := 0 } }
    pure (blockSet s id safeErrorCode)
  | _ => .error .conflict

end

/-- `invalidate_source`: whether there was one. -/
def invalidateSource (fileId : FileId) (reason : String)
    (authorizationRevision : Option Int) : Repository × Bool :=
  match sourceOfFile s fileId with
  | none => (s, false)
  | some (sourceId, _) =>
    let s := { s with sources := s.sources.set sourceId fun row =>
      { row with
        eligible := false
        pendingRebuild := true
        invalidReason := some reason
        sourceGeneration := row.sourceGeneration + 1
        authorizationRevision := authorizationRevision.getD row.authorizationRevision } }
    (invalidateEvidence (invalidateCards s sourceId) sourceId, true)

/-- `invalidate_all_sources`. -/
def invalidateAllSources (reason : String) (authorizationRevision : Option Int) : Repository :=
  { s with
    sources := s.sources.modify fun _ row =>
      { row with
        eligible := false
        pendingRebuild := true
        invalidReason := some reason
        sourceGeneration := row.sourceGeneration + 1
        authorizationRevision := authorizationRevision.getD row.authorizationRevision }
    cards := s.cards.modify fun _ c => { c with eligibility := .invalidated }
    evidence := s.evidence.modify fun _ e => { e with validated := false } }

end

end SemanticMemory
