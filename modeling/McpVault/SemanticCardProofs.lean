import McpVault.SemanticStoreProofs
import McpVault.TransitionProofs

/-! # Which cards are readable

Extractions of one source may run side by side, and their calls may come at any time.  The
invariant `Sound` says that a readable card is from the set that succeeded last, whose capture
the source still has: a call that changes what sets capture takes the source's cards out of
reach, and one that makes a card readable compares the commit sequence, which later starts
advance. -/

namespace SemanticMemory

open KeyedTable Transition List
open Fallible (bind_ok_iff)
open VaultDomain (FileId VaultPath Revision)
open Keyed (get_eq_some_iff get_insert_of_some get_set get_update isSome_kept set_eq
  set_set update_eq)
open Option (bind_eq_some_iff filter_eq_some_iff map_eq_some_iff map_some none_or some.inj)

/-! ## The readers -/

/-- What the readers of cards see of a source. -/
structure SourceView where
  sourcePath : VaultPath
  currentRevisionId : Option SourceRevisionId
  (eligible pendingRebuild : Bool)
  deriving DecidableEq

def SourceRow.view (source : SourceRow) : SourceView :=
  ⟨source.sourcePath, source.currentRevisionId, source.eligible, source.pendingRebuild⟩

/-- A card with its revision and source. -/
structure CardHeader where
  cardId : MemoryCardId
  card : CardRow
  revisionId : CardRevisionId
  revision : CardRevisionRow
  source : SourceView
  deriving DecidableEq

/-- A card that has a revision and a source. -/
def cardHeader (s : Repository) (entry : MemoryCardId × CardRow) : Option CardHeader := do
  let revisionId ← entry.2.currentRevisionId
  let revision ← s.cardRevisions.get revisionId
  let source ← s.sources.get entry.2.sourceId
  pure ⟨entry.1, entry.2, revisionId, revision, source.view⟩

/-- A revision has an item from an observation. -/
def hasItemFrom (s : Repository) (revisionId : CardRevisionId) (observationId : ObservationId) :
    Bool :=
  s.items.rows.any fun r =>
    decide (r.2.cardRevisionId = revisionId ∧ r.2.observationId = observationId)

/-- `x.source_id IS NULL OR x.source_id = …`, and so on. -/
def RuleRow.admitsSource (x : RuleRow) (sourceId : SourceId) (revisionId : SourceRevisionId) :
    Bool :=
  x.sourceId.all (fun id => decide (id = sourceId)) &&
    x.sourceRevisionId.all fun id => decide (id = revisionId)

/-- By its target, itself or its source. -/
def SuppressionRow.hidesCard (s : Repository) (x : SuppressionRow) (h : CardHeader) : Bool :=
  let observed := x.observationId.all (hasItemFrom s h.revisionId)
  x.active && x.action.hides && x.composedCardId.isNone &&
    (decide (x.targetKey = h.revision.targetKey) &&
        x.admitsSource h.card.sourceId h.revision.sourceRevisionId &&
        x.cardId.all (fun id => decide (id = h.cardId)) ||
      decide (x.cardId = some h.cardId) &&
        x.admitsSource h.card.sourceId h.revision.sourceRevisionId && observed ||
      x.cardId.isNone && decide (x.sourceId = some h.card.sourceId) &&
        x.sourceRevisionId.all (fun id => decide (id = h.revision.sourceRevisionId)) && observed)

/-- A task with this target is completed. -/
def taskCompleted (s : Repository) (targetKey : String) : Bool :=
  s.tasks.rows.any fun t => decide (t.2.targetKey = targetKey ∧ t.2.state = .completed)

/-- The `WHERE` clause that the card readers share. -/
def CardHeader.isReadable (s : Repository) (h : CardHeader) : Bool :=
  decide (h.card.eligibility = .readable) && decide (h.revision.publicationState = .published) &&
    h.source.eligible && !h.source.pendingRebuild &&
    decide (h.source.currentRevisionId = some h.revision.dependency) &&
    !(s.suppressions.rows.any fun x => x.2.hidesCard s h) && !taskCompleted s h.revision.targetKey

def readableHeaders (s : Repository) : List CardHeader :=
  (s.cards.rows.filterMap (cardHeader s)).filter (CardHeader.isReadable s)

/-- `title COLLATE NOCASE, card_id`. -/
def CardHeader.Precedes (a b : CardHeader) : Prop :=
  a.revision.title.toLower < b.revision.title.toLower ∨
    a.revision.title.toLower = b.revision.title.toLower ∧ a.cardId ≤ b.cardId

instance : DecidableRel CardHeader.Precedes := fun _ _ => inferInstanceAs (Decidable (_ ∨ _))

structure CardItemRecord where
  kind : String
  ordinal : Nat
  content : String
  observationId : ObservationId
  (observationKind scope assertionStatus sourceTimeScope : String)
  evidenceRefIds : List EvidenceRefId
  deriving DecidableEq

/-- A card as the readers return it. -/
structure CardRecord where
  id : MemoryCardId
  revisionId : CardRevisionId
  sourceId : SourceId
  sourceRevisionId : SourceRevisionId
  sourcePath : VaultPath
  (title kind scopeRef assertionStatus temporalScope : String)
  revisionNumber : Nat
  canonicalPath : VaultPath
  canonicalFileId : FileId
  canonicalFileRevision : Revision
  canonicalMarkdownHash : String
  items : List CardItemRecord
  deriving DecidableEq

/-- An item with its observation and evidence. -/
def buildItemRecord (s : Repository) (h : CardHeader) (item : CardItemRow) (o : ObservationRow) :
    Except StateError CardItemRecord := do
  ensure (o.sourceRevisionId = h.revision.sourceRevisionId) .integrityFailure
  let evidence := (item.supports.filter fun id => (s.evidence.get id).isSome).insertionSort (· ≤ ·)
  ensure (evidence ≠ [] ∧ ∀ id ∈ evidence, (s.evidence.get id).all fun e =>
    decide (e.sourceRevisionId = h.revision.sourceRevisionId)) .integrityFailure
  pure
    { kind := item.kind
      ordinal := item.ordinal
      content := item.content
      observationId := item.observationId
      observationKind := o.kind
      scope := o.scope
      assertionStatus := o.assertionStatus
      sourceTimeScope := o.sourceTimeScope
      evidenceRefIds := evidence }

/-- `ORDER BY item_kind, ordinal`. -/
def itemsOf (s : Repository) (revisionId : CardRevisionId) : List CardItemRow :=
  ((s.items.select fun _ i => decide (i.cardRevisionId = revisionId)).map Prod.snd).insertionSort
    fun a b => a.kind < b.kind ∨ a.kind = b.kind ∧ a.ordinal ≤ b.ordinal

/-- `build_card_records`, for one header. -/
def buildCardRecord (s : Repository) (h : CardHeader) : Except StateError CardRecord := do
  let joined := (itemsOf s h.revisionId).filterMap fun i =>
    (s.observations.get i.observationId).map (i, ·)
  let items ← joined.mapM fun io => buildItemRecord s h io.1 io.2
  let fileId ← demand h.revision.canonicalFileId .integrityFailure
  let fileRevision ← demand h.revision.canonicalRevision .integrityFailure
  pure
    { id := h.cardId
      revisionId := h.revisionId
      sourceId := h.card.sourceId
      sourceRevisionId := h.revision.sourceRevisionId
      sourcePath := h.source.sourcePath
      title := h.revision.title
      kind := h.revision.kind
      scopeRef := h.revision.scopeRef
      assertionStatus := h.revision.assertionStatus
      temporalScope := h.revision.temporalScope
      revisionNumber := h.revision.revisionNumber
      canonicalPath := h.revision.canonicalPath
      canonicalFileId := fileId
      canonicalFileRevision := fileRevision
      canonicalMarkdownHash := h.revision.canonicalMarkdownHash
      items }

/-- `list_cards`. -/
def listCards (s : Repository) (limit : Nat) : Except StateError (List CardRecord) := do
  ensure (limit ≠ 0 ∧ limit ≤ 200) (.invalidInput "semantic card limit must be between 1 and 200")
  (((readableHeaders s).insertionSort CardHeader.Precedes).take limit).mapM (buildCardRecord s)

variable {header : CardHeader} {card : CardRecord} {s s' : Repository}

/-- The readers look at rules, tasks and items too. -/
theorem isReadable_congr (hitems : s'.items = s.items) (hrules : s'.suppressions = s.suppressions)
    (htasks : s'.tasks = s.tasks) : CardHeader.isReadable s' = CardHeader.isReadable s := by
  have hitem : hasItemFrom s' = hasItemFrom s := by
    unfold hasItemFrom
    rw [hitems]
  have hhides : SuppressionRow.hidesCard s' = SuppressionRow.hidesCard s := by
    unfold SuppressionRow.hidesCard
    rw [hitem]
  have htask : taskCompleted s' = taskCompleted s := by
    unfold taskCompleted
    rw [htasks]
  unfold CardHeader.isReadable
  rw [hrules, hhides, htask]

theorem buildCardRecord_congr (hitems : s'.items = s.items)
    (hobservations : s'.observations = s.observations) (hevidence : s'.evidence = s.evidence) :
    buildCardRecord s' = buildCardRecord s := by
  have hitem : buildItemRecord s' = buildItemRecord s := by
    unfold buildItemRecord
    rw [hevidence]
  have hof : itemsOf s' = itemsOf s := by
    unfold itemsOf
    rw [hitems]
  unfold buildCardRecord
  rw [hitem, hof, hobservations]

/-- The header of a card, if the card is readable. -/
def readableHeader (s : Repository) (entry : MemoryCardId × CardRow) : Option CardHeader :=
  (cardHeader s entry).filter (CardHeader.isReadable s)

theorem readableHeaders_eq (s : Repository) :
    readableHeaders s = s.cards.rows.filterMap (readableHeader s) := by
  exact filter_filterMap

theorem listCards_congr (hheaders : readableHeaders s' = readableHeaders s)
    (hrecord : buildCardRecord s' = buildCardRecord s) : listCards s' = listCards s := by
  unfold listCards
  rw [hheaders, hrecord]

theorem cardHeader_eq_some_iff {entry : MemoryCardId × CardRow} {h : CardHeader} :
    cardHeader s entry = some h ↔ entry = (h.cardId, h.card) ∧
      h.card.currentRevisionId = some h.revisionId ∧
      s.cardRevisions.get h.revisionId = some h.revision ∧
      (s.sources.get h.card.sourceId).map SourceRow.view = some h.source := by
  unfold cardHeader
  constructor
  · intro heq
    obtain ⟨revisionId, hid, heq⟩ := bind_eq_some_iff.mp heq
    obtain ⟨revision, hrevision, heq⟩ := bind_eq_some_iff.mp heq
    obtain ⟨source, hsource, heq⟩ := bind_eq_some_iff.mp heq
    obtain rfl := some.inj heq
    exact ⟨rfl, hid, hrevision, congrArg (Option.map SourceRow.view) hsource⟩
  · rintro ⟨rfl, hid, hrevision, hview⟩
    obtain ⟨source, hsource, hview⟩ := map_eq_some_iff.mp hview
    simp only [hid, hrevision, hsource, hview, Option.bind_eq_bind, Option.bind_some]
    rfl

theorem published_of_readable (h : header.isReadable s) :
    header.card.eligibility = .readable ∧
      header.revision.publicationState = .published := by
  unfold CardHeader.isReadable at h
  simp only [Bool.and_eq_true, decide_eq_true_eq] at h
  exact ⟨h.1.1.1.1.1.1, h.1.1.1.1.1.2⟩

theorem mem_readableHeaders :
    header ∈ readableHeaders s ↔ (header.cardId, header.card) ∈ s.cards.rows ∧
      cardHeader s (header.cardId, header.card) = some header ∧ header.isReadable s := by
  unfold readableHeaders
  rw [mem_filter, mem_filterMap]
  constructor
  · rintro ⟨⟨entry, hentry, hjoin⟩, hread⟩
    obtain ⟨rfl, -⟩ := cardHeader_eq_some_iff.mp hjoin
    exact ⟨hentry, hjoin, hread⟩
  · rintro ⟨hentry, hjoin, hread⟩
    exact ⟨⟨_, hentry, hjoin⟩, hread⟩

/-- A listed card has a readable header. -/
theorem header_of_listed {limit : Nat} {cards : List CardRecord}
    (h : listCards s limit = .ok cards) (hmem : card ∈ cards) : ∃ header ∈ readableHeaders s,
      buildCardRecord s header = .ok card := by
  obtain ⟨u, -, h⟩ := bind_ok_iff.mp h
  obtain ⟨header, hheader, hbuild⟩ := Fallible.exists_of_mapM h hmem
  exact ⟨header, mem_insertionSort _ |>.mp (mem_of_mem_take hheader), hbuild⟩

/-- What a record takes from its header. -/
theorem ids_of_record (h : buildCardRecord s header = .ok card) : card.id = header.cardId ∧
      card.revisionId = header.revisionId ∧ card.sourceId = header.card.sourceId ∧
      card.sourceRevisionId = header.revision.sourceRevisionId := by
  unfold buildCardRecord at h
  simp only [bind_ok_iff] at h
  obtain ⟨items, -, fileId, -, revision, -, h⟩ := h
  cases h
  exact ⟨rfl, rfl, rfl, rfl⟩

/-! ## The calls, in any order -/

/-- The calls of the extraction life cycle. -/
inductive Call where
  | register (r : Registration)
  | start (i : StartInput)
  | finish (id : ExtractionSetId) (state : FinishState) (code : Option String)
  | prepare (id : ExtractionSetId) (observations : List ObservationInput)
      (cards : List CardRevisionInput)
  | markWritten (id : PreparedSnapshotId) (fileId : FileId) (revision : Revision)
  | apply (id : ExtractionSetId)
  | reject (id : ExtractionSetId) (code : String)
  | cancel (id : ExtractionSetId) (code : String)
  | invalidate (fileId : FileId) (reason : String) (authorization : Option Int)
  | invalidateAll (reason : String) (authorization : Option Int)

/-- One call of the life cycle. -/
def exec (env : Env) (s : Repository) : Call → Except StateError Repository
  | .register r => (upsertSourceRevision s r).map Prod.fst
  | .start i => (startExtraction env s i).map Prod.fst
  | .finish id state code => finishEmptyOrNonpublishable s id state code
  | .prepare id observations cards => preparePublication env s id observations cards
  | .markWritten id fileId revision => markSnapshotWritten s id fileId revision
  | .apply id => applyPublication s id
  | .reject id code => .ok (rejectPublication s id code)
  | .cancel id code => cancelExtraction s id code
  | .invalidate fileId reason authorization =>
    .ok (invalidateSource s fileId reason authorization).1
  | .invalidateAll reason authorization => .ok (invalidateAllSources s reason authorization)

/-- The set that a call is made for. -/
def Call.actsFor (s : Repository) : Call → ExtractionSetId → Prop
  | .start i, id => i.id = id
  | .finish e _ _, id | .prepare e _ _, id | .apply e, id | .reject e _, id | .cancel e _, id => e = id
  | .markWritten p _ _, id => ∃ row, s.snapshots.get p = some row ∧ row.extractionSetId = id
  | .register _, _ | .invalidate _ _ _, _ | .invalidateAll _ _, _ => False

/-- Which set of a source last succeeded. -/
structure Watched where
  repo : Repository
  latest : SourceId → Option ExtractionSetId

/-- The set a call made `success_nonempty`. -/
def succeeded (before after : Repository) (sourceId : SourceId) : Option ExtractionSetId :=
  (after.extractions.rows.find? fun r => decide (r.2.sourceId = sourceId) &&
    decide (r.2.state = .successNonempty) &&
    !((before.extractions.get r.1).any fun e => decide (e.state = .successNonempty))).map Prod.fst

def watch (env : Env) (w : Watched) (call : Call) : Option Watched :=
  match exec env w.repo call with
  | .ok repo => some ⟨repo, fun sourceId => (succeeded w.repo repo sourceId).or (w.latest sourceId)⟩
  | .error _ => none

/-- Nothing was extracted yet; the rules may be any. -/
structure Repository.Unused (s : Repository) : Prop where
  sources : s.sources = .empty
  extractions : s.extractions = .empty
  cards : s.cards = .empty
  cardRevisions : s.cardRevisions = .empty
  snapshots : s.snapshots = .empty

/-! ## What a set captured -/

section Calls

variable {env : Env} {s s' : Repository} {w : Watched} {c : PrepareContext} {id : ExtractionSetId}
  {sourceId : SourceId} {card : CardRevisionInput} {call : Call}

/-- What a set captured when it started. -/
structure Capture where
  sourceId : SourceId
  sourceRevisionId : SourceRevisionId
  contentHash : String
  authorizationRevision : Int
  (sourceGeneration extractionCommitSequence : Nat)

def ExtractionRow.capture (e : ExtractionRow) : Capture :=
  ⟨e.sourceId, e.sourceRevisionId, e.inputHash, e.authorizationRevision, e.sourceGeneration,
    e.extractionCommitSequence⟩

def SnapshotRow.capture (p : SnapshotRow) : Capture :=
  ⟨p.sourceId, p.sourceRevisionId, p.sourceContentHash, p.authorizationRevision,
    p.sourceGeneration, p.extractionCommitSequence⟩

/-- The source has what was captured. -/
structure SourceRow.Holds (source : SourceRow) (c : Capture) : Prop where
  revision : source.currentRevisionId = some c.sourceRevisionId
  content : source.contentHash = c.contentHash
  authorization : source.authorizationRevision = c.authorizationRevision
  generation : source.sourceGeneration = c.sourceGeneration

variable {item : CardItemRow} {r : CardRevisionRow} {card' : CardRow} {e o : ExtractionRow}
  {older : ExtractionSetId} {out : ExtractionSetId × Bool}
  {f : ExtractionSetId → ExtractionRow → ExtractionRow} {fileId : FileId}
  {cards : List CardRevisionInput} {observations : List ObservationInput}
  {entry : PreparedSnapshotId × SnapshotRow} {revision : Revision} {p q : SnapshotRow}
  {row source : SourceRow} {i : StartInput} {fingerprint key targetKey : String}
  {w' : Watched}

/-- A snapshot that a set has not done with yet. -/
def SnapshotRow.isOpen (p : SnapshotRow) : Bool :=
  decide (p.status = .prepared ∨ p.status = .written)

/-! ## What no call undoes -/

/-- The columns of a revision that are written once. -/
def CardRevisionRow.fixed (r : CardRevisionRow) : CardRevisionRow :=
  { r with canonicalFileId := none, canonicalRevision := none, publicationState := .prepared }

/-- The columns of a snapshot that are written once. -/
def SnapshotRow.fixed (p : SnapshotRow) : SnapshotRow :=
  { p with
    publishedFileId := none
    publishedFileRevision := none
    status := .prepared
    safeErrorCode := none }

theorem CardRevisionRow.eq_with_of_fixed {r' : CardRevisionRow} (h : r'.fixed = r.fixed) :
    r' = { r with
      canonicalFileId := r'.canonicalFileId
      canonicalRevision := r'.canonicalRevision
      publicationState := r'.publicationState } := by
  have hback : ∀ q : CardRevisionRow, q = { q.fixed with
      canonicalFileId := q.canonicalFileId
      canonicalRevision := q.canonicalRevision
      publicationState := q.publicationState } := fun _ => rfl
  rw [hback r', h]
  rfl

theorem CardRevisionRow.set_of_fixed {q : CardRevisionRow} (h : r.fixed = q.fixed) :
    r.extractionSetId = q.extractionSetId := by
  show r.fixed.extractionSetId = q.fixed.extractionSetId
  rw [h]

theorem SnapshotRow.capture_of_fixed (h : p.fixed = q.fixed) : p.capture = q.capture := by
  show p.fixed.capture = q.fixed.capture
  rw [h]

/-- The set, the card and the revision of a snapshot. -/
theorem SnapshotRow.ids_of_fixed (h : p.fixed = q.fixed) :
    p.extractionSetId = q.extractionSetId ∧ p.cardId = q.cardId ∧
      p.cardRevisionId = q.cardRevisionId := by
  refine ⟨?_, ?_, ?_⟩
  · show p.fixed.extractionSetId = q.fixed.extractionSetId
    rw [h]
  · show p.fixed.cardId = q.fixed.cardId
    rw [h]
  · show p.fixed.cardRevisionId = q.fixed.cardRevisionId
    rw [h]

/-- Rows keep what is fixed; a success stays one. -/
structure Extends (s s' : Repository) : Prop where
  sets : ∀ id e, s.extractions.get id = some e → ∃ e', s'.extractions.get id = some e' ∧
    e'.capture = e.capture ∧ (e.state = .successNonempty → e'.state = .successNonempty)
  revisions : ∀ id r, s.cardRevisions.get id = some r →
    ∃ r', s'.cardRevisions.get id = some r' ∧ r'.fixed = r.fixed
  snapshots : ∀ id p, s.snapshots.get id = some p →
    ∃ p', s'.snapshots.get id = some p' ∧ p'.fixed = p.fixed

/-- Rewriting extends if rows keep what is fixed. -/
theorem Extends.of_modify {g : CardRevisionId → CardRevisionRow → CardRevisionRow}
    {k : PreparedSnapshotId → SnapshotRow → SnapshotRow}
    (he : s'.extractions = s.extractions.modify f)
    (hr : s'.cardRevisions = s.cardRevisions.modify g) (hp : s'.snapshots = s.snapshots.modify k)
    (hf : ∀ id e, s.extractions.get id = some e → (f id e).capture = e.capture ∧
      (e.state = .successNonempty → (f id e).state = .successNonempty))
    (hg : ∀ id r, (g id r).fixed = r.fixed) (hk : ∀ id p, (k id p).fixed = p.fixed) :
    Extends s s' where
  sets := by
    intro id e h
    refine ⟨f id e, ?_, hf id e h⟩
    rw [he, Keyed.get_modify, h]
    rfl
  revisions := by
    intro id r h
    refine ⟨g id r, ?_, hg id r⟩
    rw [hr, Keyed.get_modify, h]
    rfl
  snapshots := by
    intro id p h
    refine ⟨k id p, ?_, hk id p⟩
    rw [hp, Keyed.get_modify, h]
    rfl

/-! ## The invariant -/

/-- A snapshot has the capture and a revision of its set, and is open only while the set is
    prepared (or being prepared). -/
structure SnapshotSound (s : Repository) (preparing : Option ExtractionSetId)
    (p : SnapshotRow) : Prop where
  set : ∃ e, s.extractions.get p.extractionSetId = some e ∧ p.capture = e.capture ∧
    (p.isOpen → preparing ≠ some p.extractionSetId → e.state = .prepared)
  revision : ∃ r, s.cardRevisions.get p.cardRevisionId = some r ∧
    r.extractionSetId = p.extractionSetId

/-- A readable card is of the last set that succeeded. -/
def CardSound (s : Repository) (latest : Option ExtractionSetId) (id : MemoryCardId)
    (card : CardRow) : Prop :=
  ∃ pid p e source, s.snapshots.get pid = some p ∧ p.cardId = id ∧
    card.currentRevisionId = some p.cardRevisionId ∧ latest = some p.extractionSetId ∧
    s.extractions.get p.extractionSetId = some e ∧ e.state = .successNonempty ∧
    p.capture = e.capture ∧ e.sourceId = card.sourceId ∧
    (∃ r, s.cardRevisions.get p.cardRevisionId = some r ∧ r.extractionSetId = p.extractionSetId) ∧
    s.sources.get card.sourceId = some source ∧ source.Holds e.capture

/-- The invariant of all runs. -/
structure Sound (w : Watched) : Prop where
  sets : ∀ id e, w.repo.extractions.get id = some e → ∃ source,
    w.repo.sources.get e.sourceId = some source ∧
      e.extractionCommitSequence ≤ source.extractionCommitSequence
  ordered : w.repo.extractions.rows.Pairwise fun a b => a.2.sourceId = b.2.sourceId →
    a.2.extractionCommitSequence < b.2.extractionCommitSequence
  snapshots : ∀ id p, w.repo.snapshots.get id = some p → SnapshotSound w.repo none p
  cards : ∀ id card, w.repo.cards.get id = some card → card.eligibility = .readable →
    CardSound w.repo (w.latest card.sourceId) id card
  noted : ∀ sourceId id, w.latest sourceId = some id → ∃ e, w.repo.extractions.get id = some e ∧
    e.sourceId = sourceId

/-- It keeps its origin while its source does. -/
theorem CardSound.extend {latest : Option ExtractionSetId} {id : MemoryCardId} {card : CardRow}
    (h : CardSound s latest id card) (hext : Extends s s')
    (hsource : ∀ source c, s.sources.get card.sourceId = some source → source.Holds c →
      ∃ source', s'.sources.get card.sourceId = some source' ∧ source'.Holds c) :
    CardSound s' latest id card := by
  obtain ⟨pid, p, e, source, hp, hid, hcur, hlatest, he, hstate, hcap, hsrc, ⟨r, hr, hset⟩, hsource',
    hholds⟩ := h
  obtain ⟨p', hp', hpfix⟩ := hext.snapshots pid p hp
  obtain ⟨e', he', hecap, hestate⟩ := hext.sets _ e he
  obtain ⟨r', hr', hrfix⟩ := hext.revisions _ r hr
  obtain ⟨source', hget, hholds'⟩ := hsource source e.capture hsource' hholds
  obtain ⟨hpset, hpid, hprev⟩ := SnapshotRow.ids_of_fixed hpfix
  refine ⟨pid, p', e', source', hp', hpid.trans hid, hprev ▸ hcur, hpset ▸ hlatest, hpset ▸ he',
    hestate hstate, ?_, ?_, ⟨r', hprev ▸ hr', ?_⟩, hget, hecap ▸ hholds'⟩
  · rw [SnapshotRow.capture_of_fixed hpfix, hcap, hecap]
  · exact (congrArg Capture.sourceId hecap).trans hsrc
  · rw [CardRevisionRow.set_of_fixed hrfix, hset, hpset]

/-- The order of the sets is that of their captures. -/
theorem ordered_of_captures {rows rows' : List (ExtractionSetId × ExtractionRow)}
    (h : rows'.map (fun r => r.2.capture) = rows.map fun r => r.2.capture)
    (hord : rows.Pairwise fun a b => a.2.sourceId = b.2.sourceId →
      a.2.extractionCommitSequence < b.2.extractionCommitSequence) :
    rows'.Pairwise fun a b => a.2.sourceId = b.2.sourceId →
      a.2.extractionCommitSequence < b.2.extractionCommitSequence := by
  have key : ∀ l : List (ExtractionSetId × ExtractionRow),
      (l.map fun r => r.2.capture).Pairwise (fun a b => a.sourceId = b.sourceId →
        a.extractionCommitSequence < b.extractionCommitSequence) ↔
      l.Pairwise fun a b => a.2.sourceId = b.2.sourceId →
        a.2.extractionCommitSequence < b.2.extractionCommitSequence := fun l =>
    pairwise_map
  rw [← key, h, key]
  exact hord

/-- The invariant after a call that starts no set. -/
theorem Sound.of_call {latest : SourceId → Option ExtractionSetId} (hw : Sound w)
    (hsets : s'.extractions = w.repo.extractions.modify f)
    (hcap : ∀ id e, (f id e).capture = e.capture)
    (hsources : ∀ id source, w.repo.sources.get id = some source → ∃ source',
      s'.sources.get id = some source' ∧
        source.extractionCommitSequence ≤ source'.extractionCommitSequence)
    (hsnapshots : ∀ id p, s'.snapshots.get id = some p → SnapshotSound s' none p)
    (hcards : ∀ id card, s'.cards.get id = some card → card.eligibility = .readable →
      CardSound s' (latest card.sourceId) id card)
    (hnoted : ∀ sourceId id, latest sourceId = some id → w.latest sourceId = some id ∨
      ∃ e, w.repo.extractions.get id = some e ∧ e.sourceId = sourceId) : Sound ⟨s', latest⟩ where
  sets := by
    intro id e' he'
    rw [hsets, Keyed.get_modify] at he'
    obtain ⟨e, he, rfl⟩ := map_eq_some_iff.mp he'
    obtain ⟨source, hsource, hle⟩ := hw.sets id e he
    obtain ⟨source', hsource', hle'⟩ := hsources _ source hsource
    have hsrc : (f id e).sourceId = e.sourceId := congrArg Capture.sourceId (hcap id e)
    have hseq : (f id e).extractionCommitSequence = e.extractionCommitSequence :=
      congrArg Capture.extractionCommitSequence (hcap id e)
    refine ⟨source', hsrc ▸ hsource', ?_⟩
    rw [hseq]
    exact hle.trans hle'
  ordered := by
    refine ordered_of_captures ?_ hw.ordered
    show s'.extractions.rows.map _ = _
    rw [hsets, Keyed.rows_modify, map_map]
    exact map_congr_left fun r _ => hcap r.1 r.2
  snapshots := hsnapshots
  cards := hcards
  noted := by
    intro sourceId id hlatest
    obtain ⟨e, he, hsrc⟩ := (hnoted sourceId id hlatest).elim (hw.noted sourceId id) fun h => h
    refine ⟨f id e, ?_, (congrArg Capture.sourceId (hcap id e)).trans hsrc⟩
    show s'.extractions.get id = _
    rw [hsets, Keyed.get_modify, he]
    rfl

/-- Nothing is noted without a success. -/
theorem succeeded_eq_none (sourceId : SourceId)
    (h : ∀ id e', s'.extractions.get id = some e' → e'.sourceId = sourceId →
      e'.state = .successNonempty →
        ∃ e, s.extractions.get id = some e ∧ e.state = .successNonempty) :
    succeeded s s' sourceId = none := by
  unfold succeeded
  rw [Option.map_eq_none_iff, List.find?_eq_none]
  rintro ⟨id, e'⟩ hmem hfound
  simp only [Bool.and_eq_true, decide_eq_true_eq] at hfound
  obtain ⟨⟨hsrc, hstate⟩, hnew⟩ := hfound
  obtain ⟨e, he, hold⟩ := h id e' (get_eq_some_iff.mpr hmem) hsrc hstate
  rw [he] at hnew
  simp [hold] at hnew

/-! ## Calls that take a source out of reach -/

/-- A card without its eligibility. -/
def CardRow.place (card : CardRow) : SourceId × String × Option CardRevisionId :=
  (card.sourceId, card.topicKey, card.currentRevisionId)

/-- Sets stay; so does a source, or its cards go. -/
structure Retires (s s' : Repository) : Prop where
  rest : s' = { s with
    sources := s'.sources
    sourceRevisions := s'.sourceRevisions
    cards := s'.cards
    evidence := s'.evidence }
  evidence : ∀ id e, s.evidence.get id = some e → ∃ valid,
    s'.evidence.get id = some { e with validated := valid }
  places : ∀ id, (s'.cards.get id).map CardRow.place = (s.cards.get id).map CardRow.place
  sources : ∀ id source, s.sources.get id = some source → ∃ source',
    s'.sources.get id = some source' ∧
      source'.extractionCommitSequence = source.extractionCommitSequence ∧
      (((∃ path, source' = { source with sourcePath := path }) ∧
          ∀ cid card, s.cards.get cid = some card → card.sourceId = id →
            s'.cards.get cid = some card) ∨
        ∀ cid card, s'.cards.get cid = some card → card.sourceId = id →
          card.eligibility ≠ .readable)
  cards : ∀ id card, s'.cards.get id = some card → card.eligibility = .readable →
    s.cards.get id = some card

theorem CardRow.place_eq_iff {card : CardRow} : card'.place = card.place ↔
    card'.sourceId = card.sourceId ∧ card'.topicKey = card.topicKey ∧
      card'.currentRevisionId = card.currentRevisionId := by
  unfold CardRow.place
  rw [Prod.mk.injEq, Prod.mk.injEq]

theorem Retires.extractions (h : Retires s s') : s'.extractions = s.extractions := by rw [h.rest]

theorem Retires.cardRevisions (h : Retires s s') : s'.cardRevisions = s.cardRevisions := by rw [h.rest]

theorem Retires.snapshots (h : Retires s s') : s'.snapshots = s.snapshots := by rw [h.rest]

theorem Retires.currents (h : Retires s s') {id : MemoryCardId}
    (hcard' : s'.cards.get id = some card') : ∃ card, s.cards.get id = some card ∧
      card'.sourceId = card.sourceId ∧ card'.currentRevisionId = card.currentRevisionId := by
  have hplace := h.places id
  rw [hcard'] at hplace
  obtain ⟨card, hcard, hsame⟩ := map_eq_some_iff.mp hplace.symm
  obtain ⟨hsource, -, hcurrent⟩ := CardRow.place_eq_iff.mp hsame
  exact ⟨card, hcard, hsource.symm, hcurrent.symm⟩

theorem Retires.refl (s : Repository) : Retires s s :=
  ⟨rfl, fun _ e h => ⟨e.validated, h⟩, fun _ => rfl,
    fun _ source h => ⟨source, h, rfl, .inl ⟨⟨source.sourcePath, rfl⟩, fun _ _ h _ => h⟩⟩,
    fun _ _ h _ => h⟩

theorem Retires.extend (h : Retires s s') : Extends s s' where
  sets := by
    intro id e he
    exact ⟨e, h.extractions ▸ he, rfl, fun hs => hs⟩
  revisions := by
    intro id r hr
    exact ⟨r, h.cardRevisions ▸ hr, rfl⟩
  snapshots := by
    intro id p hp
    exact ⟨p, h.snapshots ▸ hp, rfl⟩

theorem Sound.retires (hw : Sound w) (h : Retires w.repo s') : Sound ⟨s', w.latest⟩ := by
  have hid : s'.extractions = w.repo.extractions.modify fun _ e => e := by
    rw [h.extractions, Keyed.modify_id]
  refine hw.of_call hid (fun _ _ => rfl) ?_ ?_ ?_ fun _ _ h => .inl h
  · intro id source hsource
    obtain ⟨source', hsource', hseq, -⟩ := h.sources id source hsource
    exact ⟨source', hsource', hseq.ge⟩
  · intro id p hp
    rw [h.snapshots] at hp
    obtain ⟨hset, hrevision⟩ := hw.snapshots id p hp
    refine ⟨?_, ?_⟩
    · rw [h.extractions]
      exact hset
    · rw [h.cardRevisions]
      exact hrevision
  · intro id card hcard hreadable
    have hsound := hw.cards id card (h.cards id card hcard hreadable) hreadable
    refine hsound.extend h.extend ?_
    intro source c hsource hholds
    obtain ⟨source', hsource', -, ⟨⟨path, rfl⟩, -⟩ | hnone⟩ := h.sources _ source hsource
    · exact ⟨_, hsource', { hholds with }⟩
    · exact absurd hreadable (hnone id card hcard rfl)

/-- The cards after those of a source were invalidated. -/
theorem get_invalidateCards {id : MemoryCardId} :
    (invalidateCards s sourceId).cards.get id = (s.cards.get id).map fun c =>
      if c.sourceId = sourceId then { c with eligibility := .invalidated } else c := by
  show (s.cards.update _ _).get id = _
  rw [get_update]
  simp only [decide_eq_true_eq]

/-- Invalidated cards of a source are out of reach. -/
theorem not_readable_of_invalidated {id : MemoryCardId} {card : CardRow}
    (h : (invalidateCards s sourceId).cards.get id = some card) :
    card.sourceId = sourceId → card.eligibility ≠ .readable := by
  rw [get_invalidateCards] at h
  obtain ⟨c, -, rfl⟩ := map_eq_some_iff.mp h
  by_cases hc : c.sourceId = sourceId
  · rw [if_pos hc]
    exact nofun
  · rw [if_neg hc]
    exact fun hsrc => absurd hsrc hc

/-- The other cards are as they were. -/
theorem readable_of_invalidated {id : MemoryCardId} {card : CardRow}
    (h : (invalidateCards s sourceId).cards.get id = some card)
    (hreadable : card.eligibility = .readable) : s.cards.get id = some card := by
  rw [get_invalidateCards] at h
  obtain ⟨c, hc, rfl⟩ := map_eq_some_iff.mp h
  by_cases hcs : c.sourceId = sourceId
  · rw [if_pos hcs] at hreadable
    cases hreadable
  · rw [if_neg hcs]
    exact hc

/-- An invalidated card keeps its place. -/
theorem place_of_invalidated (s : Repository) (sourceId : SourceId) (id : MemoryCardId) :
    ((invalidateCards s sourceId).cards.get id).map CardRow.place =
      (s.cards.get id).map CardRow.place := by
  rw [get_invalidateCards, Option.map_map]
  congr 1
  funext card
  show CardRow.place (if card.sourceId = sourceId then _ else card) = card.place
  split <;> rfl

/-- The cards of the other sources are as they were. -/
theorem get_invalidateCards_of_ne {id : MemoryCardId} {card : CardRow}
    (h : s.cards.get id = some card) (hne : card.sourceId ≠ sourceId) :
    (invalidateCards s sourceId).cards.get id = some card := by
  rw [get_invalidateCards, h, map_some, if_neg hne]

theorem get_invalidateEvidence {id : EvidenceRefId} {e : EvidenceRow}
    (h : s.evidence.get id = some e) : ∃ valid,
      (invalidateEvidence s sourceId).evidence.get id = some { e with validated := valid } := by
  have hget : (invalidateEvidence s sourceId).evidence.get id = _ :=
    (get_update _ _).trans (congrArg (Option.map _) h)
  rw [hget, map_some]
  split
  · exact ⟨false, rfl⟩
  · exact ⟨e.validated, rfl⟩

/-- One source changes, its cards go. -/
theorem Retires.of_invalidate {f : SourceRow → SourceRow} (hrest : s' = { s with
      sources := s'.sources
      sourceRevisions := s'.sourceRevisions
      cards := s'.cards
      evidence := s'.evidence }) (hsources : s'.sources = s.sources.set sourceId f)
    (hcards : s'.cards = (invalidateCards s sourceId).cards)
    (hevidence : s'.evidence = (invalidateEvidence s sourceId).evidence)
    (hseq : ∀ row, (f row).extractionCommitSequence = row.extractionCommitSequence) :
    Retires s s' where
  rest := hrest
  evidence := by
    intro id e he
    rw [hevidence]
    exact get_invalidateEvidence he
  places := by
    intro id
    rw [hcards]
    exact place_of_invalidated s sourceId id
  sources := by
    intro id source hsource
    rw [hsources, get_set]
    by_cases hid : id = sourceId
    · refine ⟨f source, by rw [if_pos hid, hsource]; rfl, hseq source, .inr ?_⟩
      intro cid card hcard hcsrc
      rw [hcards] at hcard
      exact not_readable_of_invalidated hcard (hcsrc.trans hid)
    · refine ⟨source, by rw [if_neg hid]; exact hsource, rfl, .inl ⟨⟨source.sourcePath, rfl⟩, ?_⟩⟩
      intro cid card hcard hcsrc
      rw [hcards]
      exact get_invalidateCards_of_ne hcard fun h => hid (hcsrc.symm.trans h)
  cards := by
    intro id card hcard hreadable
    rw [hcards] at hcard
    exact readable_of_invalidated hcard hreadable

/-- A changed source's cards are invalidated. -/
theorem Retires.of_set {s₁ : Repository} {f : SourceRow → SourceRow}
    (h₁ : s₁ = { s with sources := s₁.sources, sourceRevisions := s₁.sourceRevisions })
    (hsources : s₁.sources = s.sources.set sourceId f)
    (hseq : ∀ row, (f row).extractionCommitSequence = row.extractionCommitSequence) :
    Retires s (invalidateEvidence (invalidateCards s₁ sourceId) sourceId) := by
  rw [h₁]
  exact Retires.of_invalidate rfl hsources rfl rfl hseq

/-- A call that changes only the path of one source. -/
theorem Retires.of_moved {path : VaultPath}
    (h : s' = { s with sources := s.sources.set sourceId fun row =>
      { row with sourcePath := path } }) : Retires s s' := by
  subst h
  refine ⟨rfl, fun _ e h => ⟨e.validated, h⟩, fun _ => rfl, ?_, fun _ _ hcard _ => hcard⟩
  intro id source hsource
  show ∃ source', (s.sources.set sourceId _).get id = some source' ∧ _
  rw [get_set]
  by_cases hid : id = sourceId
  · exact ⟨{ source with sourcePath := path }, by rw [if_pos hid, hsource]; rfl, rfl,
      .inl ⟨⟨path, rfl⟩, fun _ _ hcard _ => hcard⟩⟩
  · exact ⟨source, by rw [if_neg hid]; exact hsource, rfl,
      .inl ⟨⟨source.sourcePath, rfl⟩, fun _ _ hcard _ => hcard⟩⟩

theorem registerUnchanged_retires {r : Registration} {revisionId : SourceRevisionId}
    (h : registerUnchanged s r sourceId source = .ok (s', revisionId)) : Retires s s' := by
  unfold registerUnchanged at h
  simp only [bind_ok_iff] at h
  obtain ⟨current, -, existing, -, u, -, h⟩ := h
  split at h
  next =>
    cases h
    exact Retires.of_set rfl (set_set _ _) fun _ => rfl
  next =>
    cases h
    exact Retires.of_moved rfl

theorem insertSourceRevision_eq {r : Registration} (h : insertSourceRevision s r sourceId = .ok s')
    : ∃ revisions f,
      s' = { s with sourceRevisions := revisions, sources := s.sources.set sourceId f } ∧
      ∀ row, (f row).extractionCommitSequence = row.extractionCommitSequence := by
  unfold insertSourceRevision at h
  simp only [bind_ok_iff] at h
  obtain ⟨source, -, u, -, revisions, -, h⟩ := h
  cases h
  exact ⟨revisions, _, rfl, fun _ => rfl⟩

theorem upsertSourceRevision_retires {r : Registration} {out : SourceId × SourceRevisionId × Bool}
    (h : upsertSourceRevision s r = .ok (s', out)) : Retires s s' := by
  unfold upsertSourceRevision at h
  simp only [bind_ok_iff] at h
  obtain ⟨u, -, u', -, h⟩ := h
  split at h
  next sourceId source hfile =>
    split at h
    next =>
      -- the same content
      obtain ⟨⟨s₁, revisionId⟩, hreg, h⟩ := bind_ok_iff.mp h
      cases h
      exact registerUnchanged_retires hreg
    next =>
      -- new content
      obtain ⟨s₁, hins, h⟩ := bind_ok_iff.mp h
      cases h
      obtain ⟨revisions, f, rfl, hseq⟩ := insertSourceRevision_eq hins
      refine Retires.of_invalidate rfl (set_set _ f) rfl rfl ?_
      intro row
      exact hseq _
  next =>
    -- a new source
    simp only [bind_ok_iff] at h
    obtain ⟨s₁, hsource, s₂, hins, h⟩ := h
    cases h
    obtain ⟨revisions, f, rfl, hseq⟩ := insertSourceRevision_eq hins
    obtain ⟨sources, hsources, hsource⟩ := bind_ok_iff.mp hsource
    cases hsource
    refine ⟨rfl, fun _ e h => ⟨e.validated, h⟩, fun _ => rfl, ?_, fun _ _ hcard _ => hcard⟩
    intro id source hget
    have hfresh := Keyed.get_none_of_insert (demand_ok_iff.mp hsources)
    have hne : id ≠ r.newSourceId := by
      rintro rfl
      rw [hfresh] at hget
      cases hget
    refine ⟨source, ?_, rfl, .inl ⟨⟨source.sourcePath, rfl⟩, fun _ _ hcard _ => hcard⟩⟩
    show (sources.set r.newSourceId f).get id = some source
    rw [Keyed.get_set_ne f hne]
    exact get_insert_of_some (demand_ok_iff.mp hsources) hget

theorem invalidateSource_retires (s : Repository) (fileId : FileId) (reason : String)
    (authorization : Option Int) : Retires s (invalidateSource s fileId reason authorization).1 := by
  unfold invalidateSource
  split
  next =>
    exact Retires.refl s
  next sourceId source _ =>
    show Retires s (invalidateEvidence (invalidateCards _ sourceId) sourceId)
    exact Retires.of_set rfl rfl fun _ => rfl

theorem invalidateAllSources_retires (s : Repository) (reason : String)
    (authorization : Option Int) : Retires s (invalidateAllSources s reason authorization) := by
  have hcards : ∀ cid card,
      (invalidateAllSources s reason authorization).cards.get cid = some card →
        card.eligibility ≠ .readable := by
    intro cid card hcard
    obtain ⟨c, -, rfl⟩ := map_eq_some_iff.mp ((Keyed.get_modify _).symm.trans hcard)
    exact nofun
  refine ⟨rfl, ?_, ?_, ?_, fun id card hcard hr => absurd hr (hcards id card hcard)⟩
  · exact fun id e he => ⟨false, (Keyed.get_modify _).trans (congrArg (Option.map _) he)⟩
  · intro id
    show ((s.cards.modify _).get id).map CardRow.place = _
    rw [Keyed.get_modify, Option.map_map]
    rfl
  intro id source hsource
  have hget : (invalidateAllSources s reason authorization).sources.get id = _ :=
    (Keyed.get_modify _).trans (congrArg (Option.map _) hsource)
  exact ⟨_, hget, rfl, .inr fun cid card hcard _ => hcards cid card hcard⟩

/-! ## Starting and giving up -/

theorem ensureTarget_eq {kind scope : String} {version : Nat}
    (h : ensureTarget env s kind scope version fingerprint = .ok (s', key)) :
    ∃ targets, s' = { s with targets } := by
  obtain ⟨u, -, h⟩ := bind_ok_iff.mp h
  obtain ⟨u', -, h⟩ := bind_ok_iff.mp h
  dsimp only at h
  split at h
  next targets _ =>
    cases h
    exact ⟨targets, rfl⟩
  next =>
    cases h
    exact ⟨s.targets, rfl⟩

/-- The sets after a start. -/
theorem startExtraction_cases (h : startExtraction env s i = .ok (s', out)) :
    s' = s ∧ out.2 = false ∨
    ∃ source targets extractions idempotency e, out = (i.id, true) ∧
      s.sources.get i.sourceId = some source ∧
      source.currentRevisionId = some i.sourceRevisionId ∧
      s.extractions.insert i.id e = some extractions ∧ e.state = .running ∧
      e.sourceId = i.sourceId ∧
      e.extractionCommitSequence = source.extractionCommitSequence + 1 ∧
      s' = { s with
        targets
        sources := s.sources.set i.sourceId fun row =>
          { row with extractionCommitSequence := row.extractionCommitSequence + 1 }
        extractions
        idempotency } := by
  unfold startExtraction at h
  split at h
  next existing hash _ =>
    simp only [bind_ok_iff] at h
    obtain ⟨u, -, e, -, h⟩ := h
    cases h
    exact .inl ⟨rfl, rfl⟩
  next =>
    simp only [bind_ok_iff] at h
    obtain ⟨source, hsource, u, hcurrent, revision, -, u', -, ⟨s₁, key⟩, htarget, extractions,
      hinsert, idempotency, -, h⟩ := h
    cases h
    obtain ⟨targets, rfl⟩ := ensureTarget_eq htarget
    refine .inr ⟨source, targets, extractions, idempotency, _, rfl, demand_ok_iff.mp hsource,
      ensure_ok_iff.mp hcurrent, demand_ok_iff.mp hinsert, rfl, rfl, rfl, rfl⟩

variable {t : Keyed SourceId SourceRow}

/-- A source whose commit sequence was advanced. -/
theorem get_advanced {id : SourceId} (sourceId : SourceId) (h : t.get id = some row) : ∃ row',
      (t.set sourceId fun row =>
        { row with extractionCommitSequence := row.extractionCommitSequence + 1 }).get id = some row' ∧
      row.extractionCommitSequence ≤ row'.extractionCommitSequence ∧
      (id = sourceId → row.extractionCommitSequence < row'.extractionCommitSequence) ∧
      ∀ c, row.Holds c → row'.Holds c := by
  rw [get_set, h]
  by_cases hid : id = sourceId
  · rw [if_pos hid]
    refine ⟨_, rfl, Nat.le_succ _, fun _ => Nat.lt_succ_self _, ?_⟩
    intro c hc
    exact { hc with }
  · rw [if_neg hid]
    exact ⟨row, rfl, le_rfl, fun h => absurd h hid, fun _ hc => hc⟩

theorem Sound.start (hw : Sound w) (h : startExtraction env w.repo i = .ok (s', out)) :
    Sound ⟨s', w.latest⟩ := by
  obtain ⟨rfl, -⟩ | ⟨source, targets, extractions, idempotency, e, -, hsource, -, hinsert, -, hsrc, hseq,
    rfl⟩ := startExtraction_cases h
  · exact hw
  have hsources := fun id row (hrow : w.repo.sources.get id = some row) =>
    get_advanced i.sourceId hrow
  refine ⟨?_, ?_, ?_, ?_, ?_⟩
  · -- the new set has the sequence that its source has now
    intro id e' he'
    rcases Keyed.get_of_insert hinsert he' with ⟨rfl, rfl⟩ | hold
    · obtain ⟨row', hrow', -, hlt, -⟩ := hsources _ source hsource
      refine ⟨row', hsrc ▸ hrow', ?_⟩
      rw [hseq]
      exact hlt rfl
    · obtain ⟨row, hrow, hle⟩ := hw.sets id e' hold
      obtain ⟨row', hrow', hle', -⟩ := hsources _ row hrow
      exact ⟨row', hrow', hle.trans hle'⟩
  · -- and so stands behind the others
    show extractions.rows.Pairwise _
    rw [Keyed.insert_rows hinsert, pairwise_append]
    refine ⟨hw.ordered, pairwise_singleton _ _, ?_⟩
    rintro ⟨id, a⟩ ha ⟨id', b⟩ hb hsame
    obtain ⟨-, rfl⟩ := Prod.mk.injEq .. ▸ mem_singleton.mp hb
    obtain ⟨row, hrow, hle⟩ := hw.sets id a (get_eq_some_iff.mpr ha)
    rw [show a.sourceId = i.sourceId from hsame.trans hsrc, hsource] at hrow
    obtain rfl := some.inj hrow
    show a.extractionCommitSequence < b.extractionCommitSequence
    omega
  · intro id p hp
    obtain ⟨⟨e', he', hcap, hopen⟩, hrevision⟩ := hw.snapshots id p hp
    exact ⟨⟨e', get_insert_of_some hinsert he', hcap, hopen⟩, hrevision⟩
  · intro id card hcard hreadable
    refine (hw.cards id card hcard hreadable).extend ⟨?_, fun _ r hr => ⟨r, hr, rfl⟩,
      fun _ p hp => ⟨p, hp, rfl⟩⟩ ?_
    · intro id' e' he'
      exact ⟨e', get_insert_of_some hinsert he', rfl, fun hs => hs⟩
    · intro row c hrow hholds
      obtain ⟨row', hrow', -, -, hkeep⟩ := hsources _ row hrow
      exact ⟨row', hrow', hkeep c hholds⟩
  · intro sourceId id hlatest
    obtain ⟨e', he', hsrc'⟩ := hw.noted sourceId id hlatest
    exact ⟨e', get_insert_of_some hinsert he', hsrc'⟩

/-- A set is given up: its snapshots are blocked. -/
structure Closes (s s' : Repository) (id : ExtractionSetId) : Prop where
  sources : s'.sources = s.sources
  cards : s'.cards = s.cards
  rest : s' = { s with
    extractions := s'.extractions
    snapshots := s'.snapshots
    cardRevisions := s'.cardRevisions }
  extractions : ∃ f, s'.extractions = s.extractions.modify f ∧
    ∀ eid e, (f eid e).capture = e.capture ∧ (s.extractions.get eid = some e →
      (f eid e).state = e.state ∨ eid = id ∧
        (e.state = .running ∨ e.state = .prepared) ∧ (f eid e).state ≠ .successNonempty)
  snapshots : ∃ f, s'.snapshots = s.snapshots.modify f ∧ ∀ pid p, (f pid p).fixed = p.fixed ∧
    ((f pid p).isOpen → f pid p = p) ∧ (f pid p).publishedFileId = p.publishedFileId ∧
    (f pid p).publishedFileRevision = p.publishedFileRevision
  closed : ∀ pid p, s'.snapshots.get pid = some p → p.extractionSetId = id → p.isOpen = false
  revisions : ∃ f, s'.cardRevisions = s.cardRevisions.modify f ∧ ∀ rid r, (f rid r).fixed = r.fixed ∧
    (r.publicationState ≠ .prepared → f rid r = r) ∧
    ((f rid r).publicationState = .published → f rid r = r) ∧
    (f rid r).canonicalFileId = r.canonicalFileId ∧ (f rid r).canonicalRevision = r.canonicalRevision ∧
    (r.extractionSetId ≠ id → f rid r = r)

theorem Closes.extend (h : Closes s s' id) : Extends s s' := by
  obtain ⟨f, hf, hsets⟩ := h.extractions
  obtain ⟨g, hg, hsnap⟩ := h.snapshots
  obtain ⟨k, hk, hrev⟩ := h.revisions
  refine Extends.of_modify hf hk hg ?_ (fun rid r => (hrev rid r).1) fun pid p => (hsnap pid p).1
  intro eid e he
  refine ⟨(hsets eid e).1, fun hsucc => ?_⟩
  rcases (hsets eid e).2 he with hsame | ⟨-, hopen, -⟩
  · rw [hsame, hsucc]
  · rw [hsucc] at hopen
    rcases hopen with hopen | hopen <;> exact nomatch hopen

theorem Sound.closes (hw : Sound w) (h : Closes w.repo s' id) : Sound ⟨s', w.latest⟩ := by
  have hext := h.extend
  obtain ⟨f, hf, hsets⟩ := h.extractions
  obtain ⟨g, hg, hsnap⟩ := h.snapshots
  obtain ⟨k, hk, hrev⟩ := h.revisions
  refine hw.of_call hf (fun eid e => (hsets eid e).1) ?_ ?_ ?_ fun _ _ h => .inl h
  · intro sid source hsource
    exact ⟨source, h.sources ▸ hsource, le_rfl⟩
  · intro pid p' hp'
    have hclosed := h.closed pid p' hp'
    rw [hg, Keyed.get_modify] at hp'
    obtain ⟨p, hp, rfl⟩ := map_eq_some_iff.mp hp'
    obtain ⟨⟨e, he, hcap, hopen⟩, r, hr, hset⟩ := hw.snapshots pid p hp
    obtain ⟨hpfix, hsame, -⟩ := hsnap pid p
    obtain ⟨hps, -, hpr⟩ := SnapshotRow.ids_of_fixed hpfix
    have he' : s'.extractions.get p.extractionSetId = some (f p.extractionSetId e) := by
      rw [hf, Keyed.get_modify, he]
      rfl
    have hr' : s'.cardRevisions.get p.cardRevisionId = some (k p.cardRevisionId r) := by
      rw [hk, Keyed.get_modify, hr]
      rfl
    refine ⟨⟨f p.extractionSetId e, by rw [hps]; exact he', ?_, ?_⟩,
      k p.cardRevisionId r, by rw [hpr]; exact hr', ?_⟩
    · rw [SnapshotRow.capture_of_fixed hpfix, hcap, (hsets _ e).1]
    · intro hstill _
      rcases (hsets p.extractionSetId e).2 he with hkeep | ⟨hid, -, -⟩
      · rw [hkeep]
        refine hopen ?_ nofun
        rw [← hsame hstill]
        exact hstill
      · rw [hclosed (hps.trans hid)] at hstill
        cases hstill
    · rw [CardRevisionRow.set_of_fixed (hrev _ r).1, hset, hps]
  · intro cid card hcard hreadable
    rw [h.cards] at hcard
    refine (hw.cards cid card hcard hreadable).extend hext ?_
    intro source c hsource hholds
    exact ⟨source, h.sources ▸ hsource, hholds⟩

/-- What is blocked with a set. -/
theorem blockSet_spec (s : Repository) (id : ExtractionSetId) (code : String) :
    (∃ f, (blockSet s id code).snapshots = s.snapshots.modify f ∧ ∀ pid p, (f pid p).fixed = p.fixed ∧
      ((f pid p).isOpen → f pid p = p) ∧ (f pid p).publishedFileId = p.publishedFileId ∧
      (f pid p).publishedFileRevision = p.publishedFileRevision) ∧
    (∀ pid p, (blockSet s id code).snapshots.get pid = some p → p.extractionSetId = id →
      p.isOpen = false) ∧
    ∃ f, (blockSet s id code).cardRevisions = s.cardRevisions.modify f ∧
      ∀ rid r, (f rid r).fixed = r.fixed ∧ (r.publicationState ≠ .prepared → f rid r = r) ∧
        ((f rid r).publicationState = .published → f rid r = r) ∧
        (f rid r).canonicalFileId = r.canonicalFileId ∧ (f rid r).canonicalRevision = r.canonicalRevision ∧
        (r.extractionSetId ≠ id → f rid r = r) := by
  refine ⟨⟨_, update_eq _ _ _, ?_⟩, ?_, ⟨_, update_eq _ _ _, ?_⟩⟩
  · intro pid p
    split
    next => exact ⟨rfl, fun hopen => absurd hopen Bool.false_ne_true, rfl, rfl⟩
    next => exact ⟨rfl, fun _ => rfl, rfl, rfl⟩
  · intro pid p' hp' hid
    obtain ⟨p, -, rfl⟩ := map_eq_some_iff.mp ((get_update _ _).symm.trans hp')
    by_cases hw : p.extractionSetId = id ∧ (p.status = .prepared ∨ p.status = .written)
    · rw [if_pos (decide_eq_true hw)]
      rfl
    · rw [if_neg (by rwa [decide_eq_true_eq])] at hid ⊢
      exact decide_eq_false fun hopen => hw ⟨hid, hopen⟩
  · intro rid r
    split
    next hw =>
      obtain ⟨hset, hprepared⟩ := of_decide_eq_true hw
      exact ⟨rfl, fun hne => absurd hprepared hne, nofun, rfl, rfl, fun hne => absurd hset hne⟩
    next => exact ⟨rfl, fun _ => rfl, fun _ => rfl, rfl, rfl, fun _ => rfl⟩

theorem rejectPublication_closes (s : Repository) (id : ExtractionSetId) (code : String) :
    Closes s (rejectPublication s id code) id := by
  obtain ⟨hsnap, hclosed, hrev⟩ := blockSet_spec s id code
  refine ⟨rfl, rfl, rfl, ⟨_, update_eq _ _ _, ?_⟩, hsnap, hclosed, hrev⟩
  intro eid e
  split
  next hw =>
    obtain ⟨hid, hprepared⟩ := of_decide_eq_true hw
    exact ⟨rfl, fun _ => .inr ⟨hid, .inr hprepared, fun h => by cases h⟩⟩
  next => exact ⟨rfl, fun _ => .inl rfl⟩

/-- A running set does not succeed. -/
theorem running_closed {f : ExtractionRow → ExtractionRow} (he : s.extractions.get id = some e)
    (hrunning : e.state = .running) (hcap : ∀ row, (f row).capture = row.capture)
    (hstate : ∀ row, (f row).state ≠ .successNonempty) :
    ∃ g, s.extractions.set id f = s.extractions.modify g ∧
      ∀ eid row, (g eid row).capture = row.capture ∧ (s.extractions.get eid = some row →
        (g eid row).state = row.state ∨ eid = id ∧
          (row.state = .running ∨ row.state = .prepared) ∧ (g eid row).state ≠ .successNonempty) := by
  refine ⟨_, set_eq _ _ _, ?_⟩
  intro eid row
  by_cases hid : eid = id
  · rw [if_pos hid]
    refine ⟨hcap row, fun hrow => .inr ⟨hid, .inl ?_, hstate row⟩⟩
    rw [hid, he] at hrow
    obtain rfl := some.inj hrow
    exact hrunning
  · rw [if_neg hid]
    exact ⟨rfl, fun _ => .inl rfl⟩

theorem cancelExtraction_cases {code : String} (h : cancelExtraction s id code = .ok s')
    : s' = s ∨ Closes s s' id := by
  obtain ⟨e, he, h⟩ := bind_ok_iff.mp h
  split at h
  next =>
    cases h
    exact .inl rfl
  next hrunning =>
    cases h
    obtain ⟨hsnap, hclosed, hrev⟩ := blockSet_spec s id code
    exact .inr ⟨rfl, rfl, rfl, running_closed (demand_ok_iff.mp he) hrunning (fun _ => rfl)
      nofun, hsnap, hclosed, hrev⟩
  next => cases h

theorem runningSet_ok {revision : SourceRevisionRow}
    (h : runningSet s id = .ok (e, source, revision)) :
    s.extractions.get id = some e ∧ e.state = .running ∧ s.sources.get e.sourceId = some source ∧
      s.sourceRevisions.get e.sourceRevisionId = some revision ∧ revision.sourceId = e.sourceId := by
  unfold runningSet at h
  simp only [bind_ok_iff] at h
  obtain ⟨e', he, source', hsource, revision', hrevision, h⟩ := h
  cases h
  obtain ⟨he, hrunning⟩ := filter_eq_some_iff.mp (demand_ok_iff.mp he)
  obtain ⟨hrevision, hof⟩ := filter_eq_some_iff.mp (demand_ok_iff.mp hrevision)
  exact ⟨he, of_decide_eq_true hrunning, demand_ok_iff.mp hsource, hrevision, of_decide_eq_true hof⟩

/-- A running set has no open snapshot. -/
theorem Sound.running_bare (hw : Sound w) (he : w.repo.extractions.get id = some e)
    (hrunning : e.state = .running) :
    ∀ pid p, w.repo.snapshots.get pid = some p → p.extractionSetId = id → p.isOpen = false := by
  rintro pid p hp rfl
  obtain ⟨e', he', -, hopen⟩ := (hw.snapshots pid p hp).set
  rw [he] at he'
  obtain rfl := some.inj he'
  cases hstatus : p.isOpen with
  | false => rfl
  | true =>
    have hprepared := hopen hstatus nofun
    rw [hrunning] at hprepared
    cases hprepared

/-- What may be captured stays when made eligible. -/
theorem get_madeEligible {id : SourceId} (w : SourceId → SourceRow → Bool)
    (h : t.get id = some row) : ∃ row',
      (t.update w fun row =>
        { row with eligible := true, invalidReason := none, pendingRebuild := false }).get id =
          some row' ∧
      row'.extractionCommitSequence = row.extractionCommitSequence ∧
      ∀ c, row.Holds c → row'.Holds c := by
  rw [get_update, h, map_some]
  cases w id row with
  | false => exact ⟨row, rfl, rfl, fun _ hc => hc⟩
  | true =>
    refine ⟨_, rfl, rfl, ?_⟩
    intro c hc
    exact { hc with }

/-- A set with the state in which it ended. -/
def endedSet (s : Repository) (id : ExtractionSetId) (state : FinishState) (code : Option String) :
    Repository :=
  { s with
    extractions := s.extractions.set id fun row =>
      { row with
        state := state.state
        safeErrorCode := code
        observationCount := 0
        cardCount := 0 } }

/-- An empty success hides the cards of its source. -/
theorem finish_spec {state : FinishState} {code : Option String}
    (h : finishEmptyOrNonpublishable s id state code = .ok s') :
    ∃ e source revision, s.extractions.get id = some e ∧ e.state = .running ∧
      s.sources.get e.sourceId = some source ∧
      (state ≠ .successEmpty ∧ s' = endedSet s id state code ∨
        state = .successEmpty ∧ e.Fenced source revision ∧ Retires (endedSet s id state code) s' ∧
          ∀ cid card, s'.cards.get cid = some card → card.sourceId = e.sourceId →
            card.eligibility ≠ .readable) := by
  obtain ⟨⟨e, source, revision⟩, hset, h⟩ := bind_ok_iff.mp h
  obtain ⟨he, hrunning, hsource, -, -⟩ := runningSet_ok hset
  obtain ⟨u, -, h⟩ := bind_ok_iff.mp h
  obtain ⟨u', hfenced, h⟩ := bind_ok_iff.mp h
  have hfenced := ensure_ok_iff.mp hfenced
  refine ⟨e, source, revision, he, hrunning, hsource, ?_⟩
  split at h
  next hempty =>
    cases h
    refine .inr ⟨hempty, hfenced hempty, ⟨rfl, ?_, ?_, ?_, ?_⟩, ?_⟩
    · exact fun _ _ he => get_invalidateEvidence he
    · exact place_of_invalidated _ _
    · intro sid row hrow
      by_cases hsid : sid = e.sourceId
      · obtain ⟨row', hget, hseq, -⟩ := get_madeEligible _ hrow
        refine ⟨row', hget, hseq, .inr ?_⟩
        intro cid card hcard hsrc
        exact not_readable_of_invalidated hcard (hsrc.trans hsid)
      · refine ⟨row, ?_, rfl, .inl ⟨⟨row.sourcePath, rfl⟩, ?_⟩⟩
        · refine (get_update _ _).trans ?_
          show (s.sources.get sid).map _ = some row
          rw [show s.sources.get sid = some row from hrow, map_some,
            if_neg fun hw => hsid (of_decide_eq_true hw).1]
        · intro cid card hcard hsrc
          exact get_invalidateCards_of_ne hcard fun h => hsid (hsrc.symm.trans h)
    · intro cid card hcard hreadable
      exact readable_of_invalidated hcard hreadable
    · intro cid card hcard hsrc
      exact not_readable_of_invalidated hcard hsrc
  next hne =>
    cases h
    exact .inl ⟨hne, rfl⟩

/-- A running set that ends is given up. -/
theorem Sound.ended (hw : Sound w) (he : w.repo.extractions.get id = some e)
    (hrunning : e.state = .running) (state : FinishState) (code : Option String) :
    Closes w.repo (endedSet w.repo id state code) id := by
  refine ⟨rfl, rfl, rfl, running_closed he hrunning (fun _ => rfl) ?_, ?_,
    hw.running_bare he hrunning, ?_⟩
  · intro row
    show state.state ≠ _
    cases state <;> exact nofun
  · exact ⟨fun _ p => p, (Keyed.modify_id _).symm, fun _ _ =>
      ⟨rfl, fun _ => rfl, rfl, rfl⟩⟩
  · exact ⟨fun _ r => r, (Keyed.modify_id _).symm, fun _ _ =>
      ⟨rfl, fun _ => rfl, fun _ => rfl, rfl, rfl, fun _ => rfl⟩⟩

/-! ## Preparing -/

/-- An item names rows that are there. -/
def Repository.Links (s : Repository) (item : CardItemRow) : Prop :=
  (s.observations.get item.observationId).isSome ∧
    ∀ id ∈ item.supports, (s.evidence.get id).isSome

/-- The evidence of an observation is there. -/
def Repository.Grounds (s : Repository) (o : ObservationRow) : Prop :=
  ∀ id ∈ o.evidence, (s.evidence.get id).isSome

/-- Observations, pending cards and open snapshots are added. -/
structure Prepares (c : PrepareContext) (s s' : Repository) : Prop where
  sources : s'.sources = s.sources
  extractions : s'.extractions = s.extractions
  rules : s'.suppressions = s.suppressions ∧ s'.corrections = s.corrections ∧
    s'.tasks = s.tasks ∧ s'.rulesRevision = s.rulesRevision
  observations : s.observations.Appends s'.observations fun _ o =>
    o.extractionSetId = c.id ∧ s'.Grounds o
  evidence : ∀ id e, s.evidence.get id = some e → s'.evidence.get id = some e
  cards : s.cards.Appends s'.cards fun _ card =>
    card.currentRevisionId = none ∧ card.eligibility = .pending
  revisions : s.cardRevisions.Appends s'.cardRevisions fun _ r => r.extractionSetId = c.id
  items : s.items.Appends s'.items fun _ item => s'.Links item ∧
    ∃ r, s'.cardRevisions.get item.cardRevisionId = some r ∧ r.extractionSetId = c.id
  snapshots : s.snapshots.Appends s'.snapshots fun _ p => p.extractionSetId = c.id ∧
    p.capture = ⟨c.set.sourceId, c.set.sourceRevisionId, c.source.contentHash,
      c.set.authorizationRevision, c.source.sourceGeneration, c.set.extractionCommitSequence⟩ ∧
    ∃ r, s'.cardRevisions.get p.cardRevisionId = some r ∧ r.extractionSetId = c.id

theorem Repository.Links.mono (h : s.Links item)
    (hobservations : ∀ id, (s.observations.get id).isSome →
      (s'.observations.get id).isSome)
    (hevidence : ∀ id, (s.evidence.get id).isSome → (s'.evidence.get id).isSome) :
    s'.Links item :=
  ⟨hobservations _ h.1, fun id hid => hevidence id (h.2 id hid)⟩

theorem Prepares.refl (c : PrepareContext) (s : Repository) : Prepares c s s :=
  ⟨rfl, rfl, ⟨rfl, rfl, rfl, rfl⟩, .refl _ _, fun _ _ h => h, .refl _ _, .refl _ _, .refl _ _, .refl _ _⟩

theorem Prepares.links (h : Prepares c s s') (hlinks : s.Links item) : s'.Links item :=
  hlinks.mono (fun _ => isSome_kept fun _ => h.observations.get_kept)
    fun id => isSome_kept (h.evidence id)

theorem Prepares.trans {t u : Repository} (h : Prepares c s t) (h' : Prepares c t u)
    : Prepares c s u where
  sources := h'.sources.trans h.sources
  extractions := h'.extractions.trans h.extractions
  rules := by
    obtain ⟨h₁, h₂, h₃, h₄⟩ := h.rules
    obtain ⟨h₁', h₂', h₃', h₄'⟩ := h'.rules
    exact ⟨h₁'.trans h₁, h₂'.trans h₂, h₃'.trans h₃, h₄'.trans h₄⟩
  observations := by
    refine (h.observations.mono ?_).trans h'.observations
    rintro _ o ⟨hset, hgrounds⟩
    exact ⟨hset, fun id hid => isSome_kept (h'.evidence id) (hgrounds id hid)⟩
  evidence := fun id e he => h'.evidence id e (h.evidence id e he)
  cards := h.cards.trans h'.cards
  revisions := h.revisions.trans h'.revisions
  items := by
    refine (h.items.mono ?_).trans h'.items
    rintro _ item ⟨hlinks, r, hr, hset⟩
    exact ⟨h'.links hlinks, r, h'.revisions.get_kept hr, hset⟩
  snapshots := by
    refine (h.snapshots.mono ?_).trans h'.snapshots
    rintro _ p ⟨hid, hcap, r, hr, hset⟩
    exact ⟨hid, hcap, r, h'.revisions.get_kept hr, hset⟩

theorem insertObservation_prepares {o : ObservationInput} (h : insertObservation c s o = .ok s')
    : Prepares c s s' := by
  unfold insertObservation at h
  simp only [bind_ok_iff] at h
  obtain ⟨body, -, context, -, evidence, hevidence, u, -, observations, hobservations, h⟩ := h
  cases h
  refine ⟨rfl, rfl, ⟨rfl, rfl, rfl, rfl⟩, ?_, ?_, .refl _ _, .refl _ _, .refl _ _, .refl _ _⟩
  · refine Keyed.Appends.of_insert (demand_ok_iff.mp hobservations) ⟨rfl, ?_⟩
    intro id hid
    obtain rfl := mem_singleton.mp hid
    show (evidence.get o.evidence.id).isSome
    rw [Keyed.get_insert (demand_ok_iff.mp hevidence), if_pos rfl]
    rfl
  · exact fun _ _ he => get_insert_of_some (demand_ok_iff.mp hevidence) he

theorem cardTarget_eq (h : cardTarget env s card fingerprint = .ok (s', key)) :
    ∃ targets, s' = { s with targets } := by
  unfold cardTarget at h
  split at h
  next =>
    split at h
    next =>
      cases h
      exact ⟨s.targets, rfl⟩
    next => exact ensureTarget_eq h
  next => exact ensureTarget_eq h

theorem insertCard_prepares (h : insertCard s sourceId card = .ok s') : Prepares c s s' := by
  unfold insertCard at h
  simp only [bind_ok_iff] at h
  obtain ⟨u, -, cards, hcards, h⟩ := h
  cases h
  refine ⟨rfl, rfl, ⟨rfl, rfl, rfl, rfl⟩, .refl _ _, fun _ _ he => he, ?_, .refl _ _, .refl _ _, .refl _ _⟩
  exact Keyed.Appends.of_insert (demand_ok_iff.mp hcards) ⟨rfl, rfl⟩

theorem insertCardRevision_prepares (h : insertCardRevision c s card targetKey = .ok s') :
    Prepares c s s' ∧
      ∃ r, s'.cardRevisions.get card.cardRevisionId = some r ∧ r.extractionSetId = c.id := by
  unfold insertCardRevision at h
  simp only [bind_ok_iff] at h
  obtain ⟨u, -, revisions, hrevisions, h⟩ := h
  cases h
  have hinsert := demand_ok_iff.mp hrevisions
  refine ⟨⟨rfl, rfl, ⟨rfl, rfl, rfl, rfl⟩, .refl _ _, fun _ _ he => he, .refl _ _, ?_, .refl _ _, .refl _ _⟩,
    _, (Keyed.get_insert hinsert).trans (if_pos rfl), rfl⟩
  exact Keyed.Appends.of_insert hinsert rfl

/-- What `checkItem` has seen of an item. -/
theorem checkItem_links {item : CardItemInput} (h : checkItem c s item = .ok ())
    : (s.observations.get item.observationId).isSome ∧
      ∀ id ∈ item.evidenceRefIds, (s.evidence.get id).isSome := by
  unfold checkItem at h
  simp only [bind_ok_iff] at h
  obtain ⟨o, ho, u, -, h⟩ := h
  refine ⟨?_, ?_⟩
  · rw [(filter_eq_some_iff.mp (demand_ok_iff.mp ho)).1]
    rfl
  · intro id hid
    obtain ⟨e, he, -⟩ := bind_ok_iff.mp (Fallible.forM_ok_iff.mp h id hid)
    rw [(filter_eq_some_iff.mp (demand_ok_iff.mp he)).1]
    rfl

theorem insertItem_prepares {item : CardItemInput} (h : insertItem c card s item = .ok s')
    (hobs : (s.observations.get item.observationId).isSome)
    (hevidence : ∀ id ∈ item.evidenceRefIds, (s.evidence.get id).isSome)
    (hr : s.cardRevisions.get card.cardRevisionId = some r) (hset : r.extractionSetId = c.id) :
    Prepares c s s' := by
  unfold insertItem at h
  simp only [bind_ok_iff] at h
  obtain ⟨u, -, u', -, items, hitems, h⟩ := h
  cases h
  refine ⟨rfl, rfl, ⟨rfl, rfl, rfl, rfl⟩, .refl _ _, fun _ _ he => he, .refl _ _, .refl _ _, ?_, .refl _ _⟩
  exact Keyed.Appends.of_insert (demand_ok_iff.mp hitems) ⟨⟨hobs, hevidence⟩, r, hr, hset⟩

theorem insertSnapshot_prepares {prior : Option CardRevisionRow}
    (h : insertSnapshot c s card prior targetKey = .ok s')
    (hr : s.cardRevisions.get card.cardRevisionId = some r) (hset : r.extractionSetId = c.id) :
    Prepares c s s' := by
  unfold insertSnapshot at h
  simp only [bind_ok_iff] at h
  obtain ⟨u, -, snapshots, hsnapshots, h⟩ := h
  cases h
  refine ⟨rfl, rfl, ⟨rfl, rfl, rfl, rfl⟩, .refl _ _, fun _ _ he => he, .refl _ _, .refl _ _, .refl _ _, ?_⟩
  exact Keyed.Appends.of_insert (demand_ok_iff.mp hsnapshots) ⟨rfl, rfl, r, hr, hset⟩

/-- A loop of preparing steps prepares. -/
theorem foldlM_prepares {α : Type} {f : Repository → α → Except StateError Repository} {as : List α}
    (hf : ∀ t a t', a ∈ as → Prepares c s t → f t a = .ok t' → Prepares c t t')
    (h : as.foldlM f s = .ok s') : Prepares c s s' := by
  refine Fallible.foldlM_invariant (P := fun _ t => Prepares c s t) ?_ (Prepares.refl c s) h
  intro done a t t' hmem ht hstep
  exact ht.trans (hf t a t' hmem ht hstep)

theorem prepareCard_prepares (h : prepareCard env c s card = .ok s') : Prepares c s s' := by
  unfold prepareCard at h
  simp only [bind_ok_iff] at h
  obtain ⟨fingerprint, -, ⟨s₁, targetKey⟩, htarget, h⟩ := h
  obtain ⟨targets, rfl⟩ := cardTarget_eq htarget
  obtain ⟨u₁, -, u₂, -, u₃, -, u₄, hchecked, s₂, hcard, prior, -, u₅, -, s₃, hrevision, s₄,
    hitems, h⟩ := h
  have htargets : Prepares c s { s with targets := targets } :=
    ⟨rfl, rfl, ⟨rfl, rfl, rfl, rfl⟩, .refl _ _, fun _ _ he => he, .refl _ _, .refl _ _, .refl _ _, .refl _ _⟩
  have hcards : Prepares c { s with targets := targets } s₂ := by
    split at hcard
    next => exact insertCard_prepares hcard
    next =>
      cases hcard
      exact Prepares.refl c _
  obtain ⟨hrev, r, hr, hset⟩ := insertCardRevision_prepares hrevision
  have hitem : Prepares c s₃ s₄ := by
    refine foldlM_prepares ?_ hitems
    intro t item t' hmem ht hstep
    -- the item was checked before the card was inserted
    obtain ⟨hobs, hevidence⟩ := checkItem_links (Fallible.forM_ok_iff.mp hchecked item hmem)
    have hbefore := (hcards.trans hrev).trans ht
    refine insertItem_prepares hstep ?_ ?_ (ht.revisions.get_kept hr) hset
    · exact isSome_kept (fun _ => hbefore.observations.get_kept) hobs
    · exact fun id hid => isSome_kept (hbefore.evidence id) (hevidence id hid)
  have hsnap := insertSnapshot_prepares h (hitem.revisions.get_kept hr) hset
  exact (((htargets.trans hcards).trans hrev).trans hitem).trans hsnap

/-- The set was fenced, and has open snapshots. -/
theorem preparePublication_spec (h : preparePublication env s id observations cards = .ok s') :
    ∃ e source revision s₁, s.extractions.get id = some e ∧ e.state = .running ∧
      s.sources.get e.sourceId = some source ∧ e.inputHash = source.contentHash ∧
      e.Fenced source revision ∧ Prepares ⟨id, e, source⟩ s s₁ ∧
      s' = { s₁ with
        extractions := s₁.extractions.set id fun row =>
          { row with
            state := .prepared
            observationCount := observations.length
            cardCount := cards.length } } := by
  unfold preparePublication at h
  simp only [bind_ok_iff] at h
  obtain ⟨u₀, -, ⟨e, source, revision⟩, hset, u₁, -, u₂, hhash, u₃, hfenced, u₄, -, u₅, -, s₁,
    hobs, s₂, hcards, h⟩ := h
  cases h
  obtain ⟨he, hrunning, hsource, -, -⟩ := runningSet_ok hset
  refine ⟨e, source, revision, s₂, he, hrunning, hsource, ensure_ok_iff.mp hhash,
    ensure_ok_iff.mp hfenced, ?_, rfl⟩
  exact (foldlM_prepares (fun _ _ _ _ _ => insertObservation_prepares) hobs).trans
    (foldlM_prepares (fun _ _ _ _ _ => prepareCard_prepares) hcards)

theorem Sound.prepare (hw : Sound w)
    (h : preparePublication env w.repo id observations cards = .ok s') : Sound ⟨s', w.latest⟩ := by
  obtain ⟨e, source, revision, s₁, he, hrunning, hsource, hhash, hfenced, hprep, rfl⟩ :=
    preparePublication_spec h
  generalize hf : (fun row : ExtractionRow =>
    { row with
      state := ExtractionState.prepared
      observationCount := observations.length
      cardCount := cards.length }) = f
  have hfcap : ∀ row, (f row).capture = row.capture := by
    subst hf
    exact fun _ => rfl
  have hfstate : ∀ row, (f row).state = .prepared := by
    subst hf
    exact fun _ => rfl
  -- the set itself was running, so it neither had open snapshots nor succeeded
  have hget : ∀ eid row, w.repo.extractions.get eid = some row →
      (s₁.extractions.set id f).get eid = some (if eid = id then f row else row) := by
    intro eid row hrow
    rw [hprep.extractions, get_set, hrow]
    split <;> rfl
  have hcaps : ∀ eid row, (if eid = id then f row else row : ExtractionRow).capture = row.capture := by
    intro eid row
    split
    · exact hfcap row
    · rfl
  refine hw.of_call ?_ hcaps ?_ ?_ ?_
    fun _ _ h => .inl h
  · show s₁.extractions.set id f = _
    rw [hprep.extractions]
    exact set_eq _ _ _
  · intro sid row hrow
    exact ⟨row, hprep.sources ▸ hrow, le_rfl⟩
  · intro pid p hp
    rcases hprep.snapshots.get_cases hp with hold | ⟨hset, hcap, r, hr, hrset⟩
    · obtain ⟨⟨e', he', hcap, hopen⟩, r, hr, hrset⟩ := hw.snapshots pid p hold
      refine ⟨⟨_, hget _ e' he', ?_, ?_⟩, r, hprep.revisions.get_kept hr, hrset⟩
      · rw [hcap, hcaps]
      · intro hstill hne
        by_cases hid : p.extractionSetId = id
        · rw [if_pos hid]
          exact hfstate e'
        · rw [if_neg hid]
          exact hopen hstill hne
    · have he' : w.repo.extractions.get p.extractionSetId = some e := hset ▸ he
      refine ⟨⟨_, hget _ e he', ?_, ?_⟩, r, hr, hrset.trans hset.symm⟩
      · -- the fences make the capture of the snapshot that of the set
        obtain ⟨-, -, hgeneration, -, -⟩ := hfenced
        rw [hcap, hcaps, ExtractionRow.capture, hhash, hgeneration]
      · intro _ _
        rw [if_pos hset]
        exact hfstate e
  · intro cid card hcard hreadable
    rcases hprep.cards.get_cases hcard with hold | ⟨-, hpending⟩
    · refine (hw.cards cid card hold hreadable).extend ⟨?_, ?_, ?_⟩ ?_
      · intro eid row hrow
        refine ⟨_, hget eid row hrow, hcaps eid row, fun hsucc => ?_⟩
        rw [if_neg]
        · exact hsucc
        · rintro rfl
          rw [he] at hrow
          obtain rfl := some.inj hrow
          rw [hrunning] at hsucc
          cases hsucc
      · intro rid r hr
        exact ⟨r, hprep.revisions.get_kept hr, rfl⟩
      · intro pid p hp
        exact ⟨p, hprep.snapshots.get_kept hp, rfl⟩
      · intro row c hrow hholds
        exact ⟨row, hprep.sources ▸ hrow, hholds⟩
    · rw [hpending] at hreadable
      cases hreadable

/-! ## Writing and applying -/

/-- A written file is noted with its snapshot. -/
theorem markSnapshotWritten_spec {id : PreparedSnapshotId}
    (h : markSnapshotWritten s id fileId revision = .ok s') :
    ∃ p source, s.snapshots.get id = some p ∧ p.isOpen ∧
      s.sources.get p.sourceId = some source ∧
      p.extractionCommitSequence = source.extractionCommitSequence ∧
      s' = { s with
        snapshots := s.snapshots.set id fun row =>
          { row with
            status := .written
            publishedFileId := some fileId
            publishedFileRevision := some revision }
        cardRevisions := s.cardRevisions.update
          (fun rid row => decide (rid = p.cardRevisionId ∧ row.publicationState = .prepared))
          fun row => { row with canonicalFileId := some fileId, canonicalRevision := some revision } } := by
  unfold markSnapshotWritten at h
  simp only [bind_ok_iff] at h
  obtain ⟨p, hp, source, hsource, u, hfence, h⟩ := h
  obtain ⟨hget, hstatus⟩ := filter_eq_some_iff.mp (demand_ok_iff.mp hp)
  exact ⟨p, source, hget, hstatus, demand_ok_iff.mp hsource, (ensure_ok_iff.mp hfence).1,
    (Except.ok.inj h).symm⟩

theorem Sound.markWritten {id : PreparedSnapshotId} (hw : Sound w)
    (h : markSnapshotWritten w.repo id fileId revision = .ok s') : Sound ⟨s', w.latest⟩ := by
  obtain ⟨p₀, source, hget, hstatus, -, -, hs'⟩ := markSnapshotWritten_spec h
  have hext : Extends w.repo s' := by
    refine Extends.of_modify (by rw [hs', Keyed.modify_id])
      (by rw [hs', update_eq]) (by rw [hs', set_eq]) (fun _ _ _ => ⟨rfl, fun hs => hs⟩) ?_ ?_
    · intro rid r
      split <;> rfl
    · intro pid p
      split <;> rfl
  subst hs'
  refine hw.of_call (Keyed.modify_id _).symm (fun _ _ => rfl)
    (fun sid row hrow => ⟨row, hrow, le_rfl⟩) ?_ ?_ fun _ _ h => .inl h
  · intro pid p' hp'
    obtain ⟨p, hp, hfix, hopen⟩ : ∃ p, w.repo.snapshots.get pid = some p ∧ p'.fixed = p.fixed ∧
        (p'.isOpen → p.isOpen) := by
      have hp'' := (get_set _).symm.trans hp'
      by_cases hid : pid = id
      · rw [if_pos hid, hid, hget] at hp''
        cases hp''
        exact ⟨p₀, hid ▸ hget, rfl, fun _ => hstatus⟩
      · rw [if_neg hid] at hp''
        exact ⟨p', hp'', rfl, fun h => h⟩
    obtain ⟨⟨e, he, hcap, hprepared⟩, r, hr, hset⟩ := hw.snapshots pid p hp
    obtain ⟨hps, -, hpr⟩ := SnapshotRow.ids_of_fixed hfix
    obtain ⟨r', hr', hrfix⟩ := hext.revisions _ r hr
    refine ⟨⟨e, hps ▸ he, (SnapshotRow.capture_of_fixed hfix).trans hcap, ?_⟩, r', hpr ▸ hr', ?_⟩
    · intro hstill _
      exact hprepared (hopen hstill) nofun
    · rw [CardRevisionRow.set_of_fixed hrfix, hset, hps]
  · intro cid card hcard hreadable
    refine (hw.cards cid card hcard hreadable).extend hext ?_
    exact fun row c hrow hholds => ⟨row, hrow, hholds⟩

theorem mem_snapshotsOf : entry ∈ snapshotsOf s id ↔
      s.snapshots.get entry.1 = some entry.2 ∧ entry.2.extractionSetId = id := by
  unfold snapshotsOf
  rw [mem_insertionSort, Keyed.mem_select, decide_eq_true_eq]

section

variable (done : List (PreparedSnapshotId × SnapshotRow))

/-- The revision of the last snapshot about the card. -/
def publishedCard (id : MemoryCardId)
    (row : CardRow) : CardRow :=
  match done.reverse.find? fun p => decide (p.2.cardId = id) with
  | some p => { row with currentRevisionId := some p.2.cardRevisionId, eligibility := .readable }
  | none => row

/-- A revision after a publication. -/
def publishedRevision (id : CardRevisionId)
    (row : CardRevisionRow) : CardRevisionRow :=
  match done.find? fun p => decide (p.2.cardRevisionId = id) with
  | some p =>
    if row.publicationState = .prepared then
      { row with
        publicationState := .published
        canonicalFileId := p.2.publishedFileId
        canonicalRevision := p.2.publishedFileRevision }
    else row
  | none => row

/-- A snapshot after its publication. -/
def appliedSnapshot (id : PreparedSnapshotId)
    (row : SnapshotRow) : SnapshotRow :=
  if id ∈ done.map Prod.fst ∧ row.status = .written then { row with status := .applied } else row

end

/-- What publishing some snapshots of a set has done. -/
structure Publishes (s : Repository) (done : List (PreparedSnapshotId × SnapshotRow))
    (s' : Repository) : Prop where
  eq : s' = { s with
    cards := s.cards.modify (publishedCard done)
    cardRevisions := s.cardRevisions.modify (publishedRevision done)
    snapshots := s.snapshots.modify (appliedSnapshot done) }
  sources : ∀ p ∈ done, ∃ row, s.cards.get p.2.cardId = some row ∧ row.sourceId = p.2.sourceId

section

variable (done : List (PreparedSnapshotId × SnapshotRow))

theorem publishedCard_concat :
    publishedCard (done ++ [entry]) = fun id row =>
      if id = entry.2.cardId then
        { publishedCard done id row with
          currentRevisionId := some entry.2.cardRevisionId
          eligibility := .readable }
      else publishedCard done id row := by
  funext id row
  unfold publishedCard
  rw [reverse_append, reverse_singleton, singleton_append, List.find?_cons]
  by_cases hid : id = entry.2.cardId
  · rw [if_pos hid, decide_eq_true hid.symm]
    cases done.reverse.find? fun p => decide (p.2.cardId = id) <;> rfl
  · rw [if_neg hid, decide_eq_false (Ne.symm hid)]

theorem publishedRevision_concat :
    publishedRevision (done ++ [entry]) = fun id row =>
      if id = entry.2.cardRevisionId ∧ (publishedRevision done id row).publicationState = .prepared then
        { publishedRevision done id row with
          publicationState := .published
          canonicalFileId := entry.2.publishedFileId
          canonicalRevision := entry.2.publishedFileRevision }
      else publishedRevision done id row := by
  funext id row
  unfold publishedRevision
  rw [List.find?_append, List.find?_singleton]
  cases hfound : done.find? fun p => decide (p.2.cardRevisionId = id) with
  | some p =>
    -- the revision was published before, and then is prepared no more
    rw [Option.some_or]
    by_cases hprepared : row.publicationState = .prepared
    · simp only [hprepared, if_true, reduceCtorEq, and_false, if_false]
    · simp only [hprepared, and_false, if_false]
  | none =>
    by_cases hid : id = entry.2.cardRevisionId
    · rw [decide_eq_true hid.symm]
      by_cases hprepared : row.publicationState = .prepared
      · simp [hid]
      · simp [hprepared]
    · rw [decide_eq_false (Ne.symm hid)]
      simp [hid]

theorem appliedSnapshot_concat :
    appliedSnapshot (done ++ [entry]) = fun id row =>
      if id = entry.1 ∧ (appliedSnapshot done id row).status = .written then
        { appliedSnapshot done id row with status := .applied }
      else appliedSnapshot done id row := by
  funext id row
  unfold appliedSnapshot
  simp only [map_append, mem_append, map_singleton, mem_singleton]
  by_cases hmem : id ∈ done.map Prod.fst
  · by_cases hwritten : row.status = .written
    · simp only [hmem, hwritten, true_or, and_self, if_true, reduceCtorEq, and_false, if_false]
    · simp only [hwritten, and_false, if_false]
  · simp only [hmem, false_or, false_and, if_false]

theorem Publishes.start (s : Repository) : Publishes s [] s := by
  refine ⟨?_, nofun⟩
  have hcards : publishedCard [] = fun _ row => row := rfl
  have hrevisions : publishedRevision [] = fun _ row => row := rfl
  have hsnapshots : appliedSnapshot [] = fun _ row => row := by
    funext id row
    exact if_neg fun h => nomatch h.1
  rw [hcards, hrevisions, hsnapshots, Keyed.modify_id, Keyed.modify_id, Keyed.modify_id]

theorem publishSnapshot_publishes {t t' : Repository} (h : Publishes s done t)
    (hstep : publishSnapshot t entry = .ok t') : Publishes s (done ++ [entry]) t' := by
  obtain ⟨u, hguard, hstep⟩ := bind_ok_iff.mp hstep
  obtain ⟨-, hcard⟩ := ensure_ok_iff.mp hguard
  cases hstep
  obtain ⟨rfl, hsources⟩ := h
  constructor
  · simp only [set_eq, update_eq, Keyed.modify_modify, publishedCard_concat,
      publishedRevision_concat, appliedSnapshot_concat, decide_eq_true_eq]
  · intro p hp
    rcases mem_append.mp hp with hp | hp
    · exact hsources p hp
    · obtain rfl := mem_singleton.mp hp
      rw [Keyed.get_modify] at hcard
      cases hrow : s.cards.get p.2.cardId with
      | none =>
        rw [hrow] at hcard
        exact absurd hcard Bool.false_ne_true
      | some row =>
        rw [hrow] at hcard
        refine ⟨row, rfl, ?_⟩
        have hsame : (publishedCard done p.2.cardId row).sourceId = row.sourceId := by
          unfold publishedCard
          split <;> rfl
        rw [← hsame]
        exact of_decide_eq_true hcard

theorem publishedCard_sourceId (id : MemoryCardId) (row : CardRow) :
    (publishedCard done id row).sourceId = row.sourceId := by
  unfold publishedCard
  split <;> rfl

/-- A card is left alone, or has its snapshot's revision. -/
theorem publishedCard_cases (id : MemoryCardId) (row : CardRow) :
    publishedCard done id row = row ∧ id ∉ done.map (fun p => p.2.cardId) ∨
      ∃ p ∈ done, p.2.cardId = id ∧ publishedCard done id row =
        { row with currentRevisionId := some p.2.cardRevisionId, eligibility := .readable } := by
  unfold publishedCard
  cases hfound : done.reverse.find? fun p => decide (p.2.cardId = id) with
  | none =>
    refine .inl ⟨rfl, ?_⟩
    rw [mem_map]
    rintro ⟨p, hp, hid⟩
    exact List.find?_eq_none.mp hfound p (mem_reverse.mpr hp) (decide_eq_true hid)
  | some p =>
    have hid := List.find?_some hfound
    exact .inr ⟨p, mem_reverse.mp (mem_of_find?_eq_some hfound), of_decide_eq_true hid, rfl⟩

theorem publishedRevision_fixed (id : CardRevisionId) (row : CardRevisionRow) :
    (publishedRevision done id row).fixed = row.fixed := by
  unfold publishedRevision
  split
  · split <;> rfl
  · rfl

theorem appliedSnapshot_fixed (id : PreparedSnapshotId) (row : SnapshotRow) :
    (appliedSnapshot done id row).fixed = row.fixed := by
  unfold appliedSnapshot
  split <;> rfl

end

/-- The cards of a source that a complete set leaves out. -/
def invalidateOmitted (s : Repository) (sourceId : SourceId) (kept : List MemoryCardId) :
    Repository :=
  { s with
    cards := s.cards.update (fun id row => decide (row.sourceId = sourceId ∧ id ∉ kept))
      fun row => { row with eligibility := .invalidated } }

/-- All snapshots are published at once. -/
theorem applyPublication_spec (h : applyPublication s id = .ok s')
    : ∃ sourceId source snapshots, snapshots = snapshotsOf s id ∧
      snapshots ≠ [] ∧ s.sources.get sourceId = some source ∧
      (∀ p ∈ snapshots, p.2.status = .written ∧ p.2.sourceId = sourceId ∧ p.2.Current source) ∧
      (∀ p ∈ snapshots, ∃ row, s.cards.get p.2.cardId = some row ∧ row.sourceId = sourceId) ∧
      ∃ f : SourceId → SourceRow → Bool,
        s' = { s with
          cards := (invalidateOmitted s sourceId (snapshots.map fun p => p.2.cardId)).cards.modify
            (publishedCard snapshots)
          cardRevisions := s.cardRevisions.modify (publishedRevision snapshots)
          snapshots := s.snapshots.modify (appliedSnapshot snapshots)
          sources := s.sources.update f fun row =>
            { row with eligible := true, invalidReason := none, pendingRebuild := false }
          extractions := s.extractions.update (fun eid row => decide (eid = id ∧ row.state = .prepared))
            fun row => { row with state := .successNonempty } } := by
  unfold applyPublication at h
  simp only [bind_ok_iff] at h
  obtain ⟨first, hfirst, u₁, hwritten, u₂, -, u₃, hagree, u₄, hchecked, s₁, hloop, h⟩ := h
  have hmem := mem_of_mem_head? (demand_ok_iff.mp hfirst)
  have hwritten := ensure_ok_iff.mp hwritten
  have hagree := ensure_ok_iff.mp hagree
  have hchecks := Fallible.forM_ok_iff.mp hchecked
  -- every snapshot was compared with the one source
  have hcurrent : ∀ p ∈ snapshotsOf s id, ∃ source, s.sources.get p.2.sourceId = some source ∧
      p.2.Current source := by
    intro p hp
    have hp := hchecks p hp
    unfold checkSnapshot at hp
    simp only [bind_ok_iff] at hp
    obtain ⟨source, hsource, revision, -, u₅, hfence, -⟩ := hp
    exact ⟨source, demand_ok_iff.mp hsource, (ensure_ok_iff.mp hfence).1⟩
  have hpub := Fallible.foldlM_invariant (fun done _ _ _ _ => publishSnapshot_publishes done)
    (Publishes.start _) hloop
  obtain ⟨rfl, hsources⟩ := hpub
  obtain ⟨source, hsource, -⟩ := hcurrent first hmem
  refine ⟨first.2.sourceId, source, _, rfl, ne_nil_of_mem hmem, hsource, ?_, ?_, _,
    (Except.ok.inj h).symm⟩
  · intro p hp
    obtain ⟨source', hsource', hcur⟩ := hcurrent p hp
    have hsame := (hagree p hp).1
    rw [hsame, hsource] at hsource'
    obtain rfl := some.inj hsource'
    exact ⟨hwritten p hp, hsame, hcur⟩
  · intro p hp
    obtain ⟨row, hrow, hof⟩ := hsources p hp
    rw [get_update] at hrow
    obtain ⟨old, hold, rfl⟩ := map_eq_some_iff.mp hrow
    refine ⟨old, hold, ?_⟩
    rw [← (hagree p hp).1, ← hof]
    split <;> rfl

/-- The one new success is noted. -/
theorem succeeded_eq_some {e' : ExtractionRow} (he : s.extractions.get id = some e)
    (hbefore : e.state ≠ .successNonempty) (he' : s'.extractions.get id = some e')
    (hafter : e'.state = .successNonempty)
    (hothers : ∀ eid row, s'.extractions.get eid = some row → row.state = .successNonempty →
      eid = id ∨ ∃ old, s.extractions.get eid = some old ∧ old.state = .successNonempty) :
    succeeded s s' e'.sourceId = some id := by
  unfold succeeded
  cases hfound : s'.extractions.rows.find? fun r => decide (r.2.sourceId = e'.sourceId) &&
      decide (r.2.state = .successNonempty) &&
      !((s.extractions.get r.1).any fun e => decide (e.state = .successNonempty)) with
  | none =>
    refine absurd ?_ (List.find?_eq_none.mp hfound (id, e') (get_eq_some_iff.mp he'))
    rw [he]
    simp [hafter, hbefore]
  | some r =>
    have hr := List.find?_some hfound
    simp only [Bool.and_eq_true, decide_eq_true_eq] at hr
    obtain ⟨⟨-, hstate⟩, hnew⟩ := hr
    have hget := get_eq_some_iff.mpr (mem_of_find?_eq_some hfound)
    rcases hothers r.1 r.2 hget hstate with hid | ⟨old, hold, hsucc⟩
    · exact congrArg some hid
    · rw [hold] at hnew
      simp [hsucc] at hnew

/-- The set was prepared, for its source. -/
theorem Sound.applied_set {snapshots : List (PreparedSnapshotId × SnapshotRow)} (hw : Sound w)
    (hsnap : snapshots = snapshotsOf w.repo id) (hne : snapshots ≠ [])
    (hall : ∀ p ∈ snapshots, p.2.status = .written ∧ p.2.sourceId = sourceId) :
    ∃ e, w.repo.extractions.get id = some e ∧ e.state = .prepared ∧ e.sourceId = sourceId ∧
      ∀ p ∈ snapshots, p.2.capture = e.capture := by
  have hset : ∀ p ∈ snapshots, ∃ e, w.repo.extractions.get id = some e ∧ e.state = .prepared ∧
      p.2.capture = e.capture := by
    intro p hp
    obtain ⟨hget, hid⟩ := mem_snapshotsOf.mp (hsnap ▸ hp)
    obtain ⟨e, he, hcap, hopen⟩ := (hw.snapshots p.1 p.2 hget).set
    refine ⟨e, hid ▸ he, hopen ?_ ?_, hcap⟩
    · exact decide_eq_true (.inr (hall p hp).1)
    · exact nofun
  obtain ⟨first, hfirst⟩ := exists_mem_of_ne_nil snapshots hne
  obtain ⟨e, he, hprepared, hcap⟩ := hset first hfirst
  refine ⟨e, he, hprepared, ?_, ?_⟩
  · rw [← (hall first hfirst).2]
    exact (congrArg Capture.sourceId hcap).symm
  · intro p hp
    obtain ⟨e', he', -, hcap'⟩ := hset p hp
    rw [he] at he'
    obtain rfl := some.inj he'
    exact hcap'

/-- What a publication makes of the sets. -/
def SucceededAt (s s' : Repository) (id : ExtractionSetId) : Prop :=
  s'.extractions = s.extractions.update (fun eid row => decide (eid = id ∧ row.state = .prepared))
    fun row => { row with state := .successNonempty }

theorem applied_sets (hs' : SucceededAt s s' id) {eid : ExtractionSetId} {row : ExtractionRow}
    (hrow : s.extractions.get eid = some row) :
    s'.extractions.get eid = some (if eid = id ∧ row.state = .prepared then
      { row with state := .successNonempty } else row) := by
  rw [hs', get_update, hrow]
  simp only [map_some, decide_eq_true_eq]

/-- Which set the observer notes at a publication. -/
theorem succeeded_of_applied (hs' : SucceededAt s s' id) (he : s.extractions.get id = some e)
    (hprepared : e.state = .prepared) (sourceId : SourceId) :
    succeeded s s' sourceId = if sourceId = e.sourceId then some id else none := by
  have hold : ∀ eid row', s'.extractions.get eid = some row' → row'.state = .successNonempty →
      eid = id ∧ row'.sourceId = e.sourceId ∨
        ∃ row, s.extractions.get eid = some row ∧ row.state = .successNonempty := by
    intro eid row' hrow' hstate
    rw [hs', get_update] at hrow'
    obtain ⟨row, hrow, rfl⟩ := map_eq_some_iff.mp hrow'
    split at hstate
    next hw =>
      obtain ⟨rfl, -⟩ := of_decide_eq_true hw
      rw [he] at hrow
      obtain rfl := some.inj hrow
      rw [if_pos hw]
      exact .inl ⟨rfl, rfl⟩
    next => exact .inr ⟨row, hrow, hstate⟩
  have he' := applied_sets hs' he
  rw [if_pos ⟨rfl, hprepared⟩] at he'
  split
  next hsrc =>
    subst hsrc
    have hbefore : e.state ≠ .successNonempty := by
      rw [hprepared]
      exact nofun
    have hnoted := succeeded_eq_some he hbefore he' rfl fun eid row hrow hstate =>
      (hold eid row hrow hstate).imp_left And.left
    exact hnoted
  next hsrc =>
    refine succeeded_eq_none sourceId ?_
    intro eid row hrow hsame hstate
    rcases hold eid row hrow hstate with ⟨-, hof⟩ | hbefore
    · exact absurd (hsame.symm.trans hof) hsrc
    · exact hbefore

/-- The set's snapshots are applied. -/
theorem Sound.applied_snapshot {w : Watched} {snapshots : List (PreparedSnapshotId × SnapshotRow)}
    (hw : Sound w) (hsets : SucceededAt w.repo s' id) (hext : Extends w.repo s')
    (hs' : s'.snapshots = w.repo.snapshots.modify (appliedSnapshot snapshots))
    (hsnap : snapshots = snapshotsOf w.repo id)
    (hwritten : ∀ p ∈ snapshots, p.2.status = .written) {pid : PreparedSnapshotId} {p' : SnapshotRow}
    (hp' : s'.snapshots.get pid = some p') : SnapshotSound s' none p' := by
  rw [hs'] at hp'
  obtain ⟨p, hp, rfl⟩ := map_eq_some_iff.mp ((Keyed.get_modify _).symm.trans hp')
  obtain ⟨⟨row, hrow, hcap, hopen⟩, r, hr, hrset⟩ := hw.snapshots pid p hp
  obtain ⟨r', hr', hrfix⟩ := hext.revisions _ r hr
  have hfix := appliedSnapshot_fixed snapshots pid p
  obtain ⟨hps, -, hpr⟩ := SnapshotRow.ids_of_fixed hfix
  refine ⟨⟨_, hps ▸ applied_sets hsets hrow, ?_, ?_⟩, r', hpr ▸ hr', ?_⟩
  · rw [SnapshotRow.capture_of_fixed hfix, hcap]
    split <;> rfl
  · intro hstill _
    by_cases hid : p.extractionSetId = id
    · -- every snapshot of this set is applied now
      have hmem : (pid, p) ∈ snapshots := hsnap ▸ mem_snapshotsOf.mpr ⟨hp, hid⟩
      have happlied : appliedSnapshot snapshots pid p = { p with status := .applied } :=
        if_pos ⟨mem_map_of_mem hmem, hwritten _ hmem⟩
      rw [happlied] at hstill
      exact absurd hstill Bool.false_ne_true
    · rw [if_neg fun h => hid (hps.symm.trans h.1)]
      refine hopen ?_ nofun
      unfold appliedSnapshot at hstill
      split at hstill
      · exact absurd hstill Bool.false_ne_true
      · exact hstill
  · rw [CardRevisionRow.set_of_fixed hrfix, hrset, hps]

/-- A card that got the revision of its snapshot. -/
theorem Sound.applied_card {w : Watched} {p : PreparedSnapshotId × SnapshotRow} {card : CardRow}
    {source : SourceRow} {latest : Option ExtractionSetId} (hw : Sound w)
    (hsets : SucceededAt w.repo s' id) (hext : Extends w.repo s')
    (he : w.repo.extractions.get id = some e) (hprepared : e.state = .prepared)
    (hp : p ∈ snapshotsOf w.repo id) (hcap : p.2.capture = e.capture)
    (hcard : card.currentRevisionId = some p.2.cardRevisionId) (hsrc : e.sourceId = card.sourceId)
    (hsource : s'.sources.get card.sourceId = some source) (hholds : source.Holds p.2.capture)
    (hlatest : latest = some id) : CardSound s' latest p.2.cardId card := by
  obtain ⟨hget, hid⟩ := mem_snapshotsOf.mp hp
  obtain ⟨-, r, hr, hrset⟩ := hw.snapshots p.1 p.2 hget
  obtain ⟨r', hr', hrfix⟩ := hext.revisions _ r hr
  obtain ⟨p', hp', hpfix⟩ := hext.snapshots p.1 p.2 hget
  obtain ⟨hps, hpc, hpr⟩ := SnapshotRow.ids_of_fixed hpfix
  have he' := applied_sets hsets he
  rw [if_pos ⟨rfl, hprepared⟩] at he'
  refine ⟨p.1, p', { e with state := .successNonempty }, source, hp', hpc, hpr ▸ hcard, ?_, ?_, rfl,
    ?_, hsrc, ⟨r', hpr ▸ hr', ?_⟩, hsource, hcap ▸ hholds⟩
  · rw [hlatest, hps, hid]
  · rw [hps, hid]
    exact he'
  · rw [SnapshotRow.capture_of_fixed hpfix, hcap]
    rfl
  · rw [CardRevisionRow.set_of_fixed hrfix, hrset, hps]

/-- The invariant after a publication. -/
theorem Sound.apply (hw : Sound w) (h : applyPublication w.repo id = .ok s') :
    Sound ⟨s', fun sourceId => (succeeded w.repo s' sourceId).or (w.latest sourceId)⟩ := by
  obtain ⟨sourceId, source, snapshots, hsnap, hne, hsource, hall, hcards, guard, hs'⟩ :=
    applyPublication_spec h
  obtain ⟨e, he, hprepared, hsrc, hcaps⟩ :=
    hw.applied_set hsnap hne fun p hp => ⟨(hall p hp).1, (hall p hp).2.1⟩
  have hsets : SucceededAt w.repo s' id := by
    rw [SucceededAt, hs']
  have hnoted := succeeded_of_applied hsets he hprepared
  rw [hsrc] at hnoted
  have hsets' := Eq.trans hsets (update_eq _ _ _)
  have hext : Extends w.repo s' := by
    refine Extends.of_modify hsets' (by rw [hs']) (by rw [hs']) ?_ (publishedRevision_fixed snapshots)
      (appliedSnapshot_fixed snapshots)
    intro eid row _
    split
    · exact ⟨rfl, fun _ => rfl⟩
    · exact ⟨rfl, fun h => h⟩
  have hsources : ∀ sid row, w.repo.sources.get sid = some row → ∃ row', s'.sources.get sid = some row' ∧
      row'.extractionCommitSequence = row.extractionCommitSequence ∧
      ∀ c, row.Holds c → row'.Holds c := by
    intro sid row hrow
    rw [hs']
    exact get_madeEligible guard hrow
  refine hw.of_call hsets' ?_ ?_ ?_ ?_ ?_
  · intro eid row
    split <;> rfl
  · intro sid row hrow
    obtain ⟨row', hrow', hseq, -⟩ := hsources sid row hrow
    exact ⟨row', hrow', hseq.ge⟩
  · exact fun _ _ => hw.applied_snapshot hsets hext (by rw [hs']) hsnap fun p hp => (hall p hp).1
  · intro cid card hcard hreadable
    rw [hs'] at hcard
    obtain ⟨row, hrow, rfl⟩ := map_eq_some_iff.mp ((Keyed.get_modify _).symm.trans hcard)
    obtain ⟨old, hold, hinv⟩ := map_eq_some_iff.mp ((get_update _ _).symm.trans hrow)
    rcases publishedCard_cases snapshots cid row with ⟨hsame, hnot⟩ | ⟨p, hp, rfl, hpub⟩
    · -- a card of another source
      rw [hsame] at hreadable ⊢
      have hother : old.sourceId ≠ sourceId := by
        intro hof
        rw [if_pos (decide_eq_true ⟨hof, hnot⟩)] at hinv
        rw [← hinv] at hreadable
        cases hreadable
      rw [if_neg fun h => hother (of_decide_eq_true h).1] at hinv
      subst hinv
      rw [hnoted, if_neg hother]
      refine (hw.cards cid old hold hreadable).extend hext ?_
      intro src c hget hholds
      obtain ⟨src', hget', -, hkeep⟩ := hsources _ src hget
      exact ⟨src', hget', hkeep c hholds⟩
    · -- a card of the set
      obtain ⟨-, -, hcurrent⟩ := hall p hp
      obtain ⟨old', hold', hof⟩ := hcards p hp
      rw [hold] at hold'
      obtain rfl := some.inj hold'
      have hrowsrc : row.sourceId = sourceId := by
        rw [← hinv, ← hof]
        split <;> rfl
      obtain ⟨source', hsource', -, hkeep⟩ := hsources sourceId source hsource
      rw [hpub]
      refine hw.applied_card hsets hext he hprepared (hsnap ▸ hp) (hcaps p hp) rfl
        (hsrc.trans hrowsrc.symm) (hrowsrc ▸ hsource')
        (hkeep _ ⟨hcurrent.1, hcurrent.2.1, hcurrent.2.2.1, hcurrent.2.2.2.1⟩) ?_
      show (succeeded w.repo s' row.sourceId).or _ = _
      rw [hnoted, if_pos hrowsrc]
      rfl
  · intro sid eid hlatest
    rw [hnoted] at hlatest
    by_cases hsid : sid = sourceId
    · rw [if_pos hsid] at hlatest
      obtain rfl := some.inj hlatest
      exact .inr ⟨e, he, hsrc.trans hsid.symm⟩
    · rw [if_neg hsid] at hlatest
      exact .inl hlatest

/-! ## Every run -/

/-- A call that makes no set successful goes unnoticed. -/
theorem latest_kept (latest : SourceId → Option ExtractionSetId)
    (h : ∀ id e', s'.extractions.get id = some e' → e'.state = .successNonempty →
      ∃ e, s.extractions.get id = some e ∧ e.state = .successNonempty) :
    (fun sourceId => (succeeded s s' sourceId).or (latest sourceId)) = latest := by
  funext sourceId
  rw [succeeded_eq_none sourceId fun id e' he' _ => h id e' he', none_or]

theorem Closes.quiet (h : Closes s s' id) :
    ∀ eid e', s'.extractions.get eid = some e' → e'.state = .successNonempty →
      ∃ e, s.extractions.get eid = some e ∧ e.state = .successNonempty := by
  intro eid e' he' hstate
  obtain ⟨f, hf, hsets⟩ := h.extractions
  rw [hf, Keyed.get_modify] at he'
  obtain ⟨e, he, rfl⟩ := map_eq_some_iff.mp he'
  rcases (hsets eid e).2 he with hsame | ⟨-, -, hne⟩
  · exact ⟨e, he, hsame ▸ hstate⟩
  · exact absurd hstate hne

theorem Retires.quiet (h : Retires s s') :
    ∀ eid e', s'.extractions.get eid = some e' → e'.state = .successNonempty →
      ∃ e, s.extractions.get eid = some e ∧ e.state = .successNonempty := by
  intro eid e' he' hstate
  rw [h.extractions] at he'
  exact ⟨e', he', hstate⟩

/-- No set moved, one closed, or one moved on. -/
theorem exec_cases (h : exec env s call = .ok s') :
    (Retires s s' ∧ (s' = s ∨ ∀ id, ¬ call.actsFor s id)) ∨ (∃ id, Closes s s' id) ∨
      (∃ i out, call = .start i ∧ startExtraction env s i = .ok out ∧ s' = out.1) ∨
      (∃ id state code, call = .finish id state code ∧
        finishEmptyOrNonpublishable s id state code = .ok s') ∨
      (∃ id observations cards, call = .prepare id observations cards ∧
        preparePublication env s id observations cards = .ok s') ∨
      (∃ id fileId revision, call = .markWritten id fileId revision ∧
        markSnapshotWritten s id fileId revision = .ok s') ∨
      ∃ id, call = .apply id ∧ applyPublication s id = .ok s' := by
  cases call with
  | register r =>
    obtain ⟨out, hout, rfl⟩ := Fallible.map_ok_iff.mp h
    exact .inl ⟨upsertSourceRevision_retires hout, .inr fun _ => id⟩
  | start i =>
    obtain ⟨out, hout, rfl⟩ := Fallible.map_ok_iff.mp h
    exact .inr (.inr (.inl ⟨i, out, rfl, hout, rfl⟩))
  | finish id state code => exact .inr (.inr (.inr (.inl ⟨id, state, code, rfl, h⟩)))
  | prepare id observations cards =>
    exact .inr (.inr (.inr (.inr (.inl ⟨id, observations, cards, rfl, h⟩))))
  | markWritten id fileId revision =>
    exact .inr (.inr (.inr (.inr (.inr (.inl ⟨id, fileId, revision, rfl, h⟩)))))
  | apply id => exact .inr (.inr (.inr (.inr (.inr (.inr ⟨id, rfl, h⟩)))))
  | reject id code =>
    cases h
    exact .inr (.inl ⟨id, rejectPublication_closes s id code⟩)
  | cancel id code =>
    rcases cancelExtraction_cases h with rfl | hcloses
    · exact .inl ⟨Retires.refl _, .inl rfl⟩
    · exact .inr (.inl ⟨id, hcloses⟩)
  | invalidate fileId reason authorization =>
    cases h
    exact .inl ⟨invalidateSource_retires s fileId reason authorization, .inr fun _ => id⟩
  | invalidateAll reason authorization =>
    cases h
    exact .inl ⟨invalidateAllSources_retires s reason authorization, .inr fun _ => id⟩

theorem watch_some (h : watch env w call = some w') :
    ∃ s', exec env w.repo call = .ok s' ∧ w' = ⟨s', fun sourceId =>
      (succeeded w.repo s' sourceId).or (w.latest sourceId)⟩ := by
  unfold watch at h
  cases hexec : exec env w.repo call with
  | error e =>
    rw [hexec] at h
    cases h
  | ok s' =>
    rw [hexec] at h
    exact ⟨s', rfl, (some.inj h).symm⟩

/-- One call keeps the invariant. -/
theorem Sound.watch (hw : Sound w) (h : watch env w call = some w') : Sound w' := by
  obtain ⟨s', hexec, rfl⟩ := watch_some h
  obtain ⟨hret, -⟩ | ⟨id, hcloses⟩ | ⟨i, out, -, hout, rfl⟩ | ⟨id, state, code, -, hfinish⟩ |
    ⟨id, observations, cards, -, hprepare⟩ | ⟨id, fileId, revision, -, hmark⟩ | ⟨id, -, happly⟩ :=
    exec_cases hexec
  · rw [latest_kept _ hret.quiet]
    exact hw.retires hret
  · rw [latest_kept _ hcloses.quiet]
    exact hw.closes hcloses
  · rw [latest_kept]
    · exact hw.start hout
    · intro id e' he' hstate
      obtain ⟨hsame, -⟩ | ⟨source, targets, extractions, idempotency, e, -, -, -, hinsert, hrunning,
        -, -, hs'⟩ := startExtraction_cases hout
      · exact ⟨e', hsame ▸ he', hstate⟩
      · rw [hs'] at he'
        rcases Keyed.get_of_insert hinsert he' with ⟨-, rfl⟩ | hold
        · rw [hrunning] at hstate
          cases hstate
        · exact ⟨e', hold, hstate⟩
  · obtain ⟨e, source, revision, he, hrunning, -, hend⟩ := finish_spec hfinish
    have hcloses := hw.ended he hrunning state code
    obtain ⟨-, rfl⟩ | ⟨-, -, hret, -⟩ := hend
    · rw [latest_kept _ hcloses.quiet]
      exact hw.closes hcloses
    · rw [latest_kept]
      · exact (hw.closes hcloses).retires hret
      · intro eid e' he' hstate
        obtain ⟨e₁, he₁, hstate₁⟩ := hret.quiet eid e' he' hstate
        exact hcloses.quiet eid e₁ he₁ hstate₁
  · rw [latest_kept]
    · exact hw.prepare hprepare
    · intro eid e' he' hstate
      obtain ⟨e, source, revision, s₁, he, hrunning, -, -, -, hprep, rfl⟩ :=
        preparePublication_spec hprepare
      replace he' := (get_set _).symm.trans he'
      rw [hprep.extractions] at he'
      by_cases hid : eid = id
      · rw [if_pos hid] at he'
        obtain ⟨row, -, rfl⟩ := map_eq_some_iff.mp he'
        cases hstate
      · rw [if_neg hid] at he'
        exact ⟨e', he', hstate⟩
  · rw [latest_kept]
    · exact hw.markWritten hmark
    · intro eid e' he' hstate
      obtain ⟨p, source, -, -, -, -, rfl⟩ := markSnapshotWritten_spec hmark
      exact ⟨e', he', hstate⟩
  · exact hw.apply happly

theorem Sound.unused (h : s.Unused) : Sound ⟨s, fun _ => none⟩ where
  sets := fun _ _ he => (Keyed.get_of_empty h.extractions he).elim
  ordered := by
    rw [h.extractions]
    exact List.Pairwise.nil
  snapshots := fun _ _ hp => (Keyed.get_of_empty h.snapshots hp).elim
  cards := fun _ _ hcard => (Keyed.get_of_empty h.cards hcard).elim
  noted := nofun

theorem reach_sound (h : s.Unused) (hreach : Reach (watch env) Always ⟨s, fun _ => none⟩ w)
    : Sound w :=
  hreach.invariant (fun _ _ _ hw hstep _ => hw.watch hstep) (Sound.unused h)

/-! ## What an overtaken set can still do -/

/-- Giving a set up changes nothing that is listed. -/
theorem Closes.listCards (h : Closes s s' id) : listCards s' = listCards s := by
  have hitems : s'.items = s.items := by rw [h.rest]
  have hreadable := isReadable_congr hitems (by rw [h.rest]) (by rw [h.rest])
  refine listCards_congr ?_ (buildCardRecord_congr hitems (by rw [h.rest]) (by rw [h.rest]))
  obtain ⟨f, hf, hrevisions⟩ := h.revisions
  rw [readableHeaders_eq, readableHeaders_eq, h.cards]
  refine filterMap_congr ?_
  intro entry _
  -- only a revision that is published is read, and such a one stays as it is
  have hpublished : ∀ header, header.revision.publicationState = .published →
      (cardHeader s' entry = some header ↔ cardHeader s entry = some header) := by
    intro header hpub
    rw [cardHeader_eq_some_iff, cardHeader_eq_some_iff, hf, Keyed.get_modify, h.sources,
      map_eq_some_iff]
    refine and_congr_right fun _ => and_congr_right fun _ => and_congr_left fun _ => ?_
    constructor
    · rintro ⟨r, hr, hfr⟩
      obtain ⟨-, -, hkeep, -⟩ := hrevisions header.revisionId r
      rw [← hfr] at hpub ⊢
      rwa [hkeep hpub]
    · intro hr
      obtain ⟨-, hkeep, -⟩ := hrevisions header.revisionId header.revision
      refine ⟨header.revision, hr, hkeep ?_⟩
      rw [hpub]
      exact nofun
  refine Option.ext fun header => ?_
  unfold readableHeader
  rw [filter_eq_some_iff, filter_eq_some_iff, hreadable]
  exact and_congr_left fun hread => hpublished header (published_of_readable hread).2

/-- A followed set has lost its commit sequence. -/
theorem Sound.overtaken {newer : ExtractionSetId} (hw : Sound w)
    (horder : [older, newer].Sublist (w.repo.extractions.rows.map Prod.fst))
    (ho : w.repo.extractions.get older = some o) (he : w.repo.extractions.get newer = some e)
    (hsame : o.sourceId = e.sourceId) (hsource : w.repo.sources.get o.sourceId = some source) :
    o.extractionCommitSequence < source.extractionCommitSequence := by
  obtain ⟨rows, hsub, heq⟩ := sublist_map_iff.mp horder
  obtain ⟨a, rest, rfl, ha, hrest⟩ := map_eq_cons_iff.mp heq.symm
  obtain ⟨b, rest', rfl, hb, hnil⟩ := map_eq_cons_iff.mp hrest
  have hga : w.repo.extractions.get a.1 = some a.2 :=
    get_eq_some_iff.mpr (hsub.subset (by simp))
  have hgb : w.repo.extractions.get b.1 = some b.2 :=
    get_eq_some_iff.mpr (hsub.subset (by simp))
  rw [ha, ho] at hga
  rw [hb, he] at hgb
  have hpair := (hw.ordered.sublist hsub)
  rw [pairwise_cons] at hpair
  have hlt := hpair.1 b (by simp)
  rw [← some.inj hga, ← some.inj hgb] at hlt
  obtain ⟨source', hsource', hle⟩ := hw.sets newer e he
  rw [← hsame, hsource] at hsource'
  obtain rfl := some.inj hsource'
  exact (hlt hsame).trans_le hle

/-- A call for a followed set changes no list. -/
theorem Sound.overtaken_call (hw : Sound w) (ho : w.repo.extractions.get older = some o)
    (hlate : ∀ source, w.repo.sources.get o.sourceId = some source →
      o.extractionCommitSequence < source.extractionCommitSequence)
    (hacts : call.actsFor w.repo older) (h : SemanticMemory.watch env w call = some w') :
    listCards w'.repo = listCards w.repo := by
  obtain ⟨s', hexec, rfl⟩ := watch_some h
  show listCards s' = _
  obtain ⟨-, rfl | hidle⟩ | ⟨id, hcloses⟩ | ⟨i, out, rfl, hout, rfl⟩ |
    ⟨id, state, code, rfl, hfinish⟩ | ⟨id, observations, cards, rfl, hprepare⟩ |
    ⟨pid, fileId, revision, rfl, hmark⟩ | ⟨id, rfl, happly⟩ := exec_cases hexec
  · rfl
  · exact absurd hacts (hidle older)
  · exact hcloses.listCards
  · obtain rfl : i.id = older := hacts
    obtain ⟨hsame, -⟩ | ⟨source, targets, extractions, idempotency, e, -, -, -, hinsert, -⟩ :=
      startExtraction_cases hout
    · rw [hsame]
    · rw [Keyed.get_none_of_insert hinsert] at ho
      cases ho
  · obtain rfl : id = older := hacts
    obtain ⟨e, source, revision, he, hrunning, hsource, ⟨-, rfl⟩ | ⟨-, hfenced, -⟩⟩ :=
      finish_spec hfinish
    · exact (hw.ended he hrunning state code).listCards
    · rw [ho] at he
      obtain rfl := some.inj he
      obtain ⟨-, -, -, -, hseq⟩ := hfenced
      exact absurd hseq (hlate source hsource).ne
  · obtain rfl : id = older := hacts
    obtain ⟨e, source, revision, s₁, he, -, hsource, -, hfenced, -⟩ :=
      preparePublication_spec hprepare
    rw [ho] at he
    obtain rfl := some.inj he
    obtain ⟨-, -, -, -, hseq⟩ := hfenced
    exact absurd hseq (hlate source hsource).ne
  · obtain ⟨row, hrow, hset⟩ := hacts
    obtain ⟨p, source, hp, -, hsource, hseq, -⟩ := markSnapshotWritten_spec hmark
    rw [hrow] at hp
    obtain rfl := some.inj hp
    obtain ⟨e, he, hcap, -⟩ := (hw.snapshots pid row hrow).set
    rw [hset, ho] at he
    obtain rfl := some.inj he
    rw [show row.sourceId = o.sourceId from congrArg Capture.sourceId hcap] at hsource
    rw [show row.extractionCommitSequence = o.extractionCommitSequence from
      congrArg Capture.extractionCommitSequence hcap] at hseq
    exact absurd hseq (hlate source hsource).ne
  · obtain rfl : id = older := hacts
    obtain ⟨sourceId, source, snapshots, hsnap, hne, hsource, hall, -⟩ :=
      applyPublication_spec happly
    obtain ⟨e, he, -, hsrc, hcaps⟩ :=
      hw.applied_set hsnap hne fun p hp => ⟨(hall p hp).1, (hall p hp).2.1⟩
    rw [ho] at he
    obtain rfl := some.inj he
    obtain ⟨first, hfirst⟩ := exists_mem_of_ne_nil snapshots hne
    obtain ⟨-, -, -, -, -, -, hseq⟩ := hall first hfirst
    rw [show first.2.extractionCommitSequence = o.extractionCommitSequence from
      congrArg Capture.extractionCommitSequence (hcaps first hfirst)] at hseq
    exact absurd hseq.symm (hlate source (hsrc ▸ hsource)).ne

/-- **ONLY THE LATEST SUCCESS IS READ.**  A listed card is from the set that succeeded last for
    its source, which still has what was captured; older sets change nothing that is listed. -/
theorem listCards_of_latest_success (env : Env) (s : Repository) (hs : s.Unused) (w : Watched)
    (hreach : Reach (watch env) Always ⟨s, fun _ => none⟩ w) :
    (∀ limit cards, listCards w.repo limit = .ok cards → ∀ card ∈ cards,
      ∃ id e source r pid p, w.latest card.sourceId = some id ∧
        w.repo.extractions.get id = some e ∧ e.state = .successNonempty ∧
        e.sourceId = card.sourceId ∧
        w.repo.cardRevisions.get card.revisionId = some r ∧ r.extractionSetId = id ∧
        w.repo.snapshots.get pid = some p ∧ p.extractionSetId = id ∧ p.cardId = card.id ∧
        p.cardRevisionId = card.revisionId ∧
        w.repo.sources.get card.sourceId = some source ∧ source.Holds e.capture) ∧
    ∀ sourceId id older o, w.latest sourceId = some id →
      w.repo.extractions.get older = some o → o.sourceId = sourceId →
      [older, id].Sublist (w.repo.extractions.rows.map Prod.fst) →
      ∀ call, call.actsFor w.repo older → ∀ w', watch env w call = some w' →
        listCards w'.repo = listCards w.repo := by
  have hw := reach_sound hs hreach
  refine ⟨?_, ?_⟩
  · intro limit cards hlist card hcard
    obtain ⟨header, hheader, hbuild⟩ := header_of_listed hlist hcard
    obtain ⟨hid, hrev, hsrc, -⟩ := ids_of_record hbuild
    obtain ⟨hentry, hjoin, hread⟩ := mem_readableHeaders.mp hheader
    obtain ⟨-, hcurrent, -⟩ := cardHeader_eq_some_iff.mp hjoin
    obtain ⟨pid, p, e, source, hp, hpid, hcur, hlatest, he, hstate, hcap, hof, ⟨r, hr, hset⟩, hsource,
      hholds⟩ := hw.cards _ _ (get_eq_some_iff.mpr hentry) (published_of_readable hread).1
    rw [hcurrent] at hcur
    have hcur := some.inj hcur
    refine ⟨p.extractionSetId, e, source, r, pid, p, ?_, he, hstate, ?_, ?_, hset, hp, rfl, ?_, ?_, ?_,
      hholds⟩
    · rw [hsrc]
      exact hlatest
    · rw [hsrc]
      exact hof
    · rw [hrev, hcur]
      exact hr
    · rw [hid]
      exact hpid
    · rw [hrev, hcur]
    · rw [hsrc]
      exact hsource
  · intro sourceId id older o hlatest ho hof horder call hacts w' hstep
    obtain ⟨e, he, hsrc⟩ := hw.noted sourceId id hlatest
    refine hw.overtaken_call ho ?_ hacts hstep
    intro source hsource
    exact hw.overtaken horder ho he (hof.trans hsrc.symm) hsource

end Calls

/-! One note, registered and extracted, for the runs below.  Digests and texts play no part in them. -/

/-- Texts are digests, and need no escape. -/
def plainEnv : Env where
  sha256Hex := id
  hashBytes bytes := String.ofList (bytes.map fun b => Char.ofNat b.toNat)
  jsonTexts texts := "[" ++ ",".intercalate (texts.map fun t => "\"" ++ t ++ "\"") ++ "]"
  materialLines bytes := ((bytes.map fun b => Char.ofNat b.toNat).splitOn '\n').map String.ofList
  normalizeMarkdownLine := id

def noteRegistration : Registration where
  fileId := 1
  sourcePath := ["note.md"]
  fileRevision := 1
  contentHash := "note"
  authorizationRevision := 1
  fence := none
  newSourceId := 1
  newRevisionId := 1

def noteStart (id : ExtractionSetId) (key : String) : StartInput :=
  ⟨id, 1, 1, "note", "profile", key, key, 0⟩

def noteObservation (id : ObservationId) : ObservationInput where
  id
  localKey := "observation"
  kind := "state"
  statement := "statement"
  scope := "project"
  assertionStatus := "source_asserted"
  sourceTimeScope := "\x7b\x7d"
  conditions := []
  exceptions := []
  orderedSteps := []
  result := none
  uncertainty := none
  admissionReason := ""
  valueForFutureWork := ""
  evidence := ⟨id, [⟨0, 1, "span"⟩], []⟩

/-- A card with one item; one identifier for all. -/
def noteCard (cardId revision : Nat) (expected : Option CardRevisionId) (number : Nat)
    (topic : String) (observation : ObservationId) : CardRevisionInput where
  cardId
  cardRevisionId := revision
  expectedCardRevisionId := expected
  revisionNumber := number
  topicKey := topic
  title := topic
  kind := "state"
  scopeRef := "project"
  assertionStatus := "source_asserted"
  temporalScope := "\x7b\x7d"
  compositionProfileId := "profile"
  canonicalPath := [topic]
  canonicalMarkdownHash := "card"
  canonicalBytes := [1]
  items := [⟨revision, observation, "core_assertion", 0, "content", [observation]⟩]
  snapshotId := revision

/-- Two extractions; the second publishes a card. -/
def overtakingRun : List Call :=
  [.register noteRegistration, .start (noteStart 1 "first"), .start (noteStart 2 "second"),
    .prepare 2 [noteObservation 1] [noteCard 1 1 none 1 "topic" 1], .markWritten 1 7 1, .apply 2]

theorem listCards_of_overtakingRun : ∃ w cards, Reach (watch plainEnv) Always ⟨.empty, fun _ => none⟩ w ∧
    listCards w.repo 10 = .ok cards ∧ cards.length = 1 ∧
    (∀ card ∈ cards, ∃ id e, w.latest card.sourceId = some id ∧
      w.repo.extractions.get id = some e ∧ e.state = .successNonempty) ∧
    ∀ w', watch plainEnv w (.reject 1 "rules_changed") = some w' →
      listCards w'.repo = listCards w.repo := by
  have hrun : ((run (watch plainEnv) ⟨.empty, fun _ => none⟩ overtakingRun).bind fun w =>
      (listCards w.repo 10).toOption.map fun cards =>
        (cards.length, w.latest 1, (w.repo.extractions.get 1).map ExtractionRow.sourceId,
          w.repo.extractions.rows.map Prod.fst)) = some (1, some 2, some 1, [1, 2]) := by
    decide +kernel
  obtain ⟨w, hw, hview⟩ := bind_eq_some_iff.mp hrun
  obtain ⟨cards, hcards, hview⟩ := map_eq_some_iff.mp hview
  simp only [Prod.mk.injEq] at hview
  obtain ⟨hlength, hlatest, hfirst, hkeys⟩ := hview
  obtain ⟨o, ho, hsource⟩ := map_eq_some_iff.mp hfirst
  have hlist : listCards w.repo 10 = .ok cards := by
    cases hlisted : listCards w.repo 10 with
    | error e =>
      rw [hlisted] at hcards
      cases hcards
    | ok listed =>
      rw [hlisted] at hcards
      exact congrArg Except.ok (some.inj hcards)
  have hreach := Reach.of_run hw
  obtain ⟨hfrom, hovertaken⟩ := listCards_of_latest_success plainEnv .empty ⟨rfl, rfl, rfl, rfl, rfl⟩ w hreach
  refine ⟨w, cards, hreach, hlist, hlength, ?_, ?_⟩
  · intro card hcard
    obtain ⟨id, e, -, -, -, -, hid, he, hstate, -⟩ := hfrom 10 cards hlist card hcard
    exact ⟨id, e, hid, he, hstate⟩
  · intro w' hw'
    refine hovertaken 1 2 1 o hlatest ho hsource ?_ (.reject 1 "rules_changed") ?_ w' hw'
    · rw [hkeys]
    · rfl

/-- The note, extracted and published with one card. -/
def publishingRun : List Call :=
  [.register noteRegistration, .start (noteStart 1 "first"),
    .prepare 1 [noteObservation 1] [noteCard 1 1 none 1 "topic" 1], .markWritten 1 7 1, .apply 1]

def publishedNote : Repository :=
  ((run (watch plainEnv) ⟨.empty, fun _ => none⟩ publishingRun).map Watched.repo).getD .empty

end SemanticMemory
