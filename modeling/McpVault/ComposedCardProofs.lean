import McpVault.SemanticCardProofs

/-! # Reading composed cards

Each item of a composed card names groups of observations: an `and` group needs all of its
members, an `or` group one.  A card is read while every group holds and its canonical file is the
published one.  The list cuts its query at the limit before it looks at groups and files. -/

namespace SemanticMemory

open KeyedTable List
open Fallible (bind_ok_iff)
open VaultDomain (FileId VaultPath Revision)
open Option (bind_eq_some_iff bind_some some.inj)

abbrev ComposedRevisionId := Nat
abbrev ComposedItemId := Nat
abbrev SupportGroupId := Nat
abbrev SupportMemberId := Nat
abbrev RelationCandidateId := Nat
abbrev RelationDecisionId := Nat

/-! ## Rows -/

inductive ComposedEligibility where
  | pending
  | readable
  | invalidated
  | stale
  | redirected
  deriving DecidableEq

structure ComposedCardRow where
  currentRevisionId : Option ComposedRevisionId
  eligibility : ComposedEligibility
  deriving DecidableEq

/-- A row of `semantic_composed_card_revisions`. -/
structure ComposedRevisionRow where
  (title kind scopeRef assertionStatus temporalScope : String)
  revisionNumber : Nat
  canonicalPath : VaultPath
  canonicalFileId : Option FileId
  canonicalRevision : Option Revision
  canonicalMarkdownHash : String
  publicationState : PublicationState
  targetKey : String
  deriving DecidableEq

structure ComposedItemRow where
  revisionId : ComposedRevisionId
  kind : String
  ordinal : Nat
  content : String
  deriving DecidableEq

inductive SupportOperator where
  | and
  | or
  deriving DecidableEq

structure SupportGroupRow where
  itemId : ComposedItemId
  operator : SupportOperator
  ordinal : Nat
  deriving DecidableEq

/-- A row of `semantic_composed_support_members`. -/
structure SupportMemberRow where
  groupId : SupportGroupId
  sourceId : SourceId
  sourceRevisionId : SourceRevisionId
  observationId : ObservationId
  evidenceRefId : EvidenceRefId
  role : String
  deriving DecidableEq

structure RelationCandidateRow where
  leftObservationId : ObservationId
  leftSourceId : SourceId
  leftSourceRevisionId : SourceRevisionId
  rightObservationId : ObservationId
  rightSourceId : SourceId
  rightSourceRevisionId : SourceRevisionId

inductive DecisionState where
  | accepted
  | rejected
  | stale
  | blocked
  deriving DecidableEq

structure RelationDecisionRow where
  candidateId : RelationCandidateId
  relationKind : String
  state : DecisionState
  reasonCode : String

/-- The tables of a Vault and its organization. -/
structure Organization extends Repository where
  composedCards : Keyed ComposedCardId ComposedCardRow
  composedRevisions : Keyed ComposedRevisionId ComposedRevisionRow
  composedItems : Keyed ComposedItemId ComposedItemRow
  supportGroups : Keyed SupportGroupId SupportGroupRow
  supportMembers : Keyed SupportMemberId SupportMemberRow
  relationCandidates : Keyed RelationCandidateId RelationCandidateRow
  relationDecisions : Keyed RelationDecisionId RelationDecisionRow

/-! ## Support -/

/-- The current card of a rule rests on this observation. -/
def boundCardCites (s : Repository) (x : RuleRow) (m : SupportMemberRow) : Bool :=
  x.cardId.any fun cardId =>
    (s.cards.get cardId).any fun card => decide (card.sourceId = m.sourceId) &&
      card.currentRevisionId.any fun revisionId =>
        (s.cardRevisions.get revisionId).any fun r =>
          decide (r.sourceRevisionId = m.sourceRevisionId) &&
            x.observationId.all fun _ => hasItemFrom s revisionId m.observationId

/-- By its source, its composed card or a card of the source. -/
def SuppressionRow.hidesMember (s : Repository) (cardId : ComposedCardId) (x : SuppressionRow)
    (m : SupportMemberRow) : Bool :=
  let admits := x.sourceId.all (fun id => decide (id = m.sourceId)) &&
    x.sourceRevisionId.all fun id => decide (id = m.sourceRevisionId)
  x.active && x.action.hides && (decide (x.sourceId = some m.sourceId) &&
        x.sourceRevisionId.all (fun id => decide (id = m.sourceRevisionId)) &&
        x.composedCardId.all (fun id => decide (id = cardId)) &&
        x.observationId.all (fun id => decide (id = m.observationId)) ||
      decide (x.composedCardId = some cardId) && x.sourceId.isNone ||
      admits && boundCardCites s x.toRuleRow m)

/-- All is current and valid, and no rule against it. -/
def memberIsValid (s : Repository) (cardId : ComposedCardId) (m : SupportMemberRow) : Bool :=
  (s.sources.get m.sourceId).any fun source =>
    (s.observations.get m.observationId).any fun o =>
      (s.extractions.get o.extractionSetId).any fun set =>
        (s.evidence.get m.evidenceRefId).any fun e =>
          decide (o.sourceId = m.sourceId ∧ o.sourceRevisionId = m.sourceRevisionId ∧
            set.sourceId = o.sourceId ∧ source.eligible ∧ source.pendingRebuild = false ∧
            source.currentRevisionId = some m.sourceRevisionId ∧ e.sourceId = m.sourceId ∧
            e.sourceRevisionId = m.sourceRevisionId ∧ e.validated ∧
            set.state = .successNonempty ∧
            set.extractionCommitSequence = source.extractionCommitSequence) &&
          !(s.suppressions.rows.any fun x => x.2.hidesMember s cardId m)

namespace Organization

variable (o : Organization)

/-- The groups of a revision. -/
def groupsOf (revisionId : ComposedRevisionId) : List (SupportGroupId × SupportGroupRow) :=
  o.supportGroups.select fun _ g =>
    (o.composedItems.get g.itemId).any fun i => decide (i.revisionId = revisionId)

def membersOf (groupId : SupportGroupId) : List (SupportMemberId × SupportMemberRow) :=
  o.supportMembers.select fun _ m => decide (m.groupId = groupId)

def validMembersOf (cardId : ComposedCardId) (groupId : SupportGroupId) :
    List (SupportMemberId × SupportMemberRow) :=
  (o.membersOf groupId).filter fun m => memberIsValid o.toRepository cardId m.2

/-- `and`: there are members, and all are valid; `or`: one is. -/
def isSupported (cardId : ComposedCardId) (g : SupportGroupId × SupportGroupRow) : Bool :=
  match g.2.operator with
  | .and => decide (0 < (o.membersOf g.1).length) &&
      decide ((o.validMembersOf cardId g.1).length = (o.membersOf g.1).length)
  | .or => decide (0 < (o.validMembersOf cardId g.1).length)

/-! ## Headers -/

end Organization

/-- A composed card joined with its current revision. -/
structure ComposedHeader where
  cardId : ComposedCardId
  card : ComposedCardRow
  revisionId : ComposedRevisionId
  revision : ComposedRevisionRow
  deriving DecidableEq

def composedHeader (o : Organization) (entry : ComposedCardId × ComposedCardRow) :
    Option ComposedHeader := do
  let revisionId ← entry.2.currentRevisionId
  let revision ← o.composedRevisions.get revisionId
  pure ⟨entry.1, entry.2, revisionId, revision⟩

/-- A rule hides a card by its target. -/
def SuppressionRow.hidesComposedTarget (x : SuppressionRow) (h : ComposedHeader) : Bool :=
  x.active && x.action.hides && decide (x.targetKey = h.revision.targetKey) && x.sourceId.isNone &&
    x.composedCardId.all fun id => decide (id = h.cardId)

/-- A rule bound to the card hides it. -/
def SuppressionRow.hidesComposedCard (x : SuppressionRow) (h : ComposedHeader) : Bool :=
  x.active && x.action.hides && decide (x.composedCardId = some h.cardId) && x.sourceId.isNone

namespace ComposedHeader

variable (o : Organization) (h : ComposedHeader)

/-- The `WHERE` clause of the list. -/
def isListed : Bool :=
  decide (h.card.eligibility = .readable) && decide (h.revision.publicationState = .published) &&
    !(o.suppressions.rows.any fun x => x.2.hidesComposedTarget h) &&
    !taskCompleted o.toRepository h.revision.targetKey

/-- The second look, with rules bound to the card. -/
def isHidden : Bool :=
  (o.suppressions.rows.any fun x => x.2.hidesComposedTarget h || x.2.hidesComposedCard h) ||
    taskCompleted o.toRepository h.revision.targetKey

/-- `title COLLATE NOCASE, composed_card_id`. -/
def Precedes (a b : ComposedHeader) : Prop :=
  a.revision.title.toLower < b.revision.title.toLower ∨
    a.revision.title.toLower = b.revision.title.toLower ∧ a.cardId ≤ b.cardId

instance : DecidableRel Precedes := fun _ _ => inferInstanceAs (Decidable (_ ∨ _))

end ComposedHeader

/-- `card_is_currently_readable`. -/
def cardIsCurrentlyReadable (o : Organization) (id : ComposedCardId) : Bool :=
  match ((o.composedCards.get id).filter fun c => decide (c.eligibility = .readable)).bind
      ComposedCardRow.currentRevisionId with
  | none => false
  | some revisionId =>
    !((o.composedCards.get id).bind fun c => composedHeader o (id, c)).any
        (ComposedHeader.isHidden o) &&
      !(o.groupsOf revisionId).isEmpty && (o.groupsOf revisionId).all (o.isSupported id)

/-! ## Records -/

structure SupportMemberRecord where
  id : SupportMemberId
  sourceId : SourceId
  sourceRevisionId : SourceRevisionId
  sourcePath : VaultPath
  observationId : ObservationId
  evidenceRefId : EvidenceRefId
  role : String
  deriving DecidableEq

structure SupportGroupRecord where
  id : SupportGroupId
  operator : SupportOperator
  ordinal : Nat
  members : List SupportMemberRecord
  deriving DecidableEq

structure ComposedItemRecord where
  id : ComposedItemId
  kind : String
  ordinal : Nat
  content : String
  supportGroups : List SupportGroupRecord
  deriving DecidableEq

/-- A card as the readers return it. -/
structure ComposedCardRecord where
  id : ComposedCardId
  revisionId : ComposedRevisionId
  (title kind scopeRef assertionStatus temporalScope : String)
  revisionNumber : Nat
  canonicalPath : VaultPath
  canonicalFileId : Option FileId
  canonicalFileRevision : Option Revision
  canonicalMarkdownHash : String
  items : List ComposedItemRecord
  deriving DecidableEq

/-- A member joined with its source, for its path. -/
def memberRecord (s : Repository) (m : SupportMemberId × SupportMemberRow) :
    Option SupportMemberRecord :=
  (s.sources.get m.2.sourceId).map fun source =>
    { id := m.1
      sourceId := m.2.sourceId
      sourceRevisionId := m.2.sourceRevisionId
      sourcePath := source.sourcePath
      observationId := m.2.observationId
      evidenceRefId := m.2.evidenceRefId
      role := m.2.role }

/-- A group with its valid members. -/
def groupRecord (o : Organization) (cardId : ComposedCardId) (g : SupportGroupId × SupportGroupRow) :
    SupportGroupRecord where
  id := g.1
  operator := g.2.operator
  ordinal := g.2.ordinal
  members := ((o.validMembersOf cardId g.1).insertionSort fun a b => a.1 ≤ b.1).filterMap
    (memberRecord o.toRepository)

/-- The groups of an item, `ORDER BY ordinal`. -/
def itemGroups (o : Organization) (itemId : ComposedItemId) :
    List (SupportGroupId × SupportGroupRow) :=
  (o.supportGroups.select fun _ g => decide (g.itemId = itemId)).insertionSort
    fun a b => a.2.ordinal ≤ b.2.ordinal

/-- The items of a revision, `ORDER BY item_kind, ordinal`. -/
def composedItemsOf (o : Organization) (revisionId : ComposedRevisionId) :
    List (ComposedItemId × ComposedItemRow) :=
  (o.composedItems.select fun _ i => decide (i.revisionId = revisionId)).insertionSort
    fun a b => a.2.kind < b.2.kind ∨ a.2.kind = b.2.kind ∧ a.2.ordinal ≤ b.2.ordinal

/-- `build_card_record`. -/
def buildComposedRecord (o : Organization) (h : ComposedHeader) : ComposedCardRecord where
  id := h.cardId
  revisionId := h.revisionId
  title := h.revision.title
  kind := h.revision.kind
  scopeRef := h.revision.scopeRef
  assertionStatus := h.revision.assertionStatus
  temporalScope := h.revision.temporalScope
  revisionNumber := h.revision.revisionNumber
  canonicalPath := h.revision.canonicalPath
  canonicalFileId := h.revision.canonicalFileId
  canonicalFileRevision := h.revision.canonicalRevision
  canonicalMarkdownHash := h.revision.canonicalMarkdownHash
  items := (composedItemsOf o h.revisionId).map fun i =>
    { id := i.1
      kind := i.2.kind
      ordinal := i.2.ordinal
      content := i.2.content
      supportGroups := (itemGroups o i.1).map (groupRecord o h.cardId) }

/-! ## The two repository readers -/

/-- The rows of the list before its limit. -/
def listedHeaders (o : Organization) : List ComposedHeader :=
  ((o.composedCards.rows.filterMap (composedHeader o)).filter
    (ComposedHeader.isListed o)).insertionSort ComposedHeader.Precedes

/-- `list_composed_cards` of the repository. -/
def listComposedRows (o : Organization) (limit : Nat) :
    Except StateError (List ComposedCardRecord) := do
  ensure (limit ≠ 0 ∧ limit ≤ 200) (.invalidInput "composed card limit must be between 1 and 200")
  pure ((((listedHeaders o).take limit).filter fun h => cardIsCurrentlyReadable o h.cardId).map
    (buildComposedRecord o))

/-- `get_composed_card` of the repository. -/
def getComposedRow (o : Organization) (id : ComposedCardId) : Option ComposedCardRecord :=
  let header := ((o.composedCards.get id).bind fun c => composedHeader o (id, c)).filter fun h =>
    decide (h.card.eligibility = .readable ∧ h.revision.publicationState = .published) &&
      !h.isHidden o
  header.bind fun h =>
    if cardIsCurrentlyReadable o id then some (buildComposedRecord o h) else none

/-! ## The service -/

/-- What `read_managed` returns of a file. -/
structure ManagedFile where
  id : FileId
  currentRevision : Revision
  contentHash : Option String
  bytes : Bytes
  deriving DecidableEq

/-- The file is the revision's; missing is none. -/
def canonicalFileMatches (env : Env) (file : Option ManagedFile) (fileId : Option FileId)
    (revision : Option Revision) (hash : String) : Bool :=
  file.any fun f => decide (fileId = some f.id ∧ revision = some f.currentRevision ∧
    f.contentHash = some hash ∧ env.hashBytes f.bytes = hash)

/-- `read_managed`, which finds a file or none, or fails. -/
abbrev ManagedReader (φ : Type) := VaultPath → Except φ (Option ManagedFile)

def ComposedCardRecord.fileMatches {φ : Type} (env : Env) (reader : ManagedReader φ)
    (card : ComposedCardRecord) : Except φ Bool :=
  (reader card.canonicalPath).map fun file => canonicalFileMatches env file card.canonicalFileId
    card.canonicalFileRevision card.canonicalMarkdownHash

/-- `list_composed_cards`; an unreadable file ends it. -/
def listComposedCards {φ : Type} (env : Env) (o : Organization) (reader : ManagedReader φ)
    (limit : Nat) : Except (StateError ⊕ φ) (List ComposedCardRecord) := do
  let cards ← (listComposedRows o limit).mapError .inl
  (Fallible.filterE (ComposedCardRecord.fileMatches env reader) cards).mapError .inr

/-- `get_composed_card` of the service. -/
def getComposedCard {φ : Type} (env : Env) (o : Organization) (reader : ManagedReader φ)
    (id : ComposedCardId) : Except (StateError ⊕ φ) (Option ComposedCardRecord) :=
  match getComposedRow o id with
  | none => pure none
  | some card => do
    let listed ← listComposedCards env o reader 200
    pure (if listed.any fun current =>
        decide (current.id = card.id ∧ current.revisionId = card.revisionId) then some card
      else none)

/-! ## What a reader is told

A card is readable when it is published and eligible, no rule and no completed task hides it,
every support group holds, and its file is the one that was published. -/

/-- A support group holds. -/
def Organization.Holds (o : Organization) (cardId : ComposedCardId)
    (g : SupportGroupId × SupportGroupRow) : Prop :=
  match g.2.operator with
  | .and => o.membersOf g.1 ≠ [] ∧ ∀ m ∈ o.membersOf g.1, memberIsValid o.toRepository cardId m.2
  | .or => ∃ m ∈ o.membersOf g.1, memberIsValid o.toRepository cardId m.2

instance (o : Organization) (cardId : ComposedCardId) (g : SupportGroupId × SupportGroupRow) :
    Decidable (o.Holds cardId g) :=
  match hop : g.2.operator with
  | .and => decidable_of_iff (o.membersOf g.1 ≠ [] ∧
      ∀ m ∈ o.membersOf g.1, memberIsValid o.toRepository cardId m.2) (by
        unfold Organization.Holds
        rw [hop])
  | .or => decidable_of_iff
      (∃ m ∈ o.membersOf g.1, memberIsValid o.toRepository cardId m.2) (by
        unfold Organization.Holds
        rw [hop])

/-- What a card has to be to be served. -/
structure ComposedHeader.Readable (env : Env) (o : Organization)
    (read : VaultPath → Option ManagedFile) (h : ComposedHeader) : Prop where
  eligible : h.card.eligibility = .readable
  published : h.revision.publicationState = .published
  shown : h.isHidden o = false
  grounded : o.groupsOf h.revisionId ≠ []
  supported : ∀ g ∈ o.groupsOf h.revisionId, o.Holds h.cardId g
  file : canonicalFileMatches env (read h.revision.canonicalPath) h.revision.canonicalFileId
    h.revision.canonicalRevision h.revision.canonicalMarkdownHash

instance (env : Env) (o : Organization) (read : VaultPath → Option ManagedFile)
    (h : ComposedHeader) : Decidable (h.Readable env o read) :=
  decidable_of_iff
    (h.card.eligibility = .readable ∧ h.revision.publicationState = .published ∧
      h.isHidden o = false ∧ o.groupsOf h.revisionId ≠ [] ∧
      (∀ g ∈ o.groupsOf h.revisionId, o.Holds h.cardId g) ∧
      canonicalFileMatches env (read h.revision.canonicalPath) h.revision.canonicalFileId
        h.revision.canonicalRevision h.revision.canonicalMarkdownHash)
    ⟨fun ⟨heligible, hpublished, hshown, hgrounded, hsupported, hfile⟩ =>
      ⟨heligible, hpublished, hshown, hgrounded, hsupported, hfile⟩,
    fun ⟨heligible, hpublished, hshown, hgrounded, hsupported, hfile⟩ =>
      ⟨heligible, hpublished, hshown, hgrounded, hsupported, hfile⟩⟩

theorem Organization.isSupported_iff (o : Organization) (cardId : ComposedCardId)
    (g : SupportGroupId × SupportGroupRow) : o.isSupported cardId g ↔ o.Holds cardId g := by
  unfold isSupported Holds validMembersOf
  cases g.2.operator with
  | and =>
    rw [Bool.and_eq_true, decide_eq_true_eq, decide_eq_true_eq, length_filter_eq_length_iff,
      length_pos_iff]
  | or =>
    rw [decide_eq_true_eq, length_filter_pos_iff]

/-- The headers of all composed cards. -/
def composedHeaders (o : Organization) : List ComposedHeader :=
  o.composedCards.rows.filterMap (composedHeader o)

section Reads

variable (env : Env) (o : Organization) (read : VaultPath → Option ManagedFile)

/-- What the readers check of a header, in order. -/
def ComposedHeader.isRead (h : ComposedHeader) : Bool :=
  h.isListed o && cardIsCurrentlyReadable o h.cardId &&
    canonicalFileMatches env (read h.revision.canonicalPath) h.revision.canonicalFileId
      h.revision.canonicalRevision h.revision.canonicalMarkdownHash

end Reads

/-- A reader that never fails. -/
def served (read : VaultPath → Option ManagedFile) : ManagedReader Empty := fun p => .ok (read p)

section Readers

variable {φ : Type} (reader : ManagedReader φ)

/-- The files that a reader finds. -/
def found (p : VaultPath) : Option ManagedFile :=
  match reader p with
  | .ok file => file
  | .error _ => none

/-- No file that the list comes to fails. -/
def Served (o : Organization) (limit : Nat) : Prop :=
  ∀ h ∈ (listedHeaders o).take limit, cardIsCurrentlyReadable o h.cardId →
    (reader h.revision.canonicalPath).isOk

end Readers

variable {env : Env} {o : Organization} {read : VaultPath → Option ManagedFile} {h h' : ComposedHeader}

theorem composedHeader_eq_some_iff {entry : ComposedCardId × ComposedCardRow} :
    composedHeader o entry = some h ↔ entry = (h.cardId, h.card) ∧
      h.card.currentRevisionId = some h.revisionId ∧
      o.composedRevisions.get h.revisionId = some h.revision := by
  unfold composedHeader
  constructor
  · intro heq
    obtain ⟨revisionId, hid, heq⟩ := bind_eq_some_iff.mp heq
    obtain ⟨revision, hrevision, heq⟩ := bind_eq_some_iff.mp heq
    obtain rfl := some.inj heq
    exact ⟨rfl, hid, hrevision⟩
  · rintro ⟨rfl, hid, hrevision⟩
    simp only [hid, hrevision, Option.bind_eq_bind, bind_some]
    rfl

theorem mem_composedHeaders : h ∈ composedHeaders o ↔
    o.composedCards.get h.cardId = some h.card ∧ h.card.currentRevisionId = some h.revisionId ∧
      o.composedRevisions.get h.revisionId = some h.revision := by
  unfold composedHeaders
  rw [mem_filterMap, Keyed.get_eq_some_iff]
  constructor
  · rintro ⟨entry, hmem, heq⟩
    obtain ⟨rfl, hrest⟩ := composedHeader_eq_some_iff.mp heq
    exact ⟨hmem, hrest⟩
  · rintro ⟨hmem, hrest⟩
    exact ⟨_, hmem, composedHeader_eq_some_iff.mpr ⟨rfl, hrest⟩⟩

/-- A header is found again by its card. -/
theorem composedHeader_of_mem (hmem : h ∈ composedHeaders o) :
    ((o.composedCards.get h.cardId).bind fun c => composedHeader o (h.cardId, c)) = some h := by
  obtain ⟨hcard, hrest⟩ := mem_composedHeaders.mp hmem
  rw [hcard]
  exact composedHeader_eq_some_iff.mpr ⟨rfl, hrest⟩

theorem isListed_of_shown (heligible : h.card.eligibility = .readable)
    (hpublished : h.revision.publicationState = .published) (hshown : h.isHidden o = false) :
    h.isListed o := by
  unfold ComposedHeader.isHidden at hshown
  unfold ComposedHeader.isListed
  rw [Bool.or_eq_false_iff, any_eq_false] at hshown
  obtain ⟨hrules, htask⟩ := hshown
  rw [htask, heligible, hpublished]
  simp only [decide_true, Bool.true_and, Bool.not_false, Bool.and_true, Bool.not_eq_true',
    any_eq_false]
  intro x hx hhides
  exact hrules x hx (Bool.or_eq_true _ _ |>.mpr (.inl hhides))

theorem cardIsCurrentlyReadable_iff (hmem : h ∈ composedHeaders o) :
    cardIsCurrentlyReadable o h.cardId ↔ h.card.eligibility = .readable ∧
      h.isHidden o = false ∧ o.groupsOf h.revisionId ≠ [] ∧
      ∀ g ∈ o.groupsOf h.revisionId, o.Holds h.cardId g := by
  have hfound := composedHeader_of_mem hmem
  obtain ⟨hcard, hcurrent, -⟩ := mem_composedHeaders.mp hmem
  unfold cardIsCurrentlyReadable
  rw [hfound, hcard]
  by_cases heligible : h.card.eligibility = .readable
  · have hfilter : ((some h.card).filter fun c => decide (c.eligibility = .readable)) =
        some h.card := by
      simp [heligible]
    rw [hfilter, bind_some, hcurrent]
    simp only [Option.any_some, Bool.and_eq_true, Bool.not_eq_true', isEmpty_eq_false_iff,
      all_eq_true, Organization.isSupported_iff, and_assoc, heligible, true_and]
  · have hfilter : ((some h.card).filter fun c => decide (c.eligibility = .readable)) = none := by
      simp [heligible]
    rw [hfilter]
    simp [heligible]

/-- The source's checks are those of a readable card. -/
theorem isRead_iff (hmem : h ∈ composedHeaders o) :
    h.isRead env o read ↔ h.Readable env o read := by
  unfold ComposedHeader.isRead
  rw [Bool.and_eq_true, Bool.and_eq_true, cardIsCurrentlyReadable_iff hmem]
  constructor
  · rintro ⟨⟨hlisted, heligible, hshown, hgroups, hsupported⟩, hfile⟩
    unfold ComposedHeader.isListed at hlisted
    simp only [Bool.and_eq_true, decide_eq_true_eq] at hlisted
    exact ⟨heligible, hlisted.1.1.2, hshown, hgroups, hsupported, hfile⟩
  · rintro ⟨heligible, hpublished, hshown, hgroups, hsupported, hfile⟩
    exact ⟨⟨isListed_of_shown heligible hpublished hshown, heligible, hshown, hgroups, hsupported⟩, hfile⟩

/-! ## Lists -/

theorem eq_of_cardId (hmem : h ∈ composedHeaders o) (hmem' : h' ∈ composedHeaders o)
    (hid : h.cardId = h'.cardId) : h = h' := by
  have hfound := composedHeader_of_mem hmem
  rw [hid, composedHeader_of_mem hmem'] at hfound
  exact (some.inj hfound).symm

theorem mem_listedHeaders : h ∈ listedHeaders o ↔ h ∈ composedHeaders o ∧ h.isListed o := by
  unfold listedHeaders
  rw [mem_insertionSort, mem_filter]
  rfl

theorem listedHeaders_nodup : (listedHeaders o).Nodup := by
  have hnodup : ((composedHeaders o).map ComposedHeader.cardId).Nodup := by
    refine o.composedCards.nodup_join ?_
    intro entry header heq
    rw [(composedHeader_eq_some_iff.mp heq).1]
  unfold listedHeaders
  rw [(perm_insertionSort _ _).nodup_iff]
  exact (List.Nodup.of_map _ hnodup).filter _

/-- The cards that are readable, by title and identifier. -/
def readableCards (env : Env) (o : Organization) (read : VaultPath → Option ManagedFile) :
    List ComposedHeader :=
  ((composedHeaders o).filter fun h => decide (h.Readable env o read)).insertionSort
    ComposedHeader.Precedes

instance : Std.Total ComposedHeader.Precedes where
  total a b := by
    unfold ComposedHeader.Precedes
    rcases lt_trichotomy a.revision.title.toLower b.revision.title.toLower with hlt | heq | hgt
    · exact .inl (.inl hlt)
    · rcases le_total a.cardId b.cardId with hle | hle
      · exact .inl (.inr ⟨heq, hle⟩)
      · exact .inr (.inr ⟨heq.symm, hle⟩)
    · exact .inr (.inl hgt)

instance : IsTrans ComposedHeader ComposedHeader.Precedes where
  trans a b c := by
    rintro (hab | ⟨hab, hab'⟩) (hbc | ⟨hbc, hbc'⟩)
    · exact .inl (hab.trans hbc)
    · exact .inl (hbc ▸ hab)
    · exact .inl (hab ▸ hbc)
    · exact .inr ⟨hab.trans hbc, hab'.trans hbc'⟩

theorem cardId_of_precedes (hab : h.Precedes h') (hba : h'.Precedes h) : h.cardId = h'.cardId := by
  rcases hab with hlt | ⟨heq, hle⟩
  · rcases hba with hlt' | ⟨heq', -⟩
    · exact absurd hlt hlt'.asymm
    · exact absurd heq' hlt.ne'
  · rcases hba with hlt' | ⟨-, hle'⟩
    · exact absurd heq hlt'.ne'
    · exact le_antisymm hle hle'

/-- The readable cards are the listed ones that pass. -/
theorem filter_listedHeaders :
    (listedHeaders o).filter (ComposedHeader.isRead env o read) = readableCards env o read := by
  have hunique : ∀ a b, a ∈ (listedHeaders o).filter (ComposedHeader.isRead env o read) →
      b ∈ readableCards env o read → a.Precedes b → b.Precedes a → a = b := by
    intro a b ha hb hab hba
    have ha' := (mem_listedHeaders.mp (mem_of_mem_filter ha)).1
    have hb' := mem_of_mem_filter ((mem_insertionSort _).mp hb)
    exact eq_of_cardId ha' hb' (cardId_of_precedes hab hba)
  have hsorted : ((listedHeaders o).filter (ComposedHeader.isRead env o read)).Pairwise
      ComposedHeader.Precedes := (pairwise_insertionSort _ _).filter _
  have hsorted' : (readableCards env o read).Pairwise ComposedHeader.Precedes :=
    pairwise_insertionSort _ _
  refine List.Perm.eq_of_pairwise hunique hsorted hsorted' ?_
  refine ((perm_insertionSort _ _).filter _).trans ?_
  refine List.Perm.trans ?_ (perm_insertionSort _ _).symm
  rw [filter_filter]
  refine List.Perm.of_eq (filter_congr ?_)
  intro header hheader
  rw [Bool.eq_iff_iff, Bool.and_eq_true, isRead_iff hheader, decide_eq_true_eq]
  constructor
  · exact fun h => h.1
  · intro h
    exact ⟨h, isListed_of_shown h.eligible h.published h.shown⟩

section Readers

variable {φ : Type} {reader : ManagedReader φ}

/-- The list is what passes, if no read fails. -/
theorem listComposedCards_ok_iff {limit : Nat} {cards : List ComposedCardRecord} (hpos : 1 ≤ limit)
    (hle : limit ≤ 200) : listComposedCards env o reader limit = .ok cards ↔
      Served reader o limit ∧ (((listedHeaders o).take limit).filter
        (ComposedHeader.isRead env o (found reader))).map (buildComposedRecord o) = cards := by
  have hlimit : limit ≠ 0 ∧ limit ≤ 200 := ⟨Nat.ne_of_gt hpos, hle⟩
  unfold listComposedCards listComposedRows ensure
  rw [if_pos hlimit]
  show (Fallible.filterE _ (List.map _ _)).mapError _ = _ ↔ _
  rw [Fallible.mapError_ok_iff, Fallible.filterE_ok_iff, forall_mem_map, filter_map, filter_filter]
  have hcases : ∀ header, let m := (buildComposedRecord o header).fileMatches env reader
      m.isOk = (reader header.revision.canonicalPath).isOk ∧ decide (m.toOption = some true) =
        canonicalFileMatches env (found reader header.revision.canonicalPath)
          header.revision.canonicalFileId header.revision.canonicalRevision
          header.revision.canonicalMarkdownHash := by
    intro header
    unfold ComposedCardRecord.fileMatches found buildComposedRecord
    cases reader header.revision.canonicalPath with
    | ok file => simp [Except.map, Except.toOption, Except.isOk, Except.toBool]
    | error e => exact ⟨rfl, rfl⟩
  refine and_congr ?_ (Iff.of_eq (congrArg (List.map _ · = cards) (filter_congr ?_)))
  · simp only [mem_filter, and_imp, hcases, Served]
  · intro header hheader
    obtain ⟨-, hlisted⟩ := mem_listedHeaders.mp (mem_of_mem_take hheader)
    unfold ComposedHeader.isRead
    rw [hlisted, Bool.true_and, Bool.and_comm, Function.comp_apply, (hcases header).2]

variable {id : ComposedCardId} {card : ComposedCardRecord}

theorem getComposedRow_eq_some_iff :
    getComposedRow o id = some card ↔ ∃ header ∈ composedHeaders o, header.cardId = id ∧
      header.card.eligibility = .readable ∧ header.revision.publicationState = .published ∧
      header.isHidden o = false ∧ cardIsCurrentlyReadable o id ∧
      card = buildComposedRecord o header := by
  constructor
  · intro hget
    obtain ⟨header, hfiltered, hcard⟩ := bind_eq_some_iff.mp hget
    obtain ⟨hfound, hshown⟩ := Option.filter_eq_some_iff.mp hfiltered
    obtain ⟨row, hrow, hjoin⟩ := bind_eq_some_iff.mp hfound
    obtain ⟨hentry, hrest⟩ := composedHeader_eq_some_iff.mp hjoin
    obtain ⟨rfl, rfl⟩ := Prod.mk.injEq .. ▸ hentry
    simp only [Bool.and_eq_true, decide_eq_true_eq, Bool.not_eq_true'] at hshown
    obtain ⟨⟨heligible, hpublished⟩, hhidden⟩ := hshown
    split at hcard
    next hreadable =>
      exact ⟨header, mem_composedHeaders.mpr ⟨hrow, hrest⟩, rfl, heligible, hpublished, hhidden, hreadable,
        (some.inj hcard).symm⟩
    next => cases hcard
  · rintro ⟨header, hmem, rfl, heligible, hpublished, hhidden, hreadable, rfl⟩
    refine bind_eq_some_iff.mpr ⟨header, ?_, if_pos hreadable⟩
    refine Option.filter_eq_some_iff.mpr ⟨composedHeader_of_mem hmem, ?_⟩
    simp [heligible, hpublished, hhidden]

/-- One card is found among the first 200. -/
theorem getComposedCard_eq_some_iff (hserved : Served reader o 200) :
    getComposedCard env o reader id = .ok (some card) ↔
      ∃ header ∈ ((listedHeaders o).take 200).filter (ComposedHeader.isRead env o (found reader)),
        header.cardId = id ∧ card = buildComposedRecord o header := by
  have hlist : listComposedCards env o reader 200 = _ :=
    (listComposedCards_ok_iff (by decide) le_rfl).mpr ⟨hserved, rfl⟩
  unfold getComposedCard
  constructor
  · intro hget
    cases hrow : getComposedRow o id with
    | none =>
      rw [hrow] at hget
      cases hget
    | some found =>
      rw [hrow, hlist] at hget
      replace hget := Except.ok.inj hget
      obtain ⟨header, hmem, hid, -, -, -, -, hfound⟩ := getComposedRow_eq_some_iff.mp hrow
      split at hget
      next hany =>
        obtain rfl := some.inj hget
        obtain ⟨listed, hlisted, hsame⟩ := any_eq_true.mp hany
        obtain ⟨other, hother, rfl⟩ := mem_map.mp hlisted
        -- the listed card has the identifier, and so is the one found
        have hmem' := (mem_listedHeaders.mp (mem_of_mem_take (mem_of_mem_filter hother))).1
        rw [hfound] at hsame
        obtain rfl := eq_of_cardId hmem' hmem (of_decide_eq_true hsame).1
        exact ⟨other, hother, hid, hfound⟩
      next => cases hget
  · rintro ⟨header, hheader, rfl, rfl⟩
    obtain ⟨htake, hread⟩ := mem_filter.mp hheader
    have hmem := (mem_listedHeaders.mp (mem_of_mem_take htake)).1
    have hreadable := (isRead_iff hmem).mp hread
    have hrow : getComposedRow o header.cardId = some (buildComposedRecord o header) := by
      refine getComposedRow_eq_some_iff.mpr ⟨header, hmem, rfl, hreadable.eligible,
        hreadable.published, hreadable.shown, ?_, rfl⟩
      exact (cardIsCurrentlyReadable_iff hmem).mpr
        ⟨hreadable.eligible, hreadable.shown, hreadable.grounded, hreadable.supported⟩
    rw [hrow, hlist]
    show Except.ok _ = _
    rw [if_pos]
    refine any_eq_true.mpr ⟨buildComposedRecord o header, mem_map_of_mem hheader, ?_⟩
    exact decide_eq_true ⟨rfl, rfl⟩

/-- **WHEN READING COMPOSED CARDS IS COMPLETE**: exactly when at most two hundred cards are
    readable, they stand in front of those that later checks refuse, and no read fails. -/
theorem composed_reads_complete_iff (env : Env) (o : Organization) (reader : ManagedReader φ) :
    ((∀ id card, getComposedCard env o reader id = .ok (some card) ↔
        ∃ header ∈ composedHeaders o, header.cardId = id ∧ header.Readable env o (found reader) ∧
          card = buildComposedRecord o header) ∧
      ∀ limit, 1 ≤ limit → limit ≤ 200 → listComposedCards env o reader limit =
        .ok (((readableCards env o (found reader)).take limit).map (buildComposedRecord o))) ↔
    ((listedHeaders o).Pairwise fun a b =>
        b.Readable env o (found reader) → a.Readable env o (found reader)) ∧
      (readableCards env o (found reader)).length ≤ 200 ∧ Served reader o 200 := by
  by_cases hserved : Served reader o 200
  swap
  · -- the list of two hundred fails
    constructor
    · intro h
      exact absurd ((listComposedCards_ok_iff (by decide) le_rfl).mp (h.2 200 (by decide) le_rfl)).1
        hserved
    · exact fun h => absurd h.2.2 hserved
  have hlist : ∀ limit, 1 ≤ limit → limit ≤ 200 → listComposedCards env o reader limit = _ :=
    fun limit hpos hle => (listComposedCards_ok_iff hpos hle).mpr
      ⟨fun header hmem => hserved header ((take_prefix_take_left hle).subset hmem), rfl⟩
  simp only [hserved, and_true]
  have hread : ∀ header ∈ listedHeaders o,
      (header.isRead env o (found reader) ↔ header.Readable env o (found reader)) :=
    fun header hmem => isRead_iff (mem_listedHeaders.mp hmem).1
  have hfront : ((listedHeaders o).Pairwise fun a b =>
        b.Readable env o (found reader) → a.Readable env o (found reader)) ↔
      Foremost (ComposedHeader.isRead env o (found reader)) (listedHeaders o) := by
    refine List.Pairwise.iff_of_mem ?_
    intro a b ha hb
    rw [hread a ha, hread b hb]
  rw [hfront, ← filter_listedHeaders, ← limit_before_filter_iff listedHeaders_nodup]
  refine and_comm.trans (and_congr ?_ ?_)
  · -- a record tells which header it is of
    refine forall_congr' fun limit => forall_congr' fun hpos => forall_congr' fun hle => ?_
    rw [hlist limit hpos hle, Except.ok.injEq]
    constructor
    · refine eq_of_map_eq ?_
      intro a ha b hb hab
      have ha' := mem_of_mem_take (mem_of_mem_filter ha)
      have hb' := mem_of_mem_filter (mem_of_mem_take hb)
      exact eq_of_cardId (mem_listedHeaders.mp ha').1 (mem_listedHeaders.mp hb').1
        (congrArg ComposedCardRecord.id hab)
    · exact congrArg (List.map (buildComposedRecord o))
  · constructor
    · intro hget header hheader hpass
      have hmem := (mem_listedHeaders.mp hheader).1
      have hsome := (hget header.cardId _).mpr ⟨header, hmem, rfl, (hread header hheader).mp hpass, rfl⟩
      obtain ⟨other, hother, hid, -⟩ := (getComposedCard_eq_some_iff hserved).mp hsome
      have hin := mem_of_mem_filter hother
      rw [← eq_of_cardId (mem_listedHeaders.mp (mem_of_mem_take hin)).1 hmem hid]
      exact hin
    · intro htake id card
      rw [getComposedCard_eq_some_iff hserved]
      constructor
      · rintro ⟨header, hheader, hid, hcard⟩
        obtain ⟨hin, hpass⟩ := mem_filter.mp hheader
        have hlisted := mem_of_mem_take hin
        exact ⟨header, (mem_listedHeaders.mp hlisted).1, hid, (hread header hlisted).mp hpass, hcard⟩
      · rintro ⟨header, hmem, hid, hreadable, hcard⟩
        have hlisted : header ∈ listedHeaders o := mem_listedHeaders.mpr
          ⟨hmem, isListed_of_shown hreadable.eligible hreadable.published hreadable.shown⟩
        have hpass := (hread header hlisted).mpr hreadable
        exact ⟨header, mem_filter.mpr ⟨htake header hlisted hpass, hpass⟩, hid, hcard⟩

end Readers

/-- The list of a reader that never fails. -/
theorem listComposedCards_eq {limit : Nat} (hpos : 1 ≤ limit) (hle : limit ≤ 200) :
    listComposedCards env o (served read) limit =
      .ok ((((listedHeaders o).take limit).filter (ComposedHeader.isRead env o read)).map
        (buildComposedRecord o)) :=
  (listComposedCards_ok_iff hpos hle).mpr ⟨fun _ _ _ => rfl, rfl⟩

/-- A published revision, with the card's file. -/
def sharedRevision (title : String) (fileId : FileId) : ComposedRevisionRow where
  title
  kind := "state"
  scopeRef := "project"
  assertionStatus := "source_asserted"
  temporalScope := "\x7b\x7d"
  revisionNumber := 1
  canonicalPath := [title]
  canonicalFileId := some fileId
  canonicalRevision := some 1
  canonicalMarkdownHash := title
  publicationState := .published
  targetKey := title

/-- Two composed cards on the published note. -/
def cardsOfNote : Organization where
  toRepository := publishedNote
  composedCards := ⟨[(1, ⟨some 1, .readable⟩), (2, ⟨some 2, .readable⟩)], by decide⟩
  composedRevisions := ⟨[(1, sharedRevision "a" 8), (2, sharedRevision "b" 9)], by decide⟩
  composedItems := ⟨[(1, ⟨1, "core_assertion", 0, "content"⟩), (2, ⟨2, "core_assertion", 0, "content"⟩)],
    by decide⟩
  supportGroups := ⟨[(1, ⟨1, .and, 0⟩), (2, ⟨2, .or, 0⟩)], by decide⟩
  supportMembers := ⟨[(1, ⟨1, 1, 1, 1, 1, "body"⟩), (2, ⟨2, 1, 1, 1, 1, "body"⟩)], by decide⟩
  relationCandidates := .empty
  relationDecisions := .empty

/-- The files of both cards, or of the second. -/
def cardFiles (first : Bool) : VaultPath → Option ManagedFile
  | ["a"] => if first then some ⟨8, 1, some "a", [97]⟩ else none
  | ["b"] => some ⟨9, 1, some "b", [98]⟩
  | _ => none

/-- With both files in place, the first card comes first. -/
theorem composed_reads_complete_two :
    listComposedCards plainEnv cardsOfNote (served (cardFiles true)) 1 =
      .ok (((readableCards plainEnv cardsOfNote (cardFiles true)).take 1).map
        (buildComposedRecord cardsOfNote)) :=
  ((composed_reads_complete_iff plainEnv cardsOfNote (served (cardFiles true))).mpr
    ⟨by decide +kernel, by decide +kernel, fun _ _ _ => rfl⟩).2 1 (by decide) (by decide)

/-- Without the first file the list of one is empty. -/
theorem composed_list_loses_card :
    listComposedCards plainEnv cardsOfNote (served (cardFiles false)) 1 = .ok [] ∧
    (readableCards plainEnv cardsOfNote (cardFiles false)).map ComposedHeader.cardId = [2] := by
  decide +kernel

end SemanticMemory
