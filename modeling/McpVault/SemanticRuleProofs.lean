import McpVault.ComposedCardProofs

/-! # Suppressing and revoking

Readers look for suppressions each time.  One that is bound to nothing also writes `invalidated`
into the eligibility of every card with its target, and its revocation writes the eligibility
anew.  That column has other writers, such as an extraction that omits a card, and does not say
who wrote it. -/

namespace SemanticMemory

open KeyedTable List Option
open Fallible (bind_ok_iff)
open VaultDomain (FileId VaultPath Revision)
open CardRow (place)
open SuppressionRow (hidesCard hidesMember)
open Keyed (get_modify modify_modify update_eq)

/-! ## The rules repository -/

/-- A row of `semantic_composed_card_dependencies`. -/
structure ComposedDependencyRow where
  revisionId : ComposedRevisionId
  sourceId : SourceId
  sourceRevisionId : SourceRevisionId
  deriving DecidableEq

/-- A row of `semantic_rule_idempotency`. -/
structure RuleReceipt where
  requestHash : String
  resultId : RuleId
  deriving DecidableEq

/-- The tables, with those of the rules. -/
structure Rulebook extends Organization where
  composedDependencies : Keyed Nat ComposedDependencyRow
  receipts : Keyed String RuleReceipt

def SuppressionAction.text : SuppressionAction → String
  | .suppressRead => "suppress_read"
  | .suppressRegeneration => "suppress_regeneration"
  | .forgetCurrent => "forget_current"

/-- A request to hide a target. -/
structure SuppressionInput where
  action : SuppressionAction
  (targetKind scopeRef : String)
  fingerprintVersion : Nat
  (fingerprint policy : String)
  sourceId : Option SourceId
  sourceRevisionId : Option SourceRevisionId
  observationId : Option ObservationId
  cardId : Option MemoryCardId
  composedCardId : Option ComposedCardId
  expectedRulesRevision : Option Int
  (authorizedActor idempotencyKey : String)
  newId : RuleId

/-- `hash_json`: every part ends with a zero byte. -/
def hashJson (env : Env) (parts : List String) : String :=
  env.sha256Hex (String.join (parts.map fun part => part ++ "\x00"))

namespace SuppressionInput

variable (i : SuppressionInput)

def requestHash (env : Env) : String :=
  hashJson env ["suppression", i.action.text, i.targetKind, i.scopeRef,
    toString i.fingerprintVersion, i.fingerprint, i.policy, i.sourceId.elim "" toString,
    i.sourceRevisionId.elim "" toString, i.observationId.elim "" toString,
    i.cardId.elim "" toString, i.composedCardId.elim "" toString]

def targetKey (env : Env) : String :=
  deriveTargetKey env i.targetKind i.scopeRef i.fingerprintVersion i.fingerprint

/-- Bound to nothing: about its target everywhere. -/
def isUnbound : Bool :=
  i.sourceId.isNone && i.sourceRevisionId.isNone && i.observationId.isNone && i.cardId.isNone &&
    i.composedCardId.isNone

/-- The row that is stored, at a revision of the rules. -/
def row (targetKey : String) (revision : Nat) : SuppressionRow where
  targetKey
  scopeRef := i.scopeRef
  targetKind := i.targetKind
  sourceId := i.sourceId
  sourceRevisionId := i.sourceRevisionId
  observationId := i.observationId
  cardId := i.cardId
  composedCardId := i.composedCardId
  authorizedBy := i.authorizedActor
  revision
  active := true
  rulesRevision := revision
  idempotencyKey := i.idempotencyKey
  action := i.action
  policy := i.policy

end SuppressionInput

def RuleRow.isUnbound (x : RuleRow) : Bool :=
  x.sourceId.isNone && x.sourceRevisionId.isNone && x.observationId.isNone && x.cardId.isNone &&
    x.composedCardId.isNone

section

variable (o : Rulebook) (targetKey : String)

/-- A card has source, target, scope and observation. -/
def bindsCard (i : SuppressionInput) (cardId : MemoryCardId) : Bool :=
  (o.cards.get cardId).any fun card =>
    let revision := card.currentRevisionId.bind o.cardRevisions.get
    decide (i.targetKind = "memory_card") &&
      i.sourceId.all (fun id => decide (id = card.sourceId)) &&
      i.sourceRevisionId.all (fun id => decide (some id = revision.map CardRevisionRow.sourceRevisionId)) &&
      (revision.any fun r => decide (r.targetKey = targetKey ∧ r.scopeRef = i.scopeRef)) &&
      i.observationId.all fun observationId =>
        o.items.rows.any fun item => revision.any fun r =>
          decide (some item.2.cardRevisionId = card.currentRevisionId ∧ item.2.cardId = cardId ∧
            r.publicationState = .published ∧ item.2.observationId = observationId ∧
            some item.2.sourceId = i.sourceId ∧ some r.sourceRevisionId = i.sourceRevisionId)

/-- The same for a composed card, by its support. -/
def bindsComposedCard (i : SuppressionInput) (cardId : ComposedCardId) : Bool :=
  (o.composedCards.get cardId).any fun card =>
    card.currentRevisionId.any fun revisionId => (o.composedRevisions.get revisionId).any fun r =>
      decide (i.targetKind = "composed_card") &&
        i.sourceId.all (fun sourceId => o.composedDependencies.rows.any fun d =>
          decide (d.2.revisionId = revisionId ∧ d.2.sourceId = sourceId) &&
            i.sourceRevisionId.all fun id => decide (d.2.sourceRevisionId = id)) &&
        decide (r.targetKey = targetKey ∧ r.scopeRef = i.scopeRef) &&
        i.observationId.all fun observationId =>
          (o.groupsOf revisionId).any fun g => (o.membersOf g.1).any fun m =>
            decide (m.2.observationId = observationId ∧ some m.2.sourceId = i.sourceId ∧
              some m.2.sourceRevisionId = i.sourceRevisionId)

/-- `validate_rule_bindings`. -/
def validateRuleBindings (i : SuppressionInput) : Except StateError Unit := do
  ensure (i.sourceRevisionId.isSome → i.sourceId.isSome)
    (.invalidInput "source revision binding requires source binding")
  ensure (i.sourceId.all (fun id => (o.sources.get id).isSome)) .conflict
  ensure ((i.sourceRevisionId.all fun id => (o.sourceRevisions.get id).any fun r =>
    decide (some r.sourceId = i.sourceId))) .conflict
  ensure ((i.observationId.all fun id => (o.observations.get id).any fun x =>
    decide (i.sourceId = some x.sourceId ∧ i.sourceRevisionId = some x.sourceRevisionId)))
    .conflict
  ensure (i.cardId.all (bindsCard o targetKey i)) .conflict
  ensure (i.composedCardId.all (bindsComposedCard o targetKey i)) .conflict

/-- An active suppression hides a target. -/
def isSuppressed : Bool :=
  o.suppressions.rows.any fun x =>
    x.2.active && x.2.action.hides && decide (x.2.targetKey = targetKey)

/-- The current revision of a card has a target. -/
def CardRow.hasTarget (card : CardRow) : Bool :=
  card.currentRevisionId.any fun revisionId =>
    (o.cardRevisions.get revisionId).any fun r => decide (r.targetKey = targetKey)

def ComposedCardRow.hasTarget (card : ComposedCardRow) : Bool :=
  card.currentRevisionId.any fun revisionId =>
    (o.composedRevisions.get revisionId).any fun r => decide (r.targetKey = targetKey)

end

/-- A source that is eligible and waits for no rebuild. -/
def sourceServes (o : Rulebook) (sourceId : SourceId) : Bool :=
  (o.sources.get sourceId).any fun source => source.eligible && !source.pendingRebuild

/-- The cards that a revocation makes readable. -/
def CardRow.isRestored (o : Rulebook) (targetKey : String) (card : CardRow) : Bool :=
  card.currentRevisionId.any fun revisionId => (o.cardRevisions.get revisionId).any fun r =>
    decide (r.targetKey = targetKey ∧ r.publicationState = .published) && sourceServes o r.sourceId

def ComposedCardRow.isRestored (o : Rulebook) (targetKey : String) (card : ComposedCardRow) : Bool :=
  card.currentRevisionId.any fun revisionId => (o.composedRevisions.get revisionId).any fun r =>
    decide (r.targetKey = targetKey ∧ r.publicationState = .published)

/-- `set_target_eligibility_tx`. -/
def setTargetEligibility (o : Rulebook) (targetKey : String) (restore : Bool) : Rulebook :=
  if !restore || isSuppressed o targetKey then
    { o with
      cards := o.cards.update (fun _ c => c.hasTarget o targetKey)
        fun c => { c with eligibility := .invalidated }
      composedCards := o.composedCards.update (fun _ c => c.hasTarget o targetKey)
        fun c => { c with eligibility := .invalidated } }
  else
    { o with
      cards := o.cards.update (fun _ c => c.isRestored o targetKey)
        fun c => { c with eligibility := .readable }
      composedCards := o.composedCards.update (fun _ c => c.isRestored o targetKey)
        fun c => { c with eligibility := .readable } }

/-- `apply_suppression`: the rule, new or old. -/
def applySuppression (env : Env) (o : Rulebook) (i : SuppressionInput) :
    Except StateError (Rulebook × RuleId × SuppressionRow) := do
  ensure (i.idempotencyKey ≠ "" ∧ i.scopeRef ≠ "" ∧ i.fingerprint ≠ "" ∧ i.authorizedActor ≠ "")
    (.invalidInput "semantic rule identity is required")
  match o.receipts.get i.idempotencyKey with
  | some receipt => do
    ensure (receipt.requestHash = i.requestHash env) .conflict
    let row ← demand (o.suppressions.get receipt.resultId) .database
    pure (o, receipt.resultId, row)
  | none => do
    let (s, key) ← ensureTarget env o.toRepository i.targetKind i.scopeRef i.fingerprintVersion
      i.fingerprint
    let o := { o with toRepository := s }
    validateRuleBindings o key i
    ensure (i.expectedRulesRevision.all (fun n => decide (n = (o.rulesRevision : Int)))) .conflict
    let next := o.rulesRevision + 1
    ensure (next < 2 ^ 63) .integrityFailure
    let row := i.row key next
    let suppressions ← demand (o.suppressions.insert i.newId row) .database
    let receipts ← demand (o.receipts.insert i.idempotencyKey ⟨i.requestHash env, i.newId⟩) .database
    let o := { o with
      rulesRevision := next
      suppressions
      receipts }
    let o := if i.isUnbound && i.action.hides then setTargetEligibility o key false else o
    pure (o, i.newId, row)

structure RevocationInput where
  id : RuleId
  expectedRevision : Int
  (idempotencyKey authorizedActor : String)
  deriving DecidableEq

def RevocationInput.requestHash (env : Env) (r : RevocationInput) : String :=
  hashJson env ["suppression", toString r.id, toString r.expectedRevision, "revoke", r.authorizedActor]

/-- A rule that is revoked at a revision of the rules. -/
def SuppressionRow.revoked (x : SuppressionRow) (revision : Nat) (actor : String) : SuppressionRow :=
  { x with
    active := false
    revision
    rulesRevision := revision
    authorizedBy := actor }

/-- `revoke_suppression`. -/
def revokeSuppression (env : Env) (o : Rulebook) (r : RevocationInput) :
    Except StateError (Rulebook × SuppressionRow) := do
  ensure (r.idempotencyKey ≠ "" ∧ r.authorizedActor ≠ "")
    (.invalidInput "semantic rule idempotency key is required")
  match o.receipts.get r.idempotencyKey with
  | some receipt => do
    ensure (receipt.requestHash = r.requestHash env) .conflict
    let row ← demand (o.suppressions.get receipt.resultId) .database
    pure (o, row)
  | none => do
    let row ← demand (o.suppressions.get r.id) .conflict
    ensure ((row.revision : Int) = r.expectedRevision ∧ row.active) .conflict
    let next := o.rulesRevision + 1
    ensure (next < 2 ^ 63) .integrityFailure
    let receipts ← demand (o.receipts.insert r.idempotencyKey ⟨r.requestHash env, r.id⟩) .database
    let o := { o with
      rulesRevision := next
      suppressions := o.suppressions.set r.id fun x => x.revoked next r.authorizedActor
      receipts }
    let o := if row.isUnbound then setTargetEligibility o row.targetKey true else o
    pure (o, row.revoked next r.authorizedActor)

/-! ## Readers under other rules

Readers look at a rule only while it is active, and at a card through its source and its current
revision, besides its eligibility. -/

/-- `o'` shows no more than `o`, but for eligibility. -/
structure Admits (o' o : Rulebook) : Prop where
  cards : ∀ id, (o'.cards.get id).map place = (o.cards.get id).map place
  sources : o'.sources = o.sources
  cardRevisions : o'.cardRevisions = o.cardRevisions
  items : o'.items = o.items
  observations : o'.observations = o.observations
  extractions : o'.extractions = o.extractions
  evidence : o'.evidence = o.evidence
  tasks : o'.tasks = o.tasks
  composedRevisions : o'.composedRevisions = o.composedRevisions
  composedItems : o'.composedItems = o.composedItems
  supportGroups : o'.supportGroups = o.supportGroups
  supportMembers : o'.supportMembers = o.supportMembers
  rules : ∀ p : SuppressionRow → Bool, (∀ x, p x → x.active) →
    (o.suppressions.rows.any fun x => p x.2) → (o'.suppressions.rows.any fun x => p x.2)

variable {s : Repository} {o o' : Rulebook} {x : SuppressionRow}

theorem SuppressionRow.active_of_hidesComposed {h : ComposedHeader}
    (hhides : (x.hidesComposedTarget h || x.hidesComposedCard h)) : x.active := by
  unfold hidesComposedTarget hidesComposedCard at hhides
  simp only [Bool.or_eq_true, Bool.and_eq_true] at hhides
  rcases hhides with hhides | hhides
  · exact hhides.1.1.1.1
  · exact hhides.1.1.1

/-- The rules leave a member alone, and the rest holds. -/
theorem memberIsValid_eq (s : Repository) (cardId : ComposedCardId) (m : SupportMemberRow) :
    memberIsValid s cardId m = (memberIsValid { s with suppressions := .empty } cardId m &&
        !(s.suppressions.rows.any fun x => x.2.hidesMember s cardId m)) := by
  unfold memberIsValid
  cases s.sources.get m.sourceId with
  | none => rfl
  | some source =>
    cases s.observations.get m.observationId with
    | none => rfl
    | some o =>
      simp only [any_some]
      cases s.extractions.get o.extractionSetId with
      | none => rfl
      | some set =>
        cases s.evidence.get m.evidenceRefId with
        | none => rfl
        | some e =>
          simp only [any_some]
          congr 1
          exact (Bool.and_true _).symm

namespace Admits

variable {env : Env} {read : VaultPath → Option ManagedFile} {o o' : Rulebook}

/-- What no rule of `o'` does, none of `o` does. -/
theorem rules_none (h : Admits o' o) {p : SuppressionRow → Bool} (hp : ∀ x, p x → x.active)
    (hnone : (o'.suppressions.rows.any fun x => p x.2) = false) :
    (o.suppressions.rows.any fun x => p x.2) = false := by
  by_contra hany
  have hrules := h.rules p hp (Bool.not_eq_false _ ▸ hany)
  rw [hnone] at hrules
  cases hrules

theorem isReadable {header : CardHeader} (h : Admits o' o)
    (hread : header.isReadable o'.toRepository) : header.isReadable o.toRepository := by
  have hitem : hasItemFrom o'.toRepository = hasItemFrom o.toRepository := by
    unfold hasItemFrom
    rw [h.items]
  have hhides : hidesCard o'.toRepository = hidesCard o.toRepository := by
    unfold hidesCard
    rw [hitem]
  have htask : taskCompleted o'.toRepository = taskCompleted o.toRepository := by
    unfold taskCompleted
    rw [h.tasks]
  unfold CardHeader.isReadable at hread ⊢
  rw [hhides, htask] at hread
  simp only [Bool.and_eq_true, Bool.not_eq_true'] at hread ⊢
  refine ⟨⟨hread.1.1, h.rules_none (p := (·.hidesCard _ header)) (fun x hx => ?_) hread.1.2⟩, hread.2⟩
  unfold hidesCard at hx
  simp only [Bool.and_eq_true] at hx
  exact hx.1.1.1

theorem boundCardCites (h : Admits o' o) :
    boundCardCites o'.toRepository = boundCardCites o.toRepository := by
  have hitem : hasItemFrom o'.toRepository = hasItemFrom o.toRepository := by
    unfold hasItemFrom
    rw [h.items]
  funext x m
  unfold SemanticMemory.boundCardCites
  rw [h.cardRevisions, hitem]
  congr 1
  funext cardId
  have hplace := h.cards cardId
  cases hcard' : o'.cards.get cardId with
  | none =>
    rw [hcard'] at hplace
    rw [map_eq_none_iff.mp hplace.symm]
  | some card' =>
    rw [hcard'] at hplace
    obtain ⟨card, hcard, hsame⟩ := map_eq_some_iff.mp hplace.symm
    obtain ⟨hsource, -, hcurrent⟩ : card.sourceId = card'.sourceId ∧ card.topicKey = card'.topicKey ∧
        card.currentRevisionId = card'.currentRevisionId := by
      simpa [place] using hsame
    rw [hcard, any_some, any_some, hsource, hcurrent]

theorem memberIsValid {cardId : ComposedCardId} {m : SupportMemberRow} (h : Admits o' o)
    (hvalid : memberIsValid o'.toRepository cardId m) :
    memberIsValid o.toRepository cardId m := by
  have hhides : hidesMember o'.toRepository =
      hidesMember o.toRepository := by
    unfold hidesMember
    rw [h.boundCardCites]
  have hstands : SemanticMemory.memberIsValid { o'.toRepository with suppressions := .empty } cardId m =
      SemanticMemory.memberIsValid { o.toRepository with suppressions := .empty } cardId m := by
    unfold SemanticMemory.memberIsValid
    rw [h.sources, h.observations, h.extractions, h.evidence]
    rfl
  rw [memberIsValid_eq, Bool.and_eq_true, Bool.not_eq_true'] at hvalid ⊢
  obtain ⟨hrest, hrules⟩ := hvalid
  rw [hhides] at hrules
  refine ⟨hstands ▸ hrest, h.rules_none (p := (·.hidesMember _ cardId m)) (fun x hx => ?_) hrules⟩
  unfold hidesMember at hx
  simp only [Bool.and_eq_true] at hx
  exact hx.1.1

variable {header : ComposedHeader}

theorem isHidden (h : Admits o' o) (hshown : header.isHidden o'.toOrganization = false) :
    header.isHidden o.toOrganization = false := by
  have htask : taskCompleted o'.toRepository = taskCompleted o.toRepository := by
    unfold taskCompleted
    rw [h.tasks]
  unfold ComposedHeader.isHidden at hshown ⊢
  rw [htask, Bool.or_eq_false_iff] at hshown
  rw [Bool.or_eq_false_iff]
  exact ⟨h.rules_none (fun _ => SuppressionRow.active_of_hidesComposed) hshown.1, hshown.2⟩

theorem readable (h : Admits o' o) (hread : header.Readable env o'.toOrganization read) :
    header.Readable env o.toOrganization read := by
  have hmembers : ∀ groupId, o'.membersOf groupId = o.membersOf groupId := by
    intro groupId
    unfold Organization.membersOf
    rw [h.supportMembers]
  have hgroups : ∀ revisionId, o'.groupsOf revisionId = o.groupsOf revisionId := by
    intro revisionId
    unfold Organization.groupsOf
    rw [h.supportGroups, h.composedItems]
  refine ⟨hread.eligible, hread.published, h.isHidden hread.shown, hgroups _ ▸ hread.grounded, ?_,
    hread.file⟩
  intro g hg
  have hholds := hread.supported g ((hgroups _).symm ▸ hg)
  unfold Organization.Holds at hholds ⊢
  cases hop : g.2.operator with
  | and =>
    rw [hop, hmembers] at hholds
    exact ⟨hholds.1, fun m hm => h.memberIsValid (hholds.2 m hm)⟩
  | or =>
    rw [hop, hmembers] at hholds
    obtain ⟨m, hm, hvalid⟩ := hholds
    exact ⟨m, hm, h.memberIsValid hvalid⟩

end Admits

/-! ## Eligibility -/

def CardRow.labelled (f : CardRow → Eligibility) (c : CardRow) : CardRow :=
  { c with eligibility := f c }

def ComposedCardRow.labelled (f : ComposedCardRow → ComposedEligibility) (c : ComposedCardRow) :
    ComposedCardRow :=
  { c with eligibility := f c }

/-- The tables without what rules and eligibility say. -/
def Rulebook.unmarked (o : Rulebook) : Rulebook :=
  { o with
    cards := o.cards.modify fun _ => CardRow.labelled fun _ => .pending
    composedCards := o.composedCards.modify fun _ => ComposedCardRow.labelled fun _ => .pending
    targets := .empty
    suppressions := .empty
    rulesRevision := 0
    receipts := .empty }

theorem Admits.of_unmarked (h : o'.unmarked = o.unmarked)
    (hrules : ∀ p : SuppressionRow → Bool, (∀ x, p x → x.active) →
      (o.suppressions.rows.any fun x => p x.2) →
        (o'.suppressions.rows.any fun x => p x.2)) : Admits o' o where
  cards := by
    intro id
    have hplace : ∀ t : Rulebook, (t.cards.get id).map place =
        (t.unmarked.cards.get id).map place := by
      intro t
      show _ = ((t.cards.modify _).get id).map _
      rw [get_modify, Option.map_map]
      rfl
    rw [hplace o', hplace o, h]
  sources := congrArg (fun t => t.sources) h
  cardRevisions := congrArg (fun t => t.cardRevisions) h
  items := congrArg (fun t => t.items) h
  observations := congrArg (fun t => t.observations) h
  extractions := congrArg (fun t => t.extractions) h
  evidence := congrArg (fun t => t.evidence) h
  tasks := congrArg (fun t => t.tasks) h
  composedRevisions := congrArg (fun t => t.composedRevisions) h
  composedItems := congrArg (fun t => t.composedItems) h
  supportGroups := congrArg (fun t => t.supportGroups) h
  supportMembers := congrArg (fun t => t.supportMembers) h
  rules := hrules

/-- `o'` has the cards of `o` with other eligibilities. -/
structure Relabels (o o' : Rulebook) (f : CardRow → Eligibility)
    (g : ComposedCardRow → ComposedEligibility) : Prop where
  cards : o'.cards = o.cards.modify fun _ => CardRow.labelled f
  composedCards : o'.composedCards = o.composedCards.modify fun _ => ComposedCardRow.labelled g
  unmarked : o'.unmarked = o.unmarked

theorem Relabels.trans {o'' : Rulebook} {f f' : CardRow → Eligibility}
    {g g' : ComposedCardRow → ComposedEligibility} (h : Relabels o o' f g)
    (h' : Relabels o' o'' f' g') :
    Relabels o o'' (fun c => f' (c.labelled f)) fun c => g' (c.labelled g) where
  cards := by
    rw [h'.cards, h.cards, modify_modify]
    rfl
  composedCards := by
    rw [h'.composedCards, h.composedCards, modify_modify]
    rfl
  unmarked := h'.unmarked.trans h.unmarked

/-- The headers of all cards. -/
def cardHeaders (s : Repository) : List CardHeader := s.cards.rows.filterMap (cardHeader s)

theorem mem_cardHeaders {header : CardHeader} :
    header ∈ cardHeaders s ↔ s.cards.get header.cardId = some header.card ∧
      header.card.currentRevisionId = some header.revisionId ∧
      s.cardRevisions.get header.revisionId = some header.revision ∧
      (s.sources.get header.card.sourceId).map SourceRow.view = some header.source := by
  unfold cardHeaders
  rw [mem_filterMap, Keyed.get_eq_some_iff]
  constructor
  · rintro ⟨entry, hmem, hjoin⟩
    obtain ⟨rfl, hrest⟩ := cardHeader_eq_some_iff.mp hjoin
    exact ⟨hmem, hrest⟩
  · rintro ⟨hmem, hrest⟩
    exact ⟨_, hmem, cardHeader_eq_some_iff.mpr ⟨rfl, hrest⟩⟩

/-- A header whose card is eligible. -/
def CardHeader.lifted (header : CardHeader) : CardHeader :=
  { header with card := { header.card with eligibility := .readable } }

def ComposedHeader.lifted (header : ComposedHeader) : ComposedHeader :=
  { header with card := { header.card with eligibility := .readable } }

/-- One card has one header. -/
theorem card_of_lifted {a b : CardHeader} (ha : a ∈ cardHeaders s) (hb : b ∈ cardHeaders s)
    (h : a.lifted = b.lifted) : a.card = b.card := by
  have hid : a.lifted.cardId = b.lifted.cardId := congrArg CardHeader.cardId h
  have hget := (mem_cardHeaders.mp ha).1
  rw [show a.cardId = b.cardId from hid, (mem_cardHeaders.mp hb).1] at hget
  exact (Option.some.inj hget).symm

section Relabelled

variable {env : Env} {read : VaultPath → Option ManagedFile} {o o' : Rulebook}
  {f : CardRow → Eligibility} {g : ComposedCardRow → ComposedEligibility}

/-- The readable cards after a relabelling. -/
theorem Relabels.mem_readableHeaders (h : Relabels o o' f g) {header : CardHeader} :
    header ∈ readableHeaders o'.toRepository ↔ ∃ before ∈ cardHeaders o.toRepository,
      f before.card = .readable ∧ before.lifted = header ∧
        before.lifted.isReadable o'.toRepository := by
  have hmem : header ∈ readableHeaders o'.toRepository ↔ header ∈ cardHeaders o'.toRepository ∧
      header.isReadable o'.toRepository := mem_filter
  have hsources : o'.sources = o.sources := congrArg (fun t => t.sources) h.unmarked
  have hrevisions : o'.cardRevisions = o.cardRevisions := congrArg (fun t => t.cardRevisions) h.unmarked
  rw [hmem, mem_cardHeaders, h.cards, hsources, hrevisions, get_modify]
  constructor
  · rintro ⟨⟨hcard, hcurrent, hrevision, hsource⟩, hread⟩
    obtain ⟨card, hget, hlabel⟩ := map_eq_some_iff.mp hcard
    have heligible := (published_of_readable hread).1
    rw [← hlabel] at heligible
    have hlifted : ({ header with card := card } : CardHeader).lifted = header := by
      unfold CardHeader.lifted
      rw [show ({ card with eligibility := .readable } : CardRow) = header.card from
        (congrArg (fun e => { card with eligibility := e }) heligible).symm.trans hlabel]
    refine ⟨{ header with card }, mem_cardHeaders.mpr ⟨hget, ?_, hrevision, ?_⟩, heligible, hlifted,
      hlifted.symm ▸ hread⟩
    · rw [← hlabel] at hcurrent
      exact hcurrent
    · rw [← hlabel] at hsource
      exact hsource
  · rintro ⟨before, hbefore, heligible, rfl, hread⟩
    obtain ⟨hget, hcurrent, hrevision, hsource⟩ := mem_cardHeaders.mp hbefore
    refine ⟨⟨?_, hcurrent, hrevision, hsource⟩, hread⟩
    show (o.cards.get before.cardId).map _ = some { before.card with eligibility := .readable }
    rw [hget, ← heligible]
    rfl

theorem Relabels.mem_composedHeaders (h : Relabels o o' f g) {header : ComposedHeader} :
    header ∈ composedHeaders o'.toOrganization ∧ header.Readable env o'.toOrganization read ↔
      ∃ before ∈ composedHeaders o.toOrganization, g before.card = .readable ∧
        before.lifted = header ∧ before.lifted.Readable env o'.toOrganization read := by
  have hrevisions : o'.composedRevisions = o.composedRevisions :=
    congrArg (fun t => t.composedRevisions) h.unmarked
  rw [SemanticMemory.mem_composedHeaders, h.composedCards, hrevisions, get_modify]
  constructor
  · rintro ⟨⟨hcard, hcurrent, hrevision⟩, hread⟩
    obtain ⟨card, hget, hlabel⟩ := map_eq_some_iff.mp hcard
    have heligible := hread.eligible
    rw [← hlabel] at heligible
    have hlifted : ({ header with card := card } : ComposedHeader).lifted = header := by
      unfold ComposedHeader.lifted
      rw [show ({ card with eligibility := .readable } : ComposedCardRow) = header.card from
        (congrArg (fun e => { card with eligibility := e }) heligible).symm.trans hlabel]
    refine ⟨{ header with card }, SemanticMemory.mem_composedHeaders.mpr ⟨hget, ?_, hrevision⟩,
      heligible, hlifted, hlifted.symm ▸ hread⟩
    rw [← hlabel] at hcurrent
    exact hcurrent
  · rintro ⟨before, hbefore, heligible, rfl, hread⟩
    obtain ⟨hget, hcurrent, hrevision⟩ := SemanticMemory.mem_composedHeaders.mp hbefore
    refine ⟨⟨?_, hcurrent, hrevision⟩, hread⟩
    show (o.composedCards.get before.cardId).map _ = some { before.card with eligibility := .readable }
    rw [hget, ← heligible]
    rfl

/-- Eligibility is not in the tables of the rules. -/
theorem relabels_rules (o : Rulebook) (targets : Keyed String TargetRow)
    (suppressions : Keyed RuleId SuppressionRow) (rulesRevision : Nat)
    (receipts : Keyed String RuleReceipt) :
    Relabels o { o with targets, suppressions, rulesRevision, receipts } CardRow.eligibility
      ComposedCardRow.eligibility :=
  ⟨(Keyed.modify_id _).symm, (Keyed.modify_id _).symm, rfl⟩

theorem Relabels.refl (o : Rulebook) : Relabels o o CardRow.eligibility ComposedCardRow.eligibility :=
  relabels_rules o _ _ _ _

/-- The same shows iff they agree where it counts. -/
theorem same_lifted_iff {H : Type} {headers : List H} {l : H → H} {p q r t : H → Prop}
    (hto : ∀ header, t header → r header) (hfrom : ∀ header, r header → t header)
    (hp : ∀ a ∈ headers, ∀ b ∈ headers, l a = l b → (p a → p b) ∧ (q a → q b)) :
    (∀ header, (∃ before ∈ headers, q before ∧ l before = header ∧ t (l before)) ↔
        ∃ before ∈ headers, p before ∧ l before = header ∧ r (l before)) ↔
      ∀ before ∈ headers, r (l before) → (q before ↔ p before) := by
  constructor
  · intro hsame before hbefore hread
    constructor
    · intro hlabel
      obtain ⟨other, hother, hold, hlifted, -⟩ :=
        (hsame (l before)).mp ⟨before, hbefore, hlabel, rfl, hfrom _ hread⟩
      exact (hp other hother before hbefore hlifted).1 hold
    · intro hlabel
      obtain ⟨other, hother, hold, hlifted, -⟩ :=
        (hsame (l before)).mpr ⟨before, hbefore, hlabel, rfl, hread⟩
      exact (hp other hother before hbefore hlifted).2 hold
  · intro hagree header
    constructor
    · rintro ⟨before, hbefore, hlabel, hlifted, hread⟩
      exact ⟨before, hbefore, (hagree before hbefore (hto _ hread)).mp hlabel, hlifted, hto _ hread⟩
    · rintro ⟨before, hbefore, hlabel, hlifted, hread⟩
      exact ⟨before, hbefore, (hagree before hbefore hread).mpr hlabel, hlifted, hfrom _ hread⟩

/-- Cards stay iff the relabelling agrees where it counts. -/
theorem Relabels.same_cards_iff (h : Relabels o o' f g) (hto : Admits o' o) (hfrom : Admits o o') :
    (∀ header, header ∈ readableHeaders o'.toRepository ↔ header ∈ readableHeaders o.toRepository) ↔
      ∀ before ∈ cardHeaders o.toRepository, before.lifted.isReadable o.toRepository →
        (f before.card = .readable ↔ before.card.eligibility = .readable) := by
  simp only [h.mem_readableHeaders, (Relabels.refl o).mem_readableHeaders]
  refine same_lifted_iff (l := CardHeader.lifted) (r := (·.isReadable o.toRepository))
    (fun _ => hto.isReadable) (fun _ => hfrom.isReadable) ?_
  intro a ha b hb hlifted
  rw [card_of_lifted ha hb hlifted]
  exact ⟨id, id⟩

theorem Relabels.same_composed_iff (h : Relabels o o' f g) (hto : Admits o' o)
    (hfrom : Admits o o') :
    (∀ header, header ∈ composedHeaders o'.toOrganization ∧ header.Readable env o'.toOrganization read ↔
        header ∈ composedHeaders o.toOrganization ∧ header.Readable env o.toOrganization read) ↔
      ∀ before ∈ composedHeaders o.toOrganization, before.lifted.Readable env o.toOrganization read →
        (g before.card = .readable ↔ before.card.eligibility = .readable) := by
  simp only [h.mem_composedHeaders, (Relabels.refl o).mem_composedHeaders]
  refine same_lifted_iff (l := ComposedHeader.lifted)
    (fun _ => hto.readable) (fun _ => hfrom.readable) ?_
  intro a ha b hb hlifted
  have hid : a.lifted.cardId = b.lifted.cardId := congrArg ComposedHeader.cardId hlifted
  rw [eq_of_cardId ha hb hid]
  exact ⟨id, id⟩

/-- Making no card eligible shows no new one. -/
theorem Relabels.subset (h : Relabels o o' f g) (hto : Admits o' o)
    (hf : ∀ c, f c = .readable → c.eligibility = .readable)
    (hg : ∀ c, g c = .readable → c.eligibility = .readable) :
    (∀ header ∈ readableHeaders o'.toRepository, header ∈ readableHeaders o.toRepository) ∧
      ∀ header ∈ composedHeaders o'.toOrganization, header.Readable env o'.toOrganization read →
        header ∈ composedHeaders o.toOrganization ∧ header.Readable env o.toOrganization read := by
  have hself := Relabels.refl o
  constructor
  · intro header hheader
    obtain ⟨before, hbefore, heligible, hlifted, hread⟩ := h.mem_readableHeaders.mp hheader
    exact hself.mem_readableHeaders.mpr
      ⟨before, hbefore, hf before.card heligible, hlifted, hto.isReadable hread⟩
  · intro header hheader hread
    obtain ⟨before, hbefore, heligible, hlifted, hread'⟩ := h.mem_composedHeaders.mp ⟨hheader, hread⟩
    exact hself.mem_composedHeaders.mpr
      ⟨before, hbefore, hg before.card heligible, hlifted, hto.readable hread'⟩

end Relabelled

/-! ## A suppression and its revocation -/

section

variable (o : Rulebook)

/-- Write eligibilities. -/
def Rulebook.relabel (f : CardRow → Eligibility)
    (g : ComposedCardRow → ComposedEligibility) : Rulebook :=
  { o with
    cards := o.cards.modify fun _ => CardRow.labelled f
    composedCards := o.composedCards.modify fun _ => ComposedCardRow.labelled g }

theorem relabels_relabel (f : CardRow → Eligibility)
    (g : ComposedCardRow → ComposedEligibility) : Relabels o (o.relabel f g) f g := by
  refine ⟨rfl, rfl, ?_⟩
  unfold Rulebook.unmarked Rulebook.relabel
  rw [modify_modify, modify_modify]
  rfl

/-- What an unbound suppression writes. -/
def CardRow.suppressed (key : String) (c : CardRow) : Eligibility :=
  if c.hasTarget o key then .invalidated else c.eligibility

def ComposedCardRow.suppressed (key : String) (c : ComposedCardRow) :
    ComposedEligibility :=
  if c.hasTarget o key then .invalidated else c.eligibility

/-- What a revocation writes if no other rule has it. -/
def CardRow.restored (key : String) (c : CardRow) : Eligibility :=
  if c.isRestored o key then .readable else c.eligibility

def ComposedCardRow.restored (key : String) (c : ComposedCardRow) :
    ComposedEligibility :=
  if c.isRestored o key then .readable else c.eligibility

theorem CardRow.suppressed_twice (key : String) (c : CardRow) :
    (c.labelled (CardRow.suppressed o key)).suppressed o key = c.suppressed o key := by
  show (if c.hasTarget o key then _ else (if c.hasTarget o key then _ else _)) =
    if c.hasTarget o key then _ else _
  split <;> rfl

theorem ComposedCardRow.suppressed_twice (key : String) (c : ComposedCardRow) :
    (c.labelled (ComposedCardRow.suppressed o key)).suppressed o key = c.suppressed o key := by
  show (if c.hasTarget o key then _ else (if c.hasTarget o key then _ else _)) =
    if c.hasTarget o key then _ else _
  split <;> rfl

end

theorem CardRow.labelled_if (w : CardRow → Bool) (e : Eligibility) :
    CardRow.labelled (fun c => if w c then e else c.eligibility) =
      fun c => if w c then { c with eligibility := e } else c := by
  funext c
  exact apply_ite (fun e => { c with eligibility := e }) (w c = true) _ _

theorem ComposedCardRow.labelled_if (w : ComposedCardRow → Bool) (e : ComposedEligibility) :
    ComposedCardRow.labelled (fun c => if w c then e else c.eligibility) =
      fun c => if w c then { c with eligibility := e } else c := by
  funext c
  exact apply_ite (fun e => { c with eligibility := e }) (w c = true) _ _

theorem setTargetEligibility_eq (o : Rulebook) (key : String) (restore : Bool) :
    setTargetEligibility o key restore =
      if !restore || isSuppressed o key then
        o.relabel (CardRow.suppressed o key) (ComposedCardRow.suppressed o key)
      else o.relabel (CardRow.restored o key) (ComposedCardRow.restored o key) := by
  unfold setTargetEligibility Rulebook.relabel CardRow.suppressed ComposedCardRow.suppressed
    CardRow.restored ComposedCardRow.restored
  rw [CardRow.labelled_if, CardRow.labelled_if, ComposedCardRow.labelled_if, ComposedCardRow.labelled_if,
    update_eq, update_eq, update_eq, update_eq]

theorem ensureTarget_key {env : Env} {s' : Repository} {kind scope fingerprint key : String}
    {version : Nat} (h : ensureTarget env s kind scope version fingerprint = .ok (s', key)) :
    key = deriveTargetKey env kind scope version fingerprint := by
  obtain ⟨u, -, h⟩ := bind_ok_iff.mp h
  obtain ⟨u', -, h⟩ := bind_ok_iff.mp h
  dsimp only at h
  split at h
  next =>
    cases h
    rfl
  next =>
    cases h
    rfl

theorem setTargetEligibility_suppressions (o : Rulebook) (key : String) (restore : Bool) :
    (setTargetEligibility o key restore).suppressions = o.suppressions := by
  rw [setTargetEligibility_eq]
  split <;> rfl

theorem setTargetEligibility_suppresses (o : Rulebook) (key : String) :
    Relabels o (setTargetEligibility o key false) (CardRow.suppressed o key)
      (ComposedCardRow.suppressed o key) := by
  rw [setTargetEligibility_eq, Bool.not_false, Bool.true_or]
  exact relabels_relabel _ _ _

theorem setTargetEligibility_restores (o : Rulebook) (key : String) :
    if isSuppressed o key then
      Relabels o (setTargetEligibility o key true) (CardRow.suppressed o key)
        (ComposedCardRow.suppressed o key)
    else Relabels o (setTargetEligibility o key true) (CardRow.restored o key)
      (ComposedCardRow.restored o key) := by
  rw [setTargetEligibility_eq, Bool.not_true, Bool.false_or]
  split
  next => exact relabels_relabel _ _ _
  next => exact relabels_relabel _ _ _

section RoundTrip

variable {env : Env} {read : VaultPath → Option ManagedFile} {o o₁ o₂ : Rulebook}
  {i : SuppressionInput} {r : RevocationInput} {id : RuleId} {row row₂ : SuppressionRow}

/-- An unbound suppression relabels its target's cards. -/
theorem applySuppression_spec (hhides : i.action.hides)
    (hnew : o.receipts.get i.idempotencyKey = none)
    (h : applySuppression env o i = .ok (o₁, id, row)) :
    row.targetKey = i.targetKey env ∧ row.isUnbound = i.isUnbound ∧
      o.suppressions.insert id row = some o₁.suppressions ∧
      if i.isUnbound then Relabels o o₁ (CardRow.suppressed o (i.targetKey env))
        (ComposedCardRow.suppressed o (i.targetKey env))
      else Relabels o o₁ CardRow.eligibility ComposedCardRow.eligibility := by
  obtain ⟨u, -, h⟩ := bind_ok_iff.mp h
  rw [hnew] at h
  simp only [bind_ok_iff] at h
  obtain ⟨⟨s, key⟩, htarget, u₁, -, u₂, -, u₃, -, suppressions, hinsert, receipts, -, h⟩ := h
  obtain rfl := ensureTarget_key htarget
  obtain ⟨targets, rfl⟩ := ensureTarget_eq htarget
  cases h
  rw [hhides, Bool.and_true]
  have hsuppressions := demand_ok_iff.mp hinsert
  refine ⟨rfl, rfl, ?_, ?_⟩
  · split
    next =>
      exact hsuppressions
    next => exact hsuppressions
  · split
    next => exact (relabels_rules _ _ _ _ _).trans (setTargetEligibility_suppresses _ _)
    next => exact relabels_rules _ _ _ _ _

/-- A revoked rule acts no more. -/
theorem revokeSuppression_spec (hnew : o.receipts.get r.idempotencyKey = none)
    (hrow : o.suppressions.get r.id = some row) (h : revokeSuppression env o r = .ok (o₂, row₂)) :
    (∃ next, o₂.suppressions = o.suppressions.set r.id fun x => x.revoked next r.authorizedActor) ∧
      if row.isUnbound then
        if isSuppressed o₂ row.targetKey then
          Relabels o o₂ (CardRow.suppressed o row.targetKey) (ComposedCardRow.suppressed o row.targetKey)
        else Relabels o o₂ (CardRow.restored o row.targetKey) (ComposedCardRow.restored o row.targetKey)
      else Relabels o o₂ CardRow.eligibility ComposedCardRow.eligibility := by
  obtain ⟨u, -, h⟩ := bind_ok_iff.mp h
  rw [hnew] at h
  simp only [bind_ok_iff] at h
  obtain ⟨found, hfound, u₁, -, u₂, -, receipts, -, h⟩ := h
  cases h
  obtain rfl : row = found := Option.some.inj (hrow.symm.trans (demand_ok_iff.mp hfound))
  refine ⟨⟨o.rulesRevision + 1, ?_⟩, ?_⟩
  · split
    next => rw [setTargetEligibility_suppressions]
    next => rfl
  · split
    next hunbound =>
      have hsame : ∀ t : Rulebook, isSuppressed (setTargetEligibility t row.targetKey true) row.targetKey =
          isSuppressed t row.targetKey := by
        intro t
        unfold isSuppressed
        rw [setTargetEligibility_suppressions]
      have hrestores := setTargetEligibility_restores
        { o with
          rulesRevision := o.rulesRevision + 1
          suppressions := o.suppressions.set r.id fun x => x.revoked (o.rulesRevision + 1) r.authorizedActor
          receipts } row.targetKey
      rw [hsame]
      split at hrestores
      next hsuppressed =>
        rw [if_pos hsuppressed]
        exact (relabels_rules _ _ _ _ _).trans hrestores
      next hsuppressed =>
        rw [if_neg hsuppressed]
        exact (relabels_rules _ _ _ _ _).trans hrestores
    next => exact relabels_rules _ _ _ _ _

/-- Nothing else hides them, and they are as revoked. -/
structure Reversible (env : Env) (o : Rulebook) (read : VaultPath → Option ManagedFile)
    (key : String) : Prop where
  cards : ∀ before ∈ cardHeaders o.toRepository, before.revision.targetKey = key →
    before.lifted.isReadable o.toRepository → (before.card.eligibility = .readable ↔
      isSuppressed o key = false ∧ sourceServes o before.revision.sourceId)
  composed : ∀ before ∈ composedHeaders o.toOrganization, before.revision.targetKey = key →
    before.lifted.Readable env o.toOrganization read →
      (before.card.eligibility = .readable ↔ isSuppressed o key = false)

variable {header : CardHeader} {key : String}

theorem hasTarget_of_header (h : header ∈ cardHeaders o.toRepository) :
    header.card.hasTarget o key = decide (header.revision.targetKey = key) := by
  obtain ⟨-, hcurrent, hrevision, -⟩ := mem_cardHeaders.mp h
  unfold CardRow.hasTarget
  rw [hcurrent, any_some, hrevision, any_some]

theorem isRestored_of_header (h : header ∈ cardHeaders o.toRepository) :
    header.card.isRestored o key = (decide (header.revision.targetKey = key ∧
      header.revision.publicationState = .published) && sourceServes o header.revision.sourceId) := by
  obtain ⟨-, hcurrent, hrevision, -⟩ := mem_cardHeaders.mp h
  unfold CardRow.isRestored
  rw [hcurrent, any_some, hrevision, any_some]

theorem composedTarget_of_header {header : ComposedHeader}
    (h : header ∈ composedHeaders o.toOrganization) :
    header.card.hasTarget o key = decide (header.revision.targetKey = key) := by
  obtain ⟨-, hcurrent, hrevision⟩ := mem_composedHeaders.mp h
  unfold ComposedCardRow.hasTarget
  rw [hcurrent, any_some, hrevision, any_some]

theorem composedRestored_of_header {header : ComposedHeader}
    (h : header ∈ composedHeaders o.toOrganization) :
    header.card.isRestored o key = decide (header.revision.targetKey = key ∧
      header.revision.publicationState = .published) := by
  obtain ⟨-, hcurrent, hrevision⟩ := mem_composedHeaders.mp h
  unfold ComposedCardRow.isRestored
  rw [hcurrent, any_some, hrevision, any_some]

/-- A rule that was stored and revoked does not act. -/
theorem any_revoked {t t' : Keyed RuleId SuppressionRow} {p : SuppressionRow → Bool}
    (h : t.insert id x = some t') (hx : x.active = false)
    (hp : ∀ x, p x → x.active) :
    (t'.rows.any fun x => p x.2) = t.rows.any fun x => p x.2 := by
  have hnot : p x = false := by
    rw [Bool.eq_false_iff]
    intro hpx
    rw [hp x hpx] at hx
    cases hx
  rw [Keyed.insert_rows h, any_append, any_cons, hnot]
  simp

theorem isSuppressed_congr (h : ∀ p : SuppressionRow → Bool, (∀ x, p x → x.active) →
      (o₂.suppressions.rows.any fun x => p x.2) = o.suppressions.rows.any fun x => p x.2) (key : String) :
    isSuppressed o₂ key = isSuppressed o key := by
  refine h (fun x => x.active && x.action.hides && decide (x.targetKey = key)) ?_
  intro x hx
  simp only [Bool.and_eq_true] at hx
  exact hx.1.1

/-- Labels agree where only those of a target are new. -/
theorem agree_iff {read new target label old : Prop} [Decidable target]
    (h : read → (new ↔ if target then label else old)) :
    (read → (new ↔ old)) ↔ (target → read → (old ↔ label)) := by
  constructor
  · intro hagree htarget hread
    have hboth := h hread
    rw [if_pos htarget, hagree hread] at hboth
    exact hboth
  · intro hagree hread
    rw [h hread]
    by_cases htarget : target
    · rw [if_pos htarget, hagree htarget hread]
    · rw [if_neg htarget]

/-- The eligibility of single cards after the two calls. -/
theorem reversible_cards_iff {f : CardRow → Eligibility}
    (hf : ∀ c, f c = if isSuppressed o key then c.suppressed o key
      else if c.isRestored o key then .readable else c.suppressed o key) :
    (∀ before ∈ cardHeaders o.toRepository, before.lifted.isReadable o.toRepository →
        (f before.card = .readable ↔ before.card.eligibility = .readable)) ↔
      ∀ before ∈ cardHeaders o.toRepository, before.revision.targetKey = key →
        before.lifted.isReadable o.toRepository → (before.card.eligibility = .readable ↔
          isSuppressed o key = false ∧ sourceServes o before.revision.sourceId) := by
  have hcase : ∀ before ∈ cardHeaders o.toRepository, before.lifted.isReadable o.toRepository →
      (f before.card = .readable ↔
        if before.revision.targetKey = key then
          isSuppressed o key = false ∧ sourceServes o before.revision.sourceId
        else before.card.eligibility = .readable) := by
    intro before hbefore hread
    have hpublished : before.revision.publicationState = .published := (published_of_readable hread).2
    rw [hf, isRestored_of_header hbefore, CardRow.suppressed, hasTarget_of_header hbefore]
    by_cases htarget : before.revision.targetKey = key
    · cases isSuppressed o key <;> cases sourceServes o before.revision.sourceId <;>
        simp [htarget, hpublished]
    · cases isSuppressed o key <;> simp [htarget]
  exact forall₂_congr fun before hbefore => agree_iff (hcase before hbefore)

/-- So for composed cards, without sources. -/
theorem reversible_composed_iff {g : ComposedCardRow → ComposedEligibility}
    (hg : ∀ c, g c = if isSuppressed o key then c.suppressed o key
      else if c.isRestored o key then .readable else c.suppressed o key) :
    (∀ before ∈ composedHeaders o.toOrganization, before.lifted.Readable env o.toOrganization read →
        (g before.card = .readable ↔ before.card.eligibility = .readable)) ↔
      ∀ before ∈ composedHeaders o.toOrganization, before.revision.targetKey = key →
        before.lifted.Readable env o.toOrganization read →
          (before.card.eligibility = .readable ↔ isSuppressed o key = false) := by
  have hcase : ∀ before ∈ composedHeaders o.toOrganization,
      before.lifted.Readable env o.toOrganization read → (g before.card = .readable ↔
        if before.revision.targetKey = key then isSuppressed o key = false
        else before.card.eligibility = .readable) := by
    intro before hbefore hread
    have hpublished : before.revision.publicationState = .published := hread.published
    rw [hg, composedRestored_of_header hbefore, ComposedCardRow.suppressed, composedTarget_of_header hbefore]
    by_cases htarget : before.revision.targetKey = key
    · cases isSuppressed o key <;> simp [htarget, hpublished]
    · cases isSuppressed o key <;> simp [htarget]
  exact forall₂_congr fun before hbefore => agree_iff (hcase before hbefore)

/-- How the two calls relabel the cards. -/
theorem roundTrip_relabels (hhides : i.action.hides)
    (hnew : o.receipts.get i.idempotencyKey = none)
    (happly : applySuppression env o i = .ok (o₁, r.id, row))
    (hnew' : o₁.receipts.get r.idempotencyKey = none)
    (hrevoke : revokeSuppression env o₁ r = .ok (o₂, row₂))
    (hsuppressed : isSuppressed o₂ (i.targetKey env) = isSuppressed o (i.targetKey env)) :
    ∃ f g, Relabels o o₂ f g ∧
      if i.isUnbound then
        (∀ c, f c = if isSuppressed o (i.targetKey env) then c.suppressed o (i.targetKey env)
          else if c.isRestored o (i.targetKey env) then .readable else c.suppressed o (i.targetKey env)) ∧
        ∀ c, g c = if isSuppressed o (i.targetKey env) then c.suppressed o (i.targetKey env)
          else if c.isRestored o (i.targetKey env) then .readable else c.suppressed o (i.targetKey env)
      else f = CardRow.eligibility ∧ g = ComposedCardRow.eligibility := by
  obtain ⟨htarget, hunbound, hinsert, hfirst⟩ := applySuppression_spec hhides hnew happly
  have hrow : o₁.suppressions.get r.id = some row := by
    rw [Keyed.get_insert hinsert, if_pos rfl]
  obtain ⟨-, hsecond⟩ := revokeSuppression_spec hnew' hrow hrevoke
  rw [hunbound, htarget] at hsecond
  cases hof : i.isUnbound with
  | false =>
    rw [hof] at hfirst hsecond
    exact ⟨_, _, Relabels.trans hfirst hsecond, rfl, rfl⟩
  | true =>
    rw [hof] at hfirst
    rw [hof, hsuppressed] at hsecond
    -- a card has its target whatever its eligibility
    have hrevisions : o₁.cardRevisions = o.cardRevisions := congrArg (fun t => t.cardRevisions) hfirst.unmarked
    have hcomposed : o₁.composedRevisions = o.composedRevisions :=
      congrArg (fun t => t.composedRevisions) hfirst.unmarked
    have hsources : o₁.sources = o.sources := congrArg (fun t => t.sources) hfirst.unmarked
    have htargeted : CardRow.hasTarget o₁ = CardRow.hasTarget o := by
      unfold CardRow.hasTarget
      rw [hrevisions]
    have hcomposedTarget : ComposedCardRow.hasTarget o₁ = ComposedCardRow.hasTarget o := by
      unfold ComposedCardRow.hasTarget
      rw [hcomposed]
    have hrestored : CardRow.isRestored o₁ = CardRow.isRestored o := by
      unfold CardRow.isRestored sourceServes
      rw [hrevisions, hsources]
    have hcomposedRestored : ComposedCardRow.isRestored o₁ = ComposedCardRow.isRestored o := by
      unfold ComposedCardRow.isRestored
      rw [hcomposed]
    cases hs : isSuppressed o (i.targetKey env) with
    | true =>
      rw [hs] at hsecond
      refine ⟨_, _, hfirst.trans hsecond, ?_, ?_⟩
      · intro c
        rw [CardRow.suppressed, htargeted]
        exact CardRow.suppressed_twice o (i.targetKey env) c
      · intro c
        rw [ComposedCardRow.suppressed, hcomposedTarget]
        exact ComposedCardRow.suppressed_twice o (i.targetKey env) c
    | false =>
      rw [hs] at hsecond
      refine ⟨_, _, Relabels.trans hfirst hsecond, ?_, ?_⟩
      · intro c
        rw [CardRow.restored, hrestored]
        rfl
      · intro c
        rw [ComposedCardRow.restored, hcomposedRestored]
        rfl

/-- **WHEN A REVOKED SUPPRESSION LEAVES NO TRACE**: exactly when it was bound, or the
    eligibility of its target's cards that nothing else hides is what a revocation writes. -/
theorem suppression_revoked_iff (env : Env) (read : VaultPath → Option ManagedFile)
    {o o₁ o₂ : Rulebook} {i : SuppressionInput} {r : RevocationInput} {row row₂ : SuppressionRow}
    (hhides : i.action.hides) (hnew : o.receipts.get i.idempotencyKey = none)
    (happly : applySuppression env o i = .ok (o₁, r.id, row))
    (hnew' : o₁.receipts.get r.idempotencyKey = none)
    (hrevoke : revokeSuppression env o₁ r = .ok (o₂, row₂)) :
    ((∀ header ∈ readableHeaders o₁.toRepository, header ∈ readableHeaders o.toRepository) ∧
      ∀ header ∈ composedHeaders o₁.toOrganization, header.Readable env o₁.toOrganization read →
        header ∈ composedHeaders o.toOrganization ∧ header.Readable env o.toOrganization read) ∧
    (((∀ header, header ∈ readableHeaders o₂.toRepository ↔ header ∈ readableHeaders o.toRepository) ∧
      ∀ header, header ∈ composedHeaders o₂.toOrganization ∧ header.Readable env o₂.toOrganization read ↔
        header ∈ composedHeaders o.toOrganization ∧ header.Readable env o.toOrganization read) ↔
      (i.isUnbound → Reversible env o read (i.targetKey env))) := by
  obtain ⟨-, -, hinsert, hfirst⟩ := applySuppression_spec hhides hnew happly
  constructor
  · -- more rules, and no eligibility that was not there
    have hadmits : ∀ {f g}, Relabels o o₁ f g → Admits o₁ o := by
      intro f g hlabels
      refine Admits.of_unmarked hlabels.unmarked ?_
      intro p _ hany
      rw [Keyed.insert_rows hinsert, any_append, hany]
      rfl
    split at hfirst
    next =>
      refine hfirst.subset (hadmits hfirst) ?_ ?_
      · intro c hc
        unfold CardRow.suppressed at hc
        split at hc
        · cases hc
        · exact hc
      · intro c hc
        unfold ComposedCardRow.suppressed at hc
        split at hc
        · cases hc
        · exact hc
    next => exact hfirst.subset (hadmits hfirst) (fun _ h => h) fun _ h => h
  · have hrow : o₁.suppressions.get r.id = some row := by
      rw [Keyed.get_insert hinsert, if_pos rfl]
    obtain ⟨⟨next, hsuppressions⟩, -⟩ := revokeSuppression_spec hnew' hrow hrevoke
    have hstored := Keyed.insert_set hinsert fun x => x.revoked next r.authorizedActor
    rw [← hsuppressions] at hstored
    have hrules : ∀ p : SuppressionRow → Bool, (∀ x, p x → x.active) →
        (o₂.suppressions.rows.any fun x => p x.2) = o.suppressions.rows.any fun x => p x.2 :=
      fun p hp => any_revoked hstored rfl hp
    obtain ⟨f, g, hlabels, hfg⟩ := roundTrip_relabels hhides hnew happly hnew' hrevoke
      (isSuppressed_congr hrules _)
    have hto : Admits o₂ o := Admits.of_unmarked hlabels.unmarked fun p hp hany => (hrules p hp).trans hany
    have hfrom : Admits o o₂ := Admits.of_unmarked hlabels.unmarked.symm fun p hp hany =>
      (hrules p hp).symm.trans hany
    rw [hlabels.same_cards_iff hto hfrom, hlabels.same_composed_iff hto hfrom]
    cases hof : i.isUnbound with
    | false =>
      rw [hof] at hfg
      obtain ⟨rfl, rfl⟩ := hfg
      constructor
      · exact nofun
      · exact fun _ => ⟨fun _ _ _ => Iff.rfl, fun _ _ _ => Iff.rfl⟩
    | true =>
      rw [hof] at hfg
      rw [reversible_cards_iff hfg.1, reversible_composed_iff hfg.2]
      constructor
      · exact fun ⟨hcards, hcomposed⟩ _ => ⟨hcards, hcomposed⟩
      · intro hreversible
        exact ⟨(hreversible rfl).cards, (hreversible rfl).composed⟩

end RoundTrip

/-- No composed cards, no requests. -/
def rulesOver (s : Repository) : Rulebook where
  toRepository := s
  composedCards := .empty
  composedRevisions := .empty
  composedItems := .empty
  supportGroups := .empty
  supportMembers := .empty
  relationCandidates := .empty
  relationDecisions := .empty
  composedDependencies := .empty
  receipts := .empty

/-- To stop reading the target of a revision. -/
def suppressTarget (s : Repository) (revisionId : CardRevisionId) : SuppressionInput where
  action := .suppressRead
  targetKind := "memory_card"
  scopeRef := "project"
  fingerprintVersion := 2
  fingerprint := (((s.cardRevisions.get revisionId).bind fun r => s.targets.get r.targetKey).map
    TargetRow.fingerprint).getD ""
  policy := ""
  sourceId := none
  sourceRevisionId := none
  observationId := none
  cardId := none
  composedCardId := none
  expectedRulesRevision := none
  authorizedActor := "owner"
  idempotencyKey := "suppress"
  newId := 1

def revokeFirst : RevocationInput := ⟨1, 1, "revoke", "owner"⟩

/-- Suppressed and revoked, it is back. -/
theorem suppression_revoked_note : ∃ o₁ o₂ row row₂,
    applySuppression plainEnv (rulesOver publishedNote) (suppressTarget publishedNote 1) =
      .ok (o₁, 1, row) ∧
    revokeSuppression plainEnv o₁ revokeFirst = .ok (o₂, row₂) ∧
    (readableHeaders o₁.toRepository).length = 0 ∧ (readableHeaders publishedNote).length = 1 ∧
    ∀ header, header ∈ readableHeaders o₂.toRepository ↔ header ∈ readableHeaders publishedNote := by
  have hrun : ((applySuppression plainEnv (rulesOver publishedNote) (suppressTarget publishedNote 1)).toOption.bind
      fun out => (revokeSuppression plainEnv out.1 revokeFirst).toOption.map fun _ =>
        (out.2.1, (out.1.receipts.get revokeFirst.idempotencyKey).isNone,
          (readableHeaders out.1.toRepository).length)) = some (1, true, 0) := by
    decide +kernel
  obtain ⟨⟨o₁, id, row⟩, happly, hrun⟩ := bind_eq_some_iff.mp hrun
  obtain ⟨⟨o₂, row₂⟩, hrevoke, hview⟩ := map_eq_some_iff.mp hrun
  simp only [Prod.mk.injEq] at hview
  obtain ⟨rfl, hnone, hhidden⟩ := hview
  have happly' := Fallible.toOption_eq_some_iff.mp happly
  have hrevoke' := Fallible.toOption_eq_some_iff.mp hrevoke
  refine ⟨o₁, o₂, row, row₂, happly', hrevoke', hhidden, by decide +kernel, ?_⟩
  refine ((suppression_revoked_iff plainEnv (fun _ => none) rfl ?_ happly'
    (isNone_iff_eq_none.mp hnone) hrevoke').2.mpr ?_).1
  · exact Keyed.get_empty
  · refine fun _ => ⟨?_, ?_⟩
    · decide +kernel
    · intro before hbefore
      cases hbefore

/-- Two cards; a new extraction omits the second. -/
def omittingRun : List Call :=
  [.register noteRegistration, .start (noteStart 1 "first"), .prepare 1 [noteObservation 1,
        { noteObservation 2 with localKey := "other", statement := "other statement" }]
      [noteCard 1 1 none 1 "a" 1, noteCard 2 2 none 1 "b" 2],
    .markWritten 1 7 1, .markWritten 2 8 1, .apply 1,
    .start (noteStart 2 "second"), .prepare 2 [noteObservation 3] [noteCard 1 3 (some 1) 2 "a" 3],
    .markWritten 3 7 2, .apply 2]

/-- An omitted card returns by a revocation. -/
theorem revoked_suppression_shows_card : ∃ w, Transition.Reach (watch plainEnv) Transition.Always
      ⟨.empty, fun _ => none⟩ w ∧
    ((listCards w.repo 200).map (List.map CardRecord.id)) = .ok [1] ∧
    ((applySuppression plainEnv (rulesOver w.repo) (suppressTarget w.repo 2)).toOption.bind fun out =>
      (revokeSuppression plainEnv out.1 revokeFirst).toOption.map fun back =>
        ((listCards out.1.toRepository 200).map (List.map CardRecord.id),
          (listCards back.1.toRepository 200).map (List.map CardRecord.id))) =
      some (.ok [1], .ok [1, 2]) := by
  have hrun : ((Transition.run (watch plainEnv) ⟨.empty, fun _ => none⟩ omittingRun).map fun w =>
      ((listCards w.repo 200).map (List.map CardRecord.id),
        (applySuppression plainEnv (rulesOver w.repo) (suppressTarget w.repo 2)).toOption.bind fun out =>
          (revokeSuppression plainEnv out.1 revokeFirst).toOption.map fun back =>
            ((listCards out.1.toRepository 200).map (List.map CardRecord.id),
              (listCards back.1.toRepository 200).map (List.map CardRecord.id)))) =
      some (.ok [1], some (.ok [1], .ok [1, 2])) := by
    decide +kernel
  obtain ⟨w, hw, hview⟩ := map_eq_some_iff.mp hrun
  simp only [Prod.mk.injEq] at hview
  exact ⟨w, Transition.Reach.of_run hw, hview⟩

end SemanticMemory
