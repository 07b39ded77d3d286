import McpVault.ExtractionFrameProofs
import McpVault.SemanticRuleProofs

/-! # Forgetting a card

A request to forget a card becomes a suppression bound to the card, and, if it names the source,
to a revision of the source and one observation. Readers match it by these identifiers, so the
content may return in another card or from another revision.  In the same card it stays hidden,
and the invariant of this file carries that over every later run. -/

namespace SemanticMemory

open KeyedTable Transition List Option
open Fallible (bind_ok_iff)
open VaultDomain (FileId VaultPath Revision)
open Fallible (foldlM_invariant of_check toOption_eq_some_iff)

/-! ## The facade -/

structure SourceBinding where
  sourceId : SourceId
  sourceRevisionId : SourceRevisionId
  observationId : ObservationId
  deriving DecidableEq

/-- What `resolve_semantic_target` tells about a card. -/
structure CardResolution where
  (targetKind scopeRef : String)
  fingerprintVersion : Nat
  fingerprint : String
  parentRevision : Nat
  bindings : List SourceBinding
  deriving DecidableEq

/-- A revision's observations, unordered. -/
def bindingsOf (s : Repository) (revisionId : CardRevisionId) : List SourceBinding :=
  (s.items.select fun _ i => decide (i.cardRevisionId = revisionId)).flatMap fun i =>
    i.2.supports.filterMap fun _ =>
      ((s.observations.get i.2.observationId).filter fun o => decide (o.sourceId = i.2.sourceId)).map
        fun o => ⟨i.2.sourceId, o.sourceRevisionId, i.2.observationId⟩

/-- The current revision of a card that may be named. -/
def resolvableCard (s : Repository) (cardId : MemoryCardId) :
    Option (CardRevisionId × CardRevisionRow) := do
  let card ← s.cards.get cardId
  let revisionId ← card.currentRevisionId
  let revision ← s.cardRevisions.get revisionId
  let source ← s.sources.get card.sourceId
  if card.eligibility = .readable ∧ revision.publicationState = .published ∧
      source.eligible ∧ source.pendingRebuild = false ∧
      source.currentRevisionId = some revision.sourceRevisionId then
    some (revisionId, revision)
  else none

/-- `resolve_semantic_target` for `card:`. -/
def resolveCardTarget (s : Repository) (cardId : MemoryCardId) :
    Except StateError (Option CardResolution) :=
  match resolvableCard s cardId with
  | none => pure none
  | some (revisionId, revision) => do
    let target ← demand (s.targets.get revision.targetKey) .integrityFailure
    pure (some
      { targetKind := target.targetKind
        scopeRef := revision.scopeRef
        fingerprintVersion := target.fingerprintVersion
        fingerprint := target.fingerprint
        parentRevision := revision.revisionNumber
        bindings := bindingsOf s revisionId })

/-- `SemanticRuleCommand` for a card and a suppression. -/
structure CardRuleCommand where
  cardId : MemoryCardId
  sourceId : Option SourceId
  sourceRevisionId : Option SourceRevisionId
  action : SuppressionAction
  policy : String
  expectedParentRevision : Option Nat
  expectedRulesRevision : Option Int
  (idempotencyKey actor : String)
  newId : RuleId
  deriving DecidableEq

/-- The binding that a command with a source selects. -/
def CardRuleCommand.binding (c : CardRuleCommand) (bindings : List SourceBinding) :
    Option SourceBinding :=
  c.sourceId.bind fun sourceId => bindings.find? fun b => decide (b.sourceId = sourceId) &&
    c.sourceRevisionId.all fun revision => decide (revision = b.sourceRevisionId)

/-- The rule that a command makes. -/
def CardRuleCommand.suppression (c : CardRuleCommand) (resolved : CardResolution)
    (binding : Option SourceBinding) : SuppressionInput where
  action := c.action
  targetKind := resolved.targetKind
  scopeRef := resolved.scopeRef
  fingerprintVersion := resolved.fingerprintVersion
  fingerprint := resolved.fingerprint
  policy := c.policy
  sourceId := binding.map SourceBinding.sourceId
  sourceRevisionId := binding.map SourceBinding.sourceRevisionId
  observationId := binding.map SourceBinding.observationId
  cardId := some c.cardId
  composedCardId := none
  expectedRulesRevision := c.expectedRulesRevision
  authorizedActor := c.actor
  idempotencyKey := c.idempotencyKey
  newId := c.newId

/-- `SemanticFacade::apply_rule` for a card. -/
def applyCardRule (env : Env) (isBlank : String → Bool) (o : Rulebook) (manages : Bool)
    (c : CardRuleCommand) : Except MemoryError (Rulebook × RuleId × SuppressionRow) :=
  if manages = false then .error .accessDenied
  else if isBlank c.idempotencyKey then .error (.invalidInput "idempotency key is required")
  else do
    let resolved ← (resolveCardTarget o.toRepository c.cardId).mapError mapStateError
    match resolved with
    | none => .error .notFound
    | some resolved =>
      if c.expectedParentRevision.all (fun n => decide (n = resolved.parentRevision)) = false then
        .error .conflict
      else
        let binding := c.binding resolved.bindings
        if c.sourceId.isSome ∧ binding = none then .error .conflict
        else (applySuppression env o (c.suppression resolved binding)).mapError mapStateError

/-! ## What a card says -/

/-- `semantic_card_fingerprint`, from rows. -/
def revisionFingerprint (env : Env) (s : Repository) (sourceId : SourceId)
    (revisionId : CardRevisionId) (r : CardRevisionRow) : Except StateError String :=
  semanticCardFingerprint env s sourceId
    { cardId := r.cardId
      cardRevisionId := revisionId
      expectedCardRevisionId := none
      revisionNumber := r.revisionNumber
      topicKey := ""
      title := r.title
      kind := r.kind
      scopeRef := r.scopeRef
      assertionStatus := r.assertionStatus
      temporalScope := r.temporalScope
      compositionProfileId := r.compositionProfileId
      canonicalPath := r.canonicalPath
      canonicalMarkdownHash := r.canonicalMarkdownHash
      canonicalBytes := []
      items := (itemsOf s revisionId).map fun i =>
        ⟨0, i.observationId, i.kind, i.ordinal, i.content, i.supports⟩
      snapshotId := 0 }

/-- A forgotten card; was its source named? -/
structure Forgotten where
  cardId : MemoryCardId
  sourceId : SourceId
  sourceRevisionId : SourceRevisionId
  (scopeRef targetKey : String)
  fingerprint : Except StateError String
  sourced : Bool

namespace Forgotten

variable (env : Env) (f : Forgotten) (s : Repository)

/-- A revision that says what the forgotten card said. -/
def IsSaidBy (sourceId : SourceId) (revisionId : CardRevisionId) (r : CardRevisionRow) : Prop :=
  sourceId = f.sourceId ∧ r.scopeRef = f.scopeRef ∧
    revisionFingerprint env s sourceId revisionId r = f.fingerprint

/-- The rule matches a revision of a card. -/
def Covers (cardId : MemoryCardId) (r : CardRevisionRow) : Prop :=
  cardId = f.cardId ∧ (f.sourced → r.sourceRevisionId = f.sourceRevisionId ∧
    r.targetKey = f.targetKey)

/-- The content only in that card, of its revision if bound. -/
def Confines : Call → Prop
  | .apply id => ∀ p ∈ snapshotsOf s id, ∀ r, s.cardRevisions.get p.2.cardRevisionId = some r →
      f.IsSaidBy env s p.2.sourceId p.2.cardRevisionId r → f.Covers p.2.cardId r
  | _ => True

end Forgotten

/-- What is forgotten when a card with this header is. -/
def CardHeader.forgotten (env : Env) (s : Repository) (h : CardHeader) (sourced : Bool) : Forgotten where
  cardId := h.cardId
  sourceId := h.card.sourceId
  sourceRevisionId := h.revision.sourceRevisionId
  scopeRef := h.revision.scopeRef
  targetKey := h.revision.targetKey
  fingerprint := revisionFingerprint env s h.card.sourceId h.revisionId h.revision
  sourced

/-- One call, as a step. -/
def callStep (env : Env) (s : Repository) (call : Call) : Option Repository :=
  (exec env s call).toOption

/-! ## What no call changes -/

variable {env : Env} {s s' : Repository} {id : RuleId} {call : Call} {x : SuppressionRow}

/-- The rows of a fingerprint stay. -/
structure Keeps (s s' : Repository) : Prop where
  suppressions : s'.suppressions = s.suppressions
  items : ∀ rid, (s.cardRevisions.get rid).isSome → itemsOf s' rid = itemsOf s rid
  observations : ∀ id o, s.observations.get id = some o → s'.observations.get id = some o
  evidence : ∀ id e, s.evidence.get id = some e → ∃ e', s'.evidence.get id = some e' ∧
    e'.spans = e.spans
  revisions : ∀ id r, s.cardRevisions.get id = some r → ∃ r', s'.cardRevisions.get id = some r' ∧
    r'.fixed = r.fixed

variable {header : CardHeader} {card : CardRevisionInput} {r r' : CardRevisionRow}
  {f : Forgotten} {c : PrepareContext} {t : Repository} {o o₁ : Rulebook}
  {i : SuppressionInput}

/-- An old revision's fingerprint stays. -/
theorem Keeps.fingerprint (h : Keeps s s') (hs : s.Filed) {sourceId : SourceId}
    {rid : CardRevisionId} (hr : s.cardRevisions.get rid = some r) (hfixed : r'.fixed = r.fixed) :
    revisionFingerprint env s' sourceId rid r' = revisionFingerprint env s sourceId rid r := by
  have hrid : (s.cardRevisions.get rid).isSome := by
    rw [hr]
    rfl
  have hlinks : ∀ item ∈ itemsOf s rid, s.Links item := by
    intro item hitem
    obtain ⟨⟨iid, row⟩, hrow, rfl⟩ := mem_map.mp ((mem_insertionSort _).mp hitem)
    exact hs.items iid row (Keyed.mem_select.mp hrow).1
  rw [CardRevisionRow.eq_with_of_fixed hfixed]
  unfold revisionFingerprint semanticCardFingerprint
  rw [h.items rid hrid]
  congr 1
  rw [mapM_map, mapM_map]
  refine Fallible.mapM_congr ?_
  intro item hitem
  obtain ⟨hobs, hevidence⟩ := hlinks item hitem
  obtain ⟨o, ho⟩ := isSome_iff_exists.mp hobs
  have hspans : (item.supports.flatMap fun id =>
        ((s'.evidence.get id).elim [] EvidenceRow.spans).map SpanRow.identity) =
      item.supports.flatMap fun id =>
        ((s.evidence.get id).elim [] EvidenceRow.spans).map SpanRow.identity := by
    refine flatMap_congr ?_
    intro eid heid
    obtain ⟨e, he⟩ := isSome_iff_exists.mp (hevidence eid heid)
    obtain ⟨e', he', hsame⟩ := h.evidence eid e he
    rw [he, he']
    show e'.spans.map _ = e.spans.map _
    rw [hsame]
  unfold itemFingerprint
  simp only [Function.comp_apply]
  rw [h.observations _ o ho, ho, hspans]

theorem Keeps.of_modify {g : CardRevisionId → CardRevisionRow → CardRevisionRow}
    (hsuppressions : s'.suppressions = s.suppressions) (hitems : s'.items = s.items)
    (hobservations : s'.observations = s.observations)
    (hevidence : ∀ id e, s.evidence.get id = some e → ∃ e', s'.evidence.get id = some e' ∧
      e'.spans = e.spans) (hrevisions : s'.cardRevisions = s.cardRevisions.modify g)
    (hg : ∀ id r, (g id r).fixed = r.fixed) : Keeps s s' where
  suppressions := hsuppressions
  items := by
    intro rid _
    unfold itemsOf
    rw [hitems]
  observations := fun id o ho => hobservations ▸ ho
  evidence := hevidence
  revisions := by
    intro id r hr
    refine ⟨g id r, ?_, hg id r⟩
    rw [hrevisions, Keyed.get_modify, hr]
    rfl

theorem Retires.keeps (h : Retires s s') : Keeps s s' := by
  refine Keeps.of_modify (by rw [h.rest]) h.items h.observations ?_
    (h.cardRevisions.trans (Keyed.modify_id _).symm) fun _ _ => rfl
  intro id e he
  obtain ⟨valid, he'⟩ := h.evidence id e he
  exact ⟨_, he', rfl⟩

theorem Closes.keeps {id : ExtractionSetId} (h : Closes s s' id) : Keeps s s' := by
  obtain ⟨k, hk, hrev⟩ := h.revisions
  have hevidence : s'.evidence = s.evidence := by rw [h.rest]
  refine Keeps.of_modify ?_ ?_ ?_ (fun _ e he => ⟨e, hevidence ▸ he, rfl⟩) hk fun rid r => (hrev rid r).1
  · rw [h.rest]
  · rw [h.rest]
  · rw [h.rest]

/-- New items are of revisions that were not there. -/
def NewItems (s s' : Repository) : Prop :=
  s.items.Appends s'.items fun _ item => s.cardRevisions.get item.cardRevisionId = none

theorem NewItems.trans {u : Repository} (h : NewItems s t) (h' : NewItems t u)
    (hkept : ∀ id r, s.cardRevisions.get id = some r → t.cardRevisions.get id = some r) :
    NewItems s u := by
  refine Keyed.Appends.trans h (Keyed.Appends.mono h' ?_)
  intro _ item hnone
  rw [eq_none_iff_forall_ne_some]
  intro r hr
  rw [hkept _ r hr] at hnone
  cases hnone

theorem insertItem_items {item : CardItemInput} (h : insertItem c card s item = .ok s') :
    s.items.Appends s'.items fun _ i => i.cardRevisionId = card.cardRevisionId := by
  unfold insertItem at h
  simp only [bind_ok_iff] at h
  obtain ⟨u, -, u', -, items, hitems, h⟩ := h
  cases h
  exact Keyed.Appends.of_insert (demand_ok_iff.mp hitems) rfl

theorem prepareCard_items (h : prepareCard env c s card = .ok s') : NewItems s s' := by
  unfold prepareCard at h
  simp only [bind_ok_iff] at h
  obtain ⟨fingerprint, -, ⟨s₁, targetKey⟩, htarget, h⟩ := h
  obtain ⟨targets, rfl⟩ := cardTarget_eq htarget
  obtain ⟨u₁, -, u₂, -, u₃, -, u₄, -, s₂, hcard, prior, -, u₅, -, s₃, hrevision, s₄, hitems, h⟩ := h
  have hcards : s₂.items = s.items ∧ s₂.cardRevisions = s.cardRevisions := by
    split at hcard
    next =>
      unfold insertCard at hcard
      simp only [bind_ok_iff] at hcard
      obtain ⟨u, -, cards, -, hcard⟩ := hcard
      cases hcard
      exact ⟨rfl, rfl⟩
    next =>
      cases hcard
      exact ⟨rfl, rfl⟩
  have hfresh : s₂.cardRevisions.get card.cardRevisionId = none ∧ s₃.items = s₂.items := by
    unfold insertCardRevision at hrevision
    simp only [bind_ok_iff] at hrevision
    obtain ⟨u, -, revisions, hinsert, hrevision⟩ := hrevision
    cases hrevision
    exact ⟨Keyed.get_none_of_insert (demand_ok_iff.mp hinsert), rfl⟩
  have happended : s₃.items.Appends s₄.items fun _ i => i.cardRevisionId = card.cardRevisionId := by
    refine foldlM_invariant (P := fun _ t => s₃.items.Appends t.items _) ?_
      (Keyed.Appends.refl _ _) hitems
    intro done item t t' _ ht hstep
    exact ht.trans (insertItem_items hstep)
  have hlast : s'.items = s₄.items := by
    unfold insertSnapshot at h
    simp only [bind_ok_iff] at h
    obtain ⟨u, -, snapshots, -, h⟩ := h
    cases h
    rfl
  unfold NewItems
  rw [hlast, ← hcards.1, ← hfresh.2, ← hcards.2]
  refine happended.mono ?_
  rintro _ item hof
  rw [hof]
  exact hfresh.1

theorem preparePublication_keeps {id : ExtractionSetId} {observations : List ObservationInput}
    {cards : List CardRevisionInput} (h : preparePublication env s id observations cards = .ok s')
    : Keeps s s' := by
  have hnew : NewItems s s' := by
    unfold preparePublication at h
    simp only [bind_ok_iff] at h
    obtain ⟨u₀, -, ⟨e, source, revision⟩, -, u₁, -, u₂, -, u₃, -, u₄, -, u₅, -, s₁, hobs, s₂,
      hcards, h⟩ := h
    cases h
    have hsame : s₁.items = s.items ∧ s₁.cardRevisions = s.cardRevisions := by
      refine foldlM_invariant
        (P := fun _ t => t.items = s.items ∧ t.cardRevisions = s.cardRevisions) ?_ ⟨rfl, rfl⟩ hobs
      intro done o t t' _ ht hstep
      unfold insertObservation at hstep
      simp only [bind_ok_iff] at hstep
      obtain ⟨body, -, context, -, evidence, -, u, -, rows, -, hstep⟩ := hstep
      cases hstep
      exact ht
    have hloop : NewItems s₁ s₂ ∧ Prepares ⟨id, e, source⟩ s₁ s₂ := by
      refine foldlM_invariant (P := fun _ t => NewItems s₁ t ∧ Prepares ⟨id, e, source⟩ s₁ t) ?_
        ⟨Keyed.Appends.refl _ _, Prepares.refl _ _⟩ hcards
      rintro done card t t' _ ⟨hitems, hprep⟩ hstep
      exact ⟨hitems.trans (prepareCard_items hstep) fun _ _ hr => hprep.revisions.get_kept hr,
        hprep.trans (prepareCard_prepares hstep)⟩
    have hitems := hloop.1
    unfold NewItems at hitems ⊢
    rw [hsame.1, hsame.2] at hitems
    exact hitems
  obtain ⟨e, source, revision, s₁, -, -, -, -, -, hprep, rfl⟩ := preparePublication_spec h
  refine ⟨hprep.rules.1, ?_, fun _ _ ho => hprep.observations.get_kept ho,
    fun eid e he => ⟨e, hprep.evidence eid e he, rfl⟩, fun _ r hr => ⟨r, hprep.revisions.get_kept hr, rfl⟩⟩
  intro rid hrid
  obtain ⟨new, hrows, hnone⟩ := hnew
  unfold itemsOf Keyed.select
  rw [hrows, filter_append]
  have hothers : (new.filter fun r => decide (r.2.cardRevisionId = rid)) = [] := by
    rw [filter_eq_nil_iff]
    intro item hitem hof
    have hfresh : s.cardRevisions.get item.2.cardRevisionId = none := hnone item hitem
    rw [of_decide_eq_true hof] at hfresh
    rw [hfresh] at hrid
    cases hrid
  rw [hothers, append_nil]

theorem exec_keeps (h : exec env s call = .ok s') : Keeps s s' := by
  obtain ⟨hret, -⟩ | ⟨id, hcloses⟩ | ⟨i, out, -, hout, rfl⟩ | ⟨id, state, code, -, hfinish⟩ |
    ⟨id, observations, cards, -, hprepare⟩ | ⟨id, fileId, revision, -, hmark⟩ | ⟨id, -, happly⟩ :=
    exec_cases h
  · exact hret.keeps
  · exact hcloses.keeps
  · rcases startExtraction_cases hout with ⟨hsame, -⟩ |
      ⟨source, targets, extractions, idempotency, e, -, -, -, -, -, -, -, heq⟩
    · rw [hsame]
      exact (Retires.refl s).keeps
    · rw [heq]
      exact Keeps.of_modify rfl rfl rfl (fun _ e he => ⟨e, he, rfl⟩) (Keyed.modify_id _).symm
        fun _ _ => rfl
  · obtain ⟨e, source, revision, -, -, -, ⟨-, rfl⟩ | ⟨-, -, hret, -⟩⟩ := finish_spec hfinish
    · exact Keeps.of_modify rfl rfl rfl (fun _ e he => ⟨e, he, rfl⟩) (Keyed.modify_id _).symm
        fun _ _ => rfl
    · obtain ⟨hsuppressions, hitems, hobs, hev, hrevs⟩ := hret.keeps
      exact ⟨hsuppressions, hitems, hobs, hev, hrevs⟩
  · exact preparePublication_keeps hprepare
  · obtain ⟨p, source, -, -, -, -, rfl⟩ := markSnapshotWritten_spec hmark
    refine Keeps.of_modify rfl rfl rfl (fun _ e he => ⟨e, he, rfl⟩) (Keyed.update_eq _ _ _) ?_
    intro rid r
    split <;> rfl
  · obtain ⟨sourceId, source, snapshots, -, -, -, -, -, guard, rfl⟩ := applyPublication_spec happly
    exact Keeps.of_modify rfl rfl rfl (fun _ e he => ⟨e, he, rfl⟩) rfl
      (publishedRevision_fixed snapshots)

/-- A current revision was so, or was just published. -/
theorem exec_currents (h : exec env s call = .ok s') {id : MemoryCardId} {card' : CardRow}
    (hcard' : s'.cards.get id = some card') :
    card'.currentRevisionId = none ∨
      (∃ card, s.cards.get id = some card ∧ card'.sourceId = card.sourceId ∧
        card'.currentRevisionId = card.currentRevisionId) ∨
      ∃ e, call = .apply e ∧ ∃ p ∈ snapshotsOf s e, p.2.cardId = id ∧
        card'.sourceId = p.2.sourceId ∧ card'.currentRevisionId = some p.2.cardRevisionId := by
  have hretires : ∀ t : Repository, t.cards = s.cards → Retires t s' → ∃ card,
      s.cards.get id = some card ∧ card'.sourceId = card.sourceId ∧
        card'.currentRevisionId = card.currentRevisionId := by
    intro t ht hret
    rw [← ht]
    exact hret.currents hcard'
  have hsame : s'.cards = s.cards → ∃ card, s.cards.get id = some card ∧
      card'.sourceId = card.sourceId ∧ card'.currentRevisionId = card.currentRevisionId :=
    fun heq => ⟨card', heq ▸ hcard', rfl, rfl⟩
  obtain ⟨hret, -⟩ | ⟨e, hcloses⟩ | ⟨i, out, -, hout, rfl⟩ | ⟨e, state, code, -, hfinish⟩ |
    ⟨e, observations, cards, -, hprepare⟩ | ⟨p, fileId, revision, -, hmark⟩ | ⟨e, rfl, happly⟩ :=
    exec_cases h
  · exact .inr (.inl (hretires s rfl hret))
  · exact .inr (.inl (hsame hcloses.cards))
  · refine .inr (.inl (hsame ?_))
    rcases startExtraction_cases hout with ⟨hsame, -⟩ |
      ⟨source, targets, extractions, idempotency, e, -, -, -, -, -, -, -, heq⟩
    · rw [hsame]
    · rw [heq]
  · obtain ⟨row, source, revision, -, -, -, ⟨-, rfl⟩ | ⟨-, -, hret, -⟩⟩ := finish_spec hfinish
    · exact .inr (.inl (hsame rfl))
    · exact .inr (.inl (hretires (endedSet s e state code) rfl hret))
  · obtain ⟨e, source, revision, s₁, -, -, -, -, -, hprep, rfl⟩ := preparePublication_spec hprepare
    rcases hprep.cards.get_cases hcard' with hold | ⟨hnone, -⟩
    · exact .inr (.inl ⟨card', hold, rfl, rfl⟩)
    · exact .inl hnone
  · obtain ⟨p, source, -, -, -, -, rfl⟩ := markSnapshotWritten_spec hmark
    exact .inr (.inl (hsame rfl))
  · obtain ⟨sourceId, source, snapshots, hsnap, -, -, hcurrent, hcards, guard, rfl⟩ :=
      applyPublication_spec happly
    obtain ⟨row, hrow, rfl⟩ := map_eq_some_iff.mp ((Keyed.get_modify _).symm.trans hcard')
    obtain ⟨old, hold, hinv⟩ := map_eq_some_iff.mp ((Keyed.get_update _ _).symm.trans hrow)
    have hplace : row.sourceId = old.sourceId ∧ row.currentRevisionId = old.currentRevisionId := by
      rw [← hinv]
      split <;> exact ⟨rfl, rfl⟩
    rcases publishedCard_cases snapshots id row with ⟨hleft, -⟩ | ⟨p, hp, hid, hpub⟩
    · rw [hleft]
      exact .inr (.inl ⟨old, hold, hplace⟩)
    · refine .inr (.inr ⟨e, rfl, p, hsnap ▸ hp, hid, ?_, ?_⟩)
      · obtain ⟨card, hcard, hof⟩ := hcards p hp
        rw [hid, hold] at hcard
        obtain rfl := Option.some.inj hcard
        rw [publishedCard_sourceId, hplace.1, hof, (hcurrent p hp).2.1]
      · rw [hpub]

/-! ## The rule over a run -/

/-- The rule matches every card with the content. -/
structure Guarded (env : Env) (f : Forgotten) (id : RuleId) (x : SuppressionRow) (s : Repository) :
    Prop where
  filed : s.Filed
  rule : s.suppressions.get id = some x
  covered : ∀ cardId card rid r, s.cards.get cardId = some card → card.currentRevisionId = some rid →
    s.cardRevisions.get rid = some r → f.IsSaidBy env s card.sourceId rid r → f.Covers cardId r

theorem Forgotten.Covers.of_fixed {cardId : MemoryCardId} (h : f.Covers cardId r)
    (hfixed : r'.fixed = r.fixed) : f.Covers cardId r' := by
  rw [CardRevisionRow.eq_with_of_fixed hfixed]
  exact h

/-- One call that confines the content keeps it covered. -/
theorem Guarded.step (hg : Guarded env f id x s) (h : exec env s call = .ok s')
    (hconfines : f.Confines env s call) : Guarded env f id x s' := by
  have hkeeps := exec_keeps h
  refine ⟨hg.filed.grow (exec_grows hg.filed h), hkeeps.suppressions ▸ hg.rule, ?_⟩
  -- a revision of a card says what it said when it became current
  have hsaid : ∀ {sourceId rid r r'}, s.cardRevisions.get rid = some r →
      s'.cardRevisions.get rid = some r' → f.IsSaidBy env s' sourceId rid r' →
        r'.fixed = r.fixed ∧ f.IsSaidBy env s sourceId rid r := by
    intro sourceId rid r r' hr hr' hsaid
    obtain ⟨r'', hr'', hfixed⟩ := hkeeps.revisions rid r hr
    rw [hr'] at hr''
    obtain rfl := Option.some.inj hr''
    obtain ⟨hsource, hscope, hprint⟩ := hsaid
    refine ⟨hfixed, hsource, ?_, ?_⟩
    · rw [← hscope, CardRevisionRow.eq_with_of_fixed hfixed]
    · rw [← hprint, hkeeps.fingerprint hg.filed hr hfixed]
  intro cardId card' rid r' hcard' hcurrent' hr' hsays
  rcases exec_currents h hcard' with hnone | ⟨card, hcard, hsource, hcurrent⟩ |
    ⟨e, rfl, p, hp, rfl, hsource, hcurrent⟩
  · rw [hnone] at hcurrent'
    cases hcurrent'
  · rw [hcurrent] at hcurrent'
    obtain ⟨r, hr⟩ := isSome_iff_exists.mp (hg.filed.cards cardId card rid hcard hcurrent')
    obtain ⟨hfixed, hsays⟩ := hsaid hr hr' hsays
    rw [hsource] at hsays
    exact (hg.covered cardId card rid r hcard hcurrent' hr hsays).of_fixed hfixed
  · rw [hcurrent] at hcurrent'
    obtain rfl := Option.some.inj hcurrent'
    obtain ⟨hget, -⟩ := mem_snapshotsOf.mp hp
    obtain ⟨r, hr⟩ := isSome_iff_exists.mp (hg.filed.snapshots p.1 p.2 hget)
    obtain ⟨hfixed, hsays⟩ := hsaid hr hr' hsays
    rw [hsource] at hsays
    exact (hconfines p hp r hr hsays).of_fixed hfixed

theorem Guarded.run (hg : Guarded env f id x s)
    (h : Reach (callStep env) (fun t call _ => f.Confines env t call) s s') :
    Guarded env f id x s' := by
  refine h.invariant ?_ hg
  intro t call t' ht hstep hconfines
  exact ht.step (toOption_eq_some_iff.mp hstep) hconfines

/-! ## The rule that a request makes -/

/-- The row that a request to forget a card is stored as. -/
structure Binds (header : CardHeader) (c : CardRuleCommand) (x : SuppressionRow) : Prop where
  active : x.active
  action : x.action = c.action
  card : x.cardId = some header.cardId
  composed : x.composedCardId = none
  target : x.targetKey = header.revision.targetKey
  unsourced : c.sourceId = none → x.sourceId = none ∧ x.sourceRevisionId = none ∧
    x.observationId = none
  sourced : c.sourceId ≠ none → x.sourceId = some header.card.sourceId ∧
    x.sourceRevisionId = some header.revision.sourceRevisionId

/-- It names target, source and revision. -/
theorem of_bindsCard {key : String} (hheader : header ∈ cardHeaders o.toRepository)
    (h : bindsCard o key i header.cardId) :
    key = header.revision.targetKey ∧ (∀ id, i.sourceId = some id → id = header.card.sourceId) ∧
      ∀ id, i.sourceRevisionId = some id → id = header.revision.sourceRevisionId := by
  obtain ⟨hcard, hcurrent, hrevision, -⟩ := mem_cardHeaders.mp hheader
  unfold bindsCard at h
  rw [hcard] at h
  simp only [hcurrent, bind_some, hrevision, any_some, Bool.and_eq_true,
    decide_eq_true_eq] at h
  obtain ⟨⟨⟨⟨-, hsource⟩, hsourceRevision⟩, hkey, -⟩, -⟩ := h
  refine ⟨hkey.symm, ?_, ?_⟩
  · intro id hid
    rw [hid] at hsource
    exact of_decide_eq_true hsource
  · intro id hid
    rw [hid] at hsourceRevision
    exact Option.some.inj (of_decide_eq_true hsourceRevision)

/-- A new rule's row, and what can carry it. -/
theorem applySuppression_row (hnew : o.receipts.get i.idempotencyKey = none)
    (h : applySuppression env o i = .ok (o₁, id, x)) :
    ∃ revision, x = i.row (i.targetKey env) revision ∧
      ∀ cardId, i.cardId = some cardId → bindsCard o (i.targetKey env) i cardId := by
  obtain ⟨u, -, h⟩ := bind_ok_iff.mp h
  rw [hnew] at h
  simp only [bind_ok_iff] at h
  obtain ⟨⟨s, key⟩, htarget, u₁, hvalid, u₂, -, u₃, -, suppressions, -, receipts, -, h⟩ := h
  obtain rfl := ensureTarget_key htarget
  obtain ⟨targets, rfl⟩ := ensureTarget_eq htarget
  cases h
  refine ⟨_, rfl, ?_⟩
  intro cardId hcardId
  unfold validateRuleBindings at hvalid
  simp only [bind_ok_iff] at hvalid
  obtain ⟨v, -, v₁, -, v₂, -, v₃, -, v₄, hcard, -⟩ := hvalid
  have hall := ensure_ok_iff.mp hcard
  rw [hcardId] at hall
  exact hall

/-- What a new request to forget a card stores. -/
theorem applyCardRule_spec {isBlank : String → Bool} {manages : Bool} {c : CardRuleCommand}
    (hhides : c.action.hides) (hnew : o.receipts.get c.idempotencyKey = none)
    (hheader : header ∈ cardHeaders o.toRepository) (hcard : header.cardId = c.cardId)
    (h : applyCardRule env isBlank o manages c = .ok (o₁, id, x)) :
    Binds header c x ∧ o.suppressions.insert id x = some o₁.suppressions ∧
      Relabels o o₁ CardRow.eligibility ComposedCardRow.eligibility := by
  obtain ⟨-, h⟩ := of_check h
  obtain ⟨-, h⟩ := of_check h
  obtain ⟨found, -, h⟩ := bind_ok_iff.mp h
  cases found with
  | none => cases h
  | some resolved =>
    obtain ⟨-, h⟩ := of_check h
    obtain ⟨hselected, h⟩ := of_check h
    have hsuppress := Fallible.mapError_ok_iff.mp h
    obtain ⟨-, -, hinsert, hrelabels⟩ := applySuppression_spec hhides hnew hsuppress
    obtain ⟨revision, rfl, hbinds⟩ := applySuppression_row hnew hsuppress
    have hbound : (c.suppression resolved (c.binding resolved.bindings)).isUnbound = false := by
      simp [SuppressionInput.isUnbound, CardRuleCommand.suppression]
    rw [hbound] at hrelabels
    refine ⟨?_, hinsert, hrelabels⟩
    obtain ⟨hkey, hsource, hrevision⟩ := of_bindsCard hheader (hbinds header.cardId (congrArg some hcard.symm))
    refine ⟨rfl, rfl, congrArg some hcard.symm, rfl, hkey, ?_, ?_⟩
    · intro hnone
      have hbinding : c.binding resolved.bindings = none := by
        unfold CardRuleCommand.binding
        rw [hnone]
        rfl
      rw [hbinding]
      exact ⟨rfl, rfl, rfl⟩
    · intro hsome
      have hnamed : c.sourceId.isSome := isSome_iff_ne_none.mpr hsome
      obtain ⟨b, hb⟩ := ne_none_iff_exists'.mp fun hnone => hselected ⟨hnamed, hnone⟩
      rw [hb] at hsource hrevision ⊢
      exact ⟨congrArg some (hsource b.sourceId rfl), congrArg some (hrevision b.sourceRevisionId rfl)⟩

/-- The rule hides what it covers. -/
theorem Binds.hides {before : CardHeader} {c : CardRuleCommand} (h : Binds before c x)
    (hhides : c.action.hides) (hsource : header.card.sourceId = before.card.sourceId)
    (hcovers : (before.forgotten env t c.sourceId.isSome).Covers header.cardId header.revision) :
    x.hidesCard s header := by
  obtain ⟨hcard, hsame⟩ := hcovers
  have hcard : header.cardId = before.cardId := hcard
  unfold SuppressionRow.hidesCard
  simp only [h.active, h.action, hhides, h.composed, h.card, hcard, isNone_none, Bool.true_and, Bool.or_eq_true]
  cases hof : c.sourceId with
  | none =>
    obtain ⟨hnoSource, hnoRevision, hnoObservation⟩ := h.unsourced hof
    have hadmits : x.admitsSource header.card.sourceId header.revision.sourceRevisionId := by
      unfold RuleRow.admitsSource
      rw [hnoSource, hnoRevision]
      rfl
    rw [hadmits, hnoObservation]
    exact .inl (.inr rfl)
  | some sourceId =>
    obtain ⟨hrule, hruleRevision⟩ := h.sourced (by rw [hof]; exact nofun)
    obtain ⟨hrevision, htarget⟩ : header.revision.sourceRevisionId = before.revision.sourceRevisionId ∧
        header.revision.targetKey = before.revision.targetKey := hsame (by rw [hof]; rfl)
    have hadmits : x.admitsSource header.card.sourceId header.revision.sourceRevisionId := by
      unfold RuleRow.admitsSource
      rw [hrule, hruleRevision, hsource, hrevision]
      simp
    rw [hadmits, h.target, htarget]
    exact .inl (.inl (by simp))

/-- Such a rule changes only the rules and the targets. -/
theorem Relabels.repository (h : Relabels o o₁ CardRow.eligibility ComposedCardRow.eligibility) :
    o₁.toRepository = { o.toRepository with
      targets := o₁.targets
      suppressions := o₁.suppressions
      rulesRevision := o₁.rulesRevision } := by
  have hcards : o₁.cards = o.cards := h.cards.trans (Keyed.modify_id _)
  have hback : ∀ t : Rulebook, t.toRepository = { t.unmarked.toRepository with
      cards := t.cards
      targets := t.targets
      suppressions := t.suppressions
      rulesRevision := t.rulesRevision } := fun _ => rfl
  rw [hback o₁, h.unmarked, hcards]
  rfl

/-- **WHEN FORGOTTEN CONTENT STAYS AWAY**: if it is only in that card, and later publications
    put it only there (from the same revision, if the source was named), no listed card says it. -/
theorem forgotten_stays_hidden (env : Env) (isBlank : String → Bool) (manages : Bool)
    {o₀ : Organization} {o o₁ : Rulebook} {c : CardRuleCommand} {id : RuleId} {x : SuppressionRow}
    {header : CardHeader} {s : Repository} (h₀ : o₀.Unused)
    (hreach : Relation.ReflTransGen (OrganizationStep env) o₀ o.toOrganization)
    (haction : c.action = .forgetCurrent) (hnew : o.receipts.get c.idempotencyKey = none)
    (hheader : header ∈ readableHeaders o.toRepository) (hcard : header.cardId = c.cardId)
    (happly : applyCardRule env isBlank o manages c = .ok (o₁, id, x))
    (hconfined : ∀ other ∈ cardHeaders o.toRepository,
      (header.forgotten env o.toRepository c.sourceId.isSome).IsSaidBy env o.toRepository
          other.card.sourceId other.revisionId other.revision →
        (header.forgotten env o.toRepository c.sourceId.isSome).Covers other.cardId other.revision)
    (hrun : Reach (callStep env)
      (fun t call _ => (header.forgotten env o.toRepository c.sourceId.isSome).Confines env t call)
      o₁.toRepository s)
    (limit : Nat) (cards : List CardRecord) (hlist : listCards s limit = .ok cards) :
    ∀ card ∈ cards, ∀ r, s.cardRevisions.get card.revisionId = some r →
      ¬ (header.forgotten env o.toRepository c.sourceId.isSome).IsSaidBy env s card.sourceId
        card.revisionId r := by
  have hhides : c.action.hides := by
    rw [haction]
    rfl
  have hof : header ∈ cardHeaders o.toRepository := (mem_filter.mp hheader).1
  obtain ⟨hbinds, hinsert, hrelabels⟩ := applyCardRule_spec hhides hnew hof hcard happly
  have hfiled := (reach_filed h₀ hreach).repository
  have hguarded : Guarded env (header.forgotten env o.toRepository c.sourceId.isSome) id x
      o₁.toRepository := by
    rw [hrelabels.repository]
    refine ⟨{ hfiled with }, ?_, ?_⟩
    · show o₁.suppressions.get id = some x
      rw [Keyed.get_insert hinsert, if_pos rfl]
    · intro cardId card rid r hget hcurrent hr hsaid
      have hsource : card.sourceId = header.card.sourceId := hsaid.1
      refine hconfined ⟨cardId, card, rid, r, header.source⟩ ?_ hsaid
      exact mem_cardHeaders.mpr ⟨hget, hcurrent, hr, hsource ▸ (mem_cardHeaders.mp hof).2.2.2⟩
  obtain ⟨-, hrule, hcovered⟩ := hguarded.run hrun
  intro record hrecord r hr hsaid
  obtain ⟨shown, hshown, hbuild⟩ := header_of_listed hlist hrecord
  obtain ⟨-, hrid, hsourceId, -⟩ := ids_of_record hbuild
  rw [hrid] at hr hsaid
  rw [hsourceId] at hsaid
  obtain ⟨hentry, hjoin, hread⟩ := mem_readableHeaders.mp hshown
  obtain ⟨-, hcurrent, hrevision, -⟩ := cardHeader_eq_some_iff.mp hjoin
  obtain rfl : shown.revision = r := Option.some.inj (hrevision.symm.trans hr)
  have hcovers := hcovered _ _ _ _ (Keyed.get_eq_some_iff.mpr hentry) hcurrent hrevision hsaid
  -- the rule is among those that the reader looks at
  have hhidden : (s.suppressions.rows.any fun y => y.2.hidesCard s shown) :=
    any_eq_true.mpr ⟨(id, x), Keyed.get_eq_some_iff.mp hrule,
      hbinds.hides hhides hsaid.1 hcovers⟩
  unfold CardHeader.isReadable at hread
  rw [hhidden] at hread
  simp at hread

/-! A note whose card is forgotten, and what comes after. -/

instance Forgotten.decidableIsSaidBy (env : Env) (f : Forgotten) (s : Repository) (sourceId : SourceId)
    (revisionId : CardRevisionId) (r : CardRevisionRow) :
    Decidable (f.IsSaidBy env s sourceId revisionId r) := inferInstanceAs (Decidable (_ ∧ _ ∧ _))

instance Forgotten.decidableCovers (f : Forgotten) (cardId : MemoryCardId) (r : CardRevisionRow) :
    Decidable (f.Covers cardId r) := inferInstanceAs (Decidable (_ ∧ (_ → _)))

instance Forgotten.decidableConfines (env : Env) (f : Forgotten) (s : Repository) (call : Call) :
    Decidable (f.Confines env s call) :=
  match call with
  | .apply id => decidable_of_iff
      (∀ p ∈ snapshotsOf s id, ∀ r ∈ s.cardRevisions.get p.2.cardRevisionId,
        f.IsSaidBy env s p.2.sourceId p.2.cardRevisionId r → f.Covers p.2.cardId r) Iff.rfl
  | .register _ | .start _ | .finish _ _ _ | .prepare _ _ _ | .markWritten _ _ _ | .reject _ _
  | .cancel _ _ | .invalidate _ _ _ | .invalidateAll _ _ => .isTrue trivial

/-- The request to forget the card of the note. -/
def forgetNote (sourceId : Option SourceId) : CardRuleCommand where
  cardId := 1
  sourceId
  sourceRevisionId := none
  action := .forgetCurrent
  policy := ""
  expectedParentRevision := none
  expectedRulesRevision := none
  idempotencyKey := "forget"
  actor := "owner"
  newId := 1

/-- The note is edited and extracted anew. -/
def editingRun (observation : ObservationInput) : List Call :=
  [.register { noteRegistration with fileRevision := 2, contentHash := "edited", newRevisionId := 2 },
    .start ⟨2, 1, 2, "edited", "profile", "second", "second", 0⟩,
    .prepare 2 [observation] [noteCard 1 2 (some 1) 2 "topic" 2], .markWritten 2 7 2, .apply 2]

/-- Extracted again, under another title. -/
def retitlingRun : List Call :=
  [.start (noteStart 2 "second"),
    .prepare 2 [noteObservation 2] [noteCard 2 2 none 1 "other title" 2], .markWritten 2 8 1, .apply 2]

/-- The first card of the note. -/
def noteHeader? : Option CardHeader := (readableHeaders publishedNote).head?

/-- The cards that say what was forgotten. -/
def titlesThatReturn (c : CardRuleCommand) (calls : List Call) : Option (List String) := do
  let header ← noteHeader?
  let out ← (applyCardRule plainEnv (fun _ => false) (rulesOver publishedNote) true c).toOption
  let s ← run (callStep plainEnv) out.1.toRepository calls
  let cards ← (listCards s 200).toOption
  pure ((cards.filter fun card => (s.cardRevisions.get card.revisionId).any fun r =>
    decide ((header.forgotten plainEnv publishedNote c.sourceId.isSome).IsSaidBy plainEnv s card.sourceId
      card.revisionId r)).map CardRecord.title)

/-- After an edit the listed card says something else. -/
theorem forgotten_stays_hidden_edited : ∃ header o₁ id x s cards,
    header ∈ readableHeaders publishedNote ∧
    applyCardRule plainEnv (fun _ => false) (rulesOver publishedNote) true (forgetNote (some 1)) =
      .ok (o₁, id, x) ∧
    Reach (callStep plainEnv) Always o₁.toRepository s ∧
    listCards s 200 = .ok cards ∧ cards.length = 1 ∧
    ∀ card ∈ cards, ∀ r, s.cardRevisions.get card.revisionId = some r →
      ¬ (CardHeader.forgotten plainEnv publishedNote header true).IsSaidBy plainEnv s card.sourceId
        card.revisionId r := by
  have hrun : (noteHeader?.bind fun header =>
      (applyCardRule plainEnv (fun _ => false) (rulesOver publishedNote) true
          (forgetNote (some 1))).toOption.bind fun out =>
        (runWhere (callStep plainEnv)
            (fun t call _ => (header.forgotten plainEnv publishedNote true).Confines plainEnv t call)
            out.1.toRepository (editingRun { noteObservation 2 with statement := "edited" })).bind fun s =>
          (listCards s 200).toOption.map fun cards =>
            (decide (header.cardId = 1), cards.length,
              decide (∀ other ∈ cardHeaders publishedNote,
                (header.forgotten plainEnv publishedNote true).IsSaidBy plainEnv publishedNote
                    other.card.sourceId other.revisionId other.revision →
                  (header.forgotten plainEnv publishedNote true).Covers other.cardId other.revision))) =
      some (true, 1, true) := by
    decide +kernel
  obtain ⟨header, hheader, hrun⟩ := bind_eq_some_iff.mp hrun
  obtain ⟨⟨o₁, id, x⟩, happly, hrun⟩ := bind_eq_some_iff.mp hrun
  obtain ⟨s, hreach, hrun⟩ := bind_eq_some_iff.mp hrun
  obtain ⟨cards, hlist, hview⟩ := map_eq_some_iff.mp hrun
  simp only [Prod.mk.injEq, decide_eq_true_eq] at hview
  obtain ⟨hcard, hlength, hconfined⟩ := hview
  have hmem : header ∈ readableHeaders publishedNote := mem_of_head? hheader
  have hreach := Reach.of_runWhere hreach
  have happly := toOption_eq_some_iff.mp happly
  have hlist := toOption_eq_some_iff.mp hlist
  refine ⟨header, o₁, id, x, s, cards, hmem, happly, hreach.always, hlist, hlength, ?_⟩
  exact forgotten_stays_hidden plainEnv (fun _ => false) true
    ⟨⟨rfl, rfl, rfl, rfl, rfl⟩, rfl, rfl, rfl⟩ publishedNote_reached rfl Keyed.get_empty hmem hcard
    happly hconfined hreach 200 cards hlist

/-- It returns under another title, or after an edit. -/
theorem forgotten_returns :
    titlesThatReturn (forgetNote none) retitlingRun = some ["other title"] ∧
      titlesThatReturn (forgetNote (some 1)) (editingRun (noteObservation 2)) = some ["topic"] := by
  constructor <;> decide +kernel

end SemanticMemory
