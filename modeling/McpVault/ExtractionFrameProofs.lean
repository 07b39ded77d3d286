import McpVault.ComposedCardProofs

/-! # What an extraction without success changes for readers

An extraction that fails or is cancelled has advanced the commit sequence of its source, and
perhaps stored rows that nothing reads yet.  Readers of single cards and relations ignore the
sequence; readers of composed cards and candidates lose all observations of the source when it
starts. -/

namespace SemanticMemory

open KeyedTable Transition List
open Fallible (bind_ok_iff)
open VaultDomain (FileId VaultPath Revision)
open Keyed (get_modify get_of_empty get_set get_set_ne isSome_kept mem_select update_eq)
open Option (isSome_iff_exists isSome_map map_eq_some_iff some.inj)

/-! ## Relations and candidates -/

/-- A listed relation. -/
structure SemanticRelationRecord where
  id : RelationDecisionId
  (relationKind reasonCode : String)
  (leftSourceId rightSourceId : SourceId)
  (leftObservationId rightObservationId : ObservationId)

/-- A source is eligible, not pending, and at a revision. -/
def SourceView.isAt (source : SourceView) (revisionId : SourceRevisionId) : Bool :=
  decide (source.currentRevisionId = some revisionId) && source.eligible && !source.pendingRebuild

def sourceIsAt (s : Repository) (sourceId : SourceId) (revisionId : SourceRevisionId) : Bool :=
  ((s.sources.get sourceId).map SourceRow.view).any fun v => v.isAt revisionId

/-- An accepted relation of current revisions. -/
def relationRecord (o : Organization) (d : RelationDecisionId × RelationDecisionRow) :
    Option SemanticRelationRecord := do
  let c ← o.relationCandidates.get d.2.candidateId
  if d.2.state = .accepted ∧ sourceIsAt o.toRepository c.leftSourceId c.leftSourceRevisionId ∧
      sourceIsAt o.toRepository c.rightSourceId c.rightSourceRevisionId then
    some ⟨d.1, d.2.relationKind, d.2.reasonCode, c.leftSourceId, c.rightSourceId,
      c.leftObservationId, c.rightObservationId⟩
  else none

/-- `list_current_relations`. -/
def listCurrentRelations (o : Organization) (limit : Nat) :
    Except StateError (List SemanticRelationRecord) := do
  ensure (limit ≠ 0 ∧ limit ≤ 200)
    (.invalidInput "semantic relation limit must be between 1 and 200")
  pure (((o.relationDecisions.rows.insertionSort fun a b => a.1 ≤ b.1).filterMap
    (relationRecord o)).take limit)

/-- A rule's card has an item from an observation. -/
def boundCardHas (s : Repository) (x : RuleRow) (id : ObservationId) (o : ObservationRow) : Bool :=
  x.cardId.any fun cardId =>
    (s.cards.get cardId).any fun card => decide (card.sourceId = o.sourceId) &&
      card.currentRevisionId.any fun revisionId =>
        (s.cardRevisions.get revisionId).any fun r =>
          decide (r.sourceRevisionId = o.sourceRevisionId) && hasItemFrom s revisionId id

/-- A rule against an observation for discovery. -/
def SuppressionRow.hidesObservation (s : Repository) (x : SuppressionRow) (id : ObservationId)
    (o : ObservationRow) : Bool :=
  let bounds := x.sourceRevisionId.all (fun r => decide (r = o.sourceRevisionId)) &&
    x.observationId.all fun n => decide (n = id)
  x.active && x.action.hides && x.composedCardId.isNone &&
    (x.cardId.isNone && decide (x.sourceId = some o.sourceId) && bounds ||
      x.sourceId.all (fun n => decide (n = o.sourceId)) && bounds &&
        boundCardHas s x.toRuleRow id o)

/-- The rows that `current_observations` selects. -/
def observationIsCurrent (s : Repository) (id : ObservationId) (o : ObservationRow) : Bool :=
  (s.sources.get o.sourceId).any fun source =>
    (s.extractions.get o.extractionSetId).any fun set =>
      decide (set.sourceId = o.sourceId ∧ source.eligible ∧ source.pendingRebuild = false ∧
        source.currentRevisionId = some o.sourceRevisionId ∧ set.state = .successNonempty ∧
        set.extractionCommitSequence = source.extractionCommitSequence) &&
      !(s.suppressions.rows.any fun x => x.2.hidesObservation s id o)

/-- An observation as discovery sees it. -/
structure OrganizationObservation where
  id : ObservationId
  row : ObservationRow
  evidenceRefId : EvidenceRefId
  deriving DecidableEq

/-- An observation with each validated evidence. -/
def withEvidence (s : Repository) (r : ObservationId × ObservationRow) :
    List OrganizationObservation :=
  (r.2.evidence.filter fun id => (s.evidence.get id).any fun e =>
    decide (e.sourceId = r.2.sourceId ∧ e.validated)).map fun id => ⟨r.1, r.2, id⟩

/-- `ORDER BY local_observation_key, evidence_ref_id`. -/
def OrganizationObservation.Precedes (a b : OrganizationObservation) : Prop :=
  a.row.localKey < b.row.localKey ∨
    a.row.localKey = b.row.localKey ∧ a.evidenceRefId ≤ b.evidenceRefId

instance : DecidableRel OrganizationObservation.Precedes :=
  fun _ _ => inferInstanceAs (Decidable (_ ∨ _))

/-- `current_observations`, for one source. -/
def currentObservationsOf (s : Repository) (sourceId : SourceId) : List OrganizationObservation :=
  ((s.observations.select fun id o => decide (o.sourceId = sourceId) &&
    observationIsCurrent s id o).flatMap (withEvidence s)).insertionSort
      OrganizationObservation.Precedes

variable {env : Env} {s s' : Repository} {id : ExtractionSetId} {cardId : ComposedCardId}

/-- Rows refer to existing rows; no set is ahead. -/
structure Repository.Filed (s : Repository) : Prop where
  sets : ∀ id e, s.extractions.get id = some e → ∃ source, s.sources.get e.sourceId = some source ∧
    e.extractionCommitSequence ≤ source.extractionCommitSequence
  observations : ∀ id o, s.observations.get id = some o → s.Grounds o
  items : ∀ id item, s.items.get id = some item → s.Links item
  cards : ∀ id card revisionId, s.cards.get id = some card →
    card.currentRevisionId = some revisionId → (s.cardRevisions.get revisionId).isSome
  revisions : ∀ id r, s.cardRevisions.get id = some r →
    (s.extractions.get r.extractionSetId).isSome
  snapshots : ∀ id p, s.snapshots.get id = some p →
    (s.cardRevisions.get p.cardRevisionId).isSome

structure Organization.Filed (o : Organization) : Prop where
  repository : o.toRepository.Filed
  members : ∀ id m, o.supportMembers.get id = some m →
    (o.observations.get m.observationId).isSome ∧
      (o.evidence.get m.evidenceRefId).isSome

/-- What others do: only the life cycle's tables stay. -/
structure Organization.Elsewhere (o o' : Organization) : Prop where
  sources : o'.sources = o.sources
  extractions : o'.extractions = o.extractions
  observations : o'.observations = o.observations
  evidence : o'.evidence = o.evidence
  cardRevisions : o'.cardRevisions = o.cardRevisions
  items : o'.items = o.items
  snapshots : o'.snapshots = o.snapshots
  cards : ∀ id card', o'.cards.get id = some card' → ∃ card, o.cards.get id = some card ∧
    card'.currentRevisionId = card.currentRevisionId
  members : ∀ id m, o'.supportMembers.get id = some m →
    (o'.observations.get m.observationId).isSome ∧
      (o'.evidence.get m.evidenceRefId).isSome

/-- A call of the life cycle, or of other parts. -/
inductive OrganizationStep (env : Env) : Organization → Organization → Prop
  | call {o : Organization} {s' : Repository} (c : Call) (h : exec env o.toRepository c = .ok s') :
      OrganizationStep env o { o with toRepository := s' }
  | elsewhere {o o' : Organization} (h : o.Elsewhere o') : OrganizationStep env o o'

/-- Nothing was extracted or composed yet. -/
structure Organization.Unused (o : Organization) : Prop where
  repository : o.toRepository.Unused
  observations : o.observations = .empty
  items : o.items = .empty
  members : o.supportMembers = .empty

/-- One call keeps rows; new ones refer to existing ones. -/
structure Grows (s s' : Repository) : Prop where
  sources : ∀ id source, s.sources.get id = some source → ∃ source',
    s'.sources.get id = some source' ∧
      source.extractionCommitSequence ≤ source'.extractionCommitSequence
  sets : ∀ id e', s'.extractions.get id = some e' →
    (∃ e, s.extractions.get id = some e ∧ e'.capture = e.capture) ∨
      ∃ source', s'.sources.get e'.sourceId = some source' ∧
        e'.extractionCommitSequence ≤ source'.extractionCommitSequence
  setsKept : ∀ id, (s.extractions.get id).isSome → (s'.extractions.get id).isSome
  observations : ∀ id, (s.observations.get id).isSome →
    (s'.observations.get id).isSome
  evidence : ∀ id, (s.evidence.get id).isSome → (s'.evidence.get id).isSome
  grounds : ∀ id o, s'.observations.get id = some o → s.observations.get id = some o ∨ s'.Grounds o
  items : ∀ id item, s'.items.get id = some item → s.items.get id = some item ∨ s'.Links item
  revisions : ∀ id r', s'.cardRevisions.get id = some r' →
    (∃ r, s.cardRevisions.get id = some r ∧ r'.extractionSetId = r.extractionSetId) ∨
      (s'.extractions.get r'.extractionSetId).isSome
  revisionsKept : ∀ id, (s.cardRevisions.get id).isSome →
    (s'.cardRevisions.get id).isSome
  cards : ∀ id card' revisionId, s'.cards.get id = some card' →
    card'.currentRevisionId = some revisionId →
      (∃ card, s.cards.get id = some card ∧ card.currentRevisionId = some revisionId) ∨
        (s'.cardRevisions.get revisionId).isSome
  snapshots : ∀ id p', s'.snapshots.get id = some p' →
    (∃ p, s.snapshots.get id = some p ∧ p'.cardRevisionId = p.cardRevisionId) ∨
      (s'.cardRevisions.get p'.cardRevisionId).isSome

theorem Repository.Filed.grow (hs : s.Filed) (h : Grows s s') : s'.Filed where
  sets := by
    intro id e' he'
    rcases h.sets id e' he' with ⟨e, he, hcap⟩ | hnew
    · obtain ⟨source, hsource, hle⟩ := hs.sets id e he
      obtain ⟨source', hsource', hle'⟩ := h.sources _ source hsource
      have hsrc : e'.sourceId = e.sourceId := congrArg Capture.sourceId hcap
      have hseq : e'.extractionCommitSequence = e.extractionCommitSequence :=
        congrArg Capture.extractionCommitSequence hcap
      refine ⟨source', hsrc ▸ hsource', ?_⟩
      rw [hseq]
      exact hle.trans hle'
    · exact hnew
  observations := by
    intro id o ho
    rcases h.grounds id o ho with hold | hgrounds
    · exact fun eid heid => h.evidence eid (hs.observations id o hold eid heid)
    · exact hgrounds
  items := by
    intro id item hitem
    rcases h.items id item hitem with hold | hlinks
    · exact (hs.items id item hold).mono h.observations h.evidence
    · exact hlinks
  cards := by
    intro id card' revisionId hcard' hcurrent
    rcases h.cards id card' revisionId hcard' hcurrent with ⟨card, hcard, hold⟩ | hnew
    · exact h.revisionsKept _ (hs.cards id card revisionId hcard hold)
    · exact hnew
  revisions := by
    intro id r' hr'
    rcases h.revisions id r' hr' with ⟨r, hr, hset⟩ | hnew
    · rw [hset]
      exact h.setsKept _ (hs.revisions id r hr)
    · exact hnew
  snapshots := by
    intro id p' hp'
    rcases h.snapshots id p' hp' with ⟨p, hp, hrev⟩ | hnew
    · rw [hrev]
      exact h.revisionsKept _ (hs.snapshots id p hp)
    · exact hnew

theorem Retires.observations (h : Retires s s') : s'.observations = s.observations := by rw [h.rest]

theorem Retires.items (h : Retires s s') : s'.items = s.items := by rw [h.rest]

theorem Retires.evidence_kept (h : Retires s s') (id : EvidenceRefId)
    (hid : (s.evidence.get id).isSome) : (s'.evidence.get id).isSome := by
  obtain ⟨e, he⟩ := isSome_iff_exists.mp hid
  obtain ⟨valid, he'⟩ := h.evidence id e he
  rw [he']
  rfl

theorem Retires.grows (h : Retires s s') : Grows s s' where
  sources := by
    intro id source hsource
    obtain ⟨source', hsource', hseq, -⟩ := h.sources id source hsource
    exact ⟨source', hsource', hseq.ge⟩
  sets := fun id e' he' => .inl ⟨e', h.extractions ▸ he', rfl⟩
  setsKept := fun id hid => h.extractions ▸ hid
  observations := fun id hid => h.observations ▸ hid
  evidence := h.evidence_kept
  grounds := fun id o ho => .inl (h.observations ▸ ho)
  items := fun id item hitem => .inl (h.items ▸ hitem)
  revisions := fun id r' hr' => .inl ⟨r', h.cardRevisions ▸ hr', rfl⟩
  revisionsKept := fun id hid => h.cardRevisions ▸ hid
  cards := by
    intro id card' revisionId hcard' hcurrent
    obtain ⟨card, hcard, -, hsame⟩ := h.currents hcard'
    exact .inl ⟨card, hcard, hsame ▸ hcurrent⟩
  snapshots := fun id p' hp' => .inl ⟨p', h.snapshots ▸ hp', rfl⟩

section

variable {f : ExtractionSetId → ExtractionRow → ExtractionRow}
  {g : CardRevisionId → CardRevisionRow → CardRevisionRow}
  {k : PreparedSnapshotId → SnapshotRow → SnapshotRow}
  (he : s'.extractions = s.extractions.modify f)
  (hr : s'.cardRevisions = s.cardRevisions.modify g)
  (hp : s'.snapshots = s.snapshots.modify k) (hf : ∀ id e, (f id e).capture = e.capture)
  (hg : ∀ id r, (g id r).fixed = r.fixed) (hk : ∀ id p, (k id p).fixed = p.fixed)

include he hr hp hf hg hk

/-- Sets, revisions and snapshots are rewritten. -/
theorem Grows.of_modify
    (hsources : ∀ id source, s.sources.get id = some source → ∃ source',
      s'.sources.get id = some source' ∧
        source.extractionCommitSequence ≤ source'.extractionCommitSequence)
    (hrest : s'.observations = s.observations ∧ s'.items = s.items)
    (hevidence : ∀ id, (s.evidence.get id).isSome → (s'.evidence.get id).isSome)
    (hcards : ∀ id card' revisionId, s'.cards.get id = some card' →
      card'.currentRevisionId = some revisionId →
        (∃ card, s.cards.get id = some card ∧ card.currentRevisionId = some revisionId) ∨
          (s'.cardRevisions.get revisionId).isSome) : Grows s s' where
  sources := hsources
  sets := by
    intro id e' he'
    rw [he, get_modify] at he'
    obtain ⟨e, hold, rfl⟩ := map_eq_some_iff.mp he'
    exact .inl ⟨e, hold, hf id e⟩
  setsKept := by
    intro id hid
    rw [he, get_modify, isSome_map]
    exact hid
  observations := fun id hid => hrest.1 ▸ hid
  evidence := hevidence
  grounds := fun id o ho => .inl (hrest.1 ▸ ho)
  items := fun id item hitem => .inl (hrest.2 ▸ hitem)
  revisions := by
    intro id r' hr'
    rw [hr, get_modify] at hr'
    obtain ⟨r, hold, rfl⟩ := map_eq_some_iff.mp hr'
    exact .inl ⟨r, hold, CardRevisionRow.set_of_fixed (hg id r)⟩
  revisionsKept := by
    intro id hid
    rw [hr, get_modify, isSome_map]
    exact hid
  cards := hcards
  snapshots := by
    intro id p' hp'
    rw [hp, get_modify] at hp'
    obtain ⟨p, hold, rfl⟩ := map_eq_some_iff.mp hp'
    exact .inl ⟨p, hold, (SnapshotRow.ids_of_fixed (hk id p)).2.2⟩

/-- A call that leaves the sources and the cards alone. -/
theorem Grows.of_modify_same
    (hrest : s'.observations = s.observations ∧ s'.items = s.items ∧ s'.evidence = s.evidence)
    (hsources : s'.sources = s.sources) (hcards : s'.cards = s.cards) : Grows s s' := by
  refine Grows.of_modify he hr hp hf hg hk ?_ ⟨hrest.1, hrest.2.1⟩ (fun id hid => hrest.2.2 ▸ hid) ?_
  · exact fun id source hsource => ⟨source, hsources ▸ hsource, le_rfl⟩
  · exact fun id card' revisionId hcard' hcurrent => .inl ⟨card', hcards ▸ hcard', hcurrent⟩

end

theorem Closes.grows (h : Closes s s' id) : Grows s s' := by
  obtain ⟨f, hf, hsets⟩ := h.extractions
  obtain ⟨g, hg, hsnap⟩ := h.snapshots
  obtain ⟨k, hk, hrev⟩ := h.revisions
  exact Grows.of_modify_same hf hk hg (fun eid e => (hsets eid e).1) (fun rid r => (hrev rid r).1)
    (fun pid p => (hsnap pid p).1) ⟨by rw [h.rest], by rw [h.rest], by rw [h.rest]⟩ h.sources h.cards

/-- A set that ended, and what its end retired. -/
theorem ended_grows {state : FinishState} {code : Option String}
    (h : Retires (endedSet s id state code) s') : Grows s s' := by
  refine Grows.of_modify
    (h.extractions.trans (Keyed.set_eq _ _ _)) (h.cardRevisions.trans (Keyed.modify_id _).symm)
    (h.snapshots.trans (Keyed.modify_id _).symm) ?_ (fun _ _ => rfl) (fun _ _ => rfl) ?_
    ⟨h.observations, h.items⟩ h.evidence_kept ?_
  · intro eid e
    split <;> rfl
  · intro sid source hsource
    obtain ⟨source', hsource', hseq, -⟩ := h.sources sid source hsource
    exact ⟨source', hsource', hseq.ge⟩
  · intro cid card' rid hcard' hcurrent
    obtain ⟨card, hcard, -, hsame⟩ := h.currents hcard'
    exact .inl ⟨card, hcard, hsame ▸ hcurrent⟩

variable {rid : CardRevisionId} {discovery : DiscoveryEnv} {cards : List CardRevisionInput}
  {observations : List ObservationInput} {o : Organization} {n sourceId : SourceId}
  {i : StartInput}

theorem startExtraction_grows {out : ExtractionSetId × Bool}
    (h : startExtraction env s i = .ok (s', out)) : Grows s s' := by
  obtain ⟨rfl, -⟩ | ⟨source, targets, extractions, idempotency, e, -, hsource, -, hinsert, -, hsrc, hseq,
    rfl⟩ := startExtraction_cases h
  · exact (Retires.refl s').grows
  refine ⟨?_, ?_, ?_, fun _ h => h, fun _ h => h, fun _ _ h => .inl h, fun _ _ h => .inl h,
    fun _ r hr => .inl ⟨r, hr, rfl⟩, fun _ h => h, fun _ card _ hcard hcurrent => .inl ⟨card, hcard, hcurrent⟩,
    fun _ p hp => .inl ⟨p, hp, rfl⟩⟩
  · intro id row hrow
    obtain ⟨row', hrow', hle, -⟩ := get_advanced i.sourceId hrow
    exact ⟨row', hrow', hle⟩
  · intro id e' he'
    rcases Keyed.get_of_insert hinsert he' with ⟨rfl, rfl⟩ | hold
    · obtain ⟨row', hrow', -, hlt, -⟩ := get_advanced i.sourceId hsource
      refine .inr ⟨row', hsrc ▸ hrow', ?_⟩
      rw [hseq]
      exact hlt rfl
    · exact .inl ⟨e', hold, rfl⟩
  · exact fun id hid => isSome_kept (fun _ => Keyed.get_insert_of_some hinsert) hid

theorem preparePublication_grows (h : preparePublication env s id observations cards = .ok s') :
    Grows s s' := by
  obtain ⟨e, source, revision, s₁, he, -, -, -, -, hprep, rfl⟩ := preparePublication_spec h
  have hset : ∀ eid, (s.extractions.get eid).isSome →
      ((s₁.extractions.set id fun row =>
        { row with
          state := .prepared
          observationCount := observations.length
          cardCount := cards.length }).get eid).isSome := by
    intro eid heid
    rw [hprep.extractions, Keyed.set_eq, get_modify, isSome_map]
    exact heid
  have hid : (s.extractions.get id).isSome := by
    rw [he]
    rfl
  refine ⟨?_, ?_, hset, ?_, ?_, ?_, ?_, ?_, ?_, ?_, ?_⟩
  · exact fun sid row hrow => ⟨row, hprep.sources ▸ hrow, le_rfl⟩
  · intro eid e' he'
    replace he' := (get_set _).symm.trans he'
    rw [hprep.extractions] at he'
    by_cases heid : eid = id
    · rw [if_pos heid] at he'
      obtain ⟨row, hrow, rfl⟩ := map_eq_some_iff.mp he'
      exact .inl ⟨row, hrow, rfl⟩
    · rw [if_neg heid] at he'
      exact .inl ⟨e', he', rfl⟩
  · exact fun _ hobs => isSome_kept (fun _ => hprep.observations.get_kept) hobs
  · exact fun eid hev => isSome_kept (hprep.evidence eid) hev
  · intro oid o ho
    exact (hprep.observations.get_cases ho).imp_right And.right
  · intro iid item hitem
    exact (hprep.items.get_cases hitem).imp_right And.left
  · intro rid r hr
    rcases hprep.revisions.get_cases hr with hold | hnew
    · exact .inl ⟨r, hold, rfl⟩
    · rw [hnew]
      exact .inr (hset id hid)
  · exact fun _ hrev => isSome_kept (fun _ => hprep.revisions.get_kept) hrev
  · intro cid card rid hcard hcurrent
    rcases hprep.cards.get_cases hcard with hold | ⟨hnone, -⟩
    · exact .inl ⟨card, hold, hcurrent⟩
    · rw [hnone] at hcurrent
      cases hcurrent
  · intro pid p hp
    rcases hprep.snapshots.get_cases hp with hold | ⟨-, -, r, hr, -⟩
    · exact .inl ⟨p, hold, rfl⟩
    · refine .inr ?_
      show (s₁.cardRevisions.get p.cardRevisionId).isSome
      rw [hr]
      rfl

theorem applyPublication_grows (hs : s.Filed) (h : applyPublication s id = .ok s')
    : Grows s s' := by
  obtain ⟨sourceId, source, snapshots, hsnap, -, -, -, -, guard, hs'⟩ := applyPublication_spec h
  refine Grows.of_modify ((congrArg Repository.extractions hs').trans (update_eq _ _ _))
    (by rw [hs']) (by rw [hs']) ?_ (publishedRevision_fixed snapshots)
    (appliedSnapshot_fixed snapshots) ?_ ⟨by rw [hs'], by rw [hs']⟩ (fun _ hid => by rwa [hs']) ?_
  · intro eid e
    split <;> rfl
  · intro sid row hrow
    rw [hs']
    obtain ⟨row', hrow', hseq, -⟩ := get_madeEligible guard hrow
    exact ⟨row', hrow', hseq.ge⟩
  · intro cid card' rid hcard' hcurrent
    rw [hs'] at hcard'
    obtain ⟨row, hrow, rfl⟩ := map_eq_some_iff.mp ((get_modify _).symm.trans hcard')
    obtain ⟨old, hold, hinv⟩ := map_eq_some_iff.mp ((Keyed.get_update _ _).symm.trans hrow)
    rcases publishedCard_cases snapshots cid row with ⟨hsame, -⟩ | ⟨p, hp, -, hpub⟩
    · refine .inl ⟨old, hold, ?_⟩
      rw [hsame, ← hinv] at hcurrent
      split at hcurrent <;> exact hcurrent
    · -- the revision of a snapshot
      rw [hpub] at hcurrent
      obtain rfl := some.inj hcurrent
      have hrev := hs.snapshots p.1 p.2 (mem_snapshotsOf.mp (hsnap ▸ hp)).1
      refine .inr ?_
      rw [hs', get_modify, isSome_map]
      exact hrev

/-- What any call does to the tables. -/
theorem exec_grows {call : Call} (hs : s.Filed) (h : exec env s call = .ok s') : Grows s s' := by
  obtain ⟨hret, -⟩ | ⟨id, hcloses⟩ | ⟨i, out, -, hout, rfl⟩ | ⟨id, state, code, -, hfinish⟩ |
    ⟨id, observations, cards, -, hprepare⟩ | ⟨id, fileId, revision, -, hmark⟩ | ⟨id, -, happly⟩ :=
    exec_cases h
  · exact hret.grows
  · exact hcloses.grows
  · exact startExtraction_grows hout
  · obtain ⟨e, source, revision, -, -, -, ⟨-, rfl⟩ | ⟨-, -, hret, -⟩⟩ := finish_spec hfinish
    · exact ended_grows (Retires.refl _)
    · exact ended_grows hret
  · exact preparePublication_grows hprepare
  · obtain ⟨p, source, -, -, -, -, rfl⟩ := markSnapshotWritten_spec hmark
    refine Grows.of_modify_same (Keyed.modify_id _).symm
      (update_eq _ _ _) (Keyed.set_eq _ _ _) (fun _ _ => rfl) ?_ ?_ ⟨rfl, rfl, rfl⟩ rfl rfl
    · intro rid r
      split <;> rfl
    · intro pid q
      split <;> rfl
  · exact applyPublication_grows hs happly

/-- One step of the whole keeps the references. -/
theorem OrganizationStep.filed {o' : Organization} (ho : o.Filed)
    (h : OrganizationStep env o o') : o'.Filed := by
  cases h with
  | call c h =>
    have hgrows := exec_grows ho.repository h
    refine ⟨ho.repository.grow hgrows, ?_⟩
    intro id m hm
    obtain ⟨hobs, hev⟩ := ho.members id m hm
    exact ⟨hgrows.observations _ hobs, hgrows.evidence _ hev⟩
  | elsewhere h =>
    obtain ⟨hsources, hsets, hobs, hev, hrevs, hitems, hsnaps, hcards, hmembers⟩ := h
    refine ⟨⟨?_, ?_, ?_, ?_, ?_, ?_⟩, hmembers⟩
    · rw [hsets, hsources]
      exact ho.repository.sets
    · intro id row hrow eid heid
      rw [hobs] at hrow
      rw [hev]
      exact ho.repository.observations id row hrow eid heid
    · intro id item hitem
      rw [hitems] at hitem
      refine (ho.repository.items id item hitem).mono ?_ ?_
      · exact fun _ h => hobs ▸ h
      · exact fun _ h => hev ▸ h
    · intro id card' rid hcard' hcurrent
      obtain ⟨card, hcard, hsame⟩ := hcards id card' hcard'
      rw [hrevs]
      exact ho.repository.cards id card rid hcard (hsame ▸ hcurrent)
    · rw [hrevs, hsets]
      exact ho.repository.revisions
    · rw [hsnaps, hrevs]
      exact ho.repository.snapshots

theorem Organization.Unused.filed (h : o.Unused) : o.Filed := by
  refine ⟨⟨?_, ?_, ?_, ?_, ?_, ?_⟩, ?_⟩
  · exact fun _ _ he => (get_of_empty h.repository.extractions he).elim
  · exact fun _ _ hrow => (get_of_empty h.observations hrow).elim
  · exact fun _ _ hitem => (get_of_empty h.items hitem).elim
  · exact fun _ _ _ hcard => (get_of_empty h.repository.cards hcard).elim
  · exact fun _ _ hr => (get_of_empty h.repository.cardRevisions hr).elim
  · exact fun _ _ hp => (get_of_empty h.repository.snapshots hp).elim
  · exact fun _ _ hm => (get_of_empty h.members hm).elim

theorem reach_filed {o₀ : Organization} (h₀ : o₀.Unused)
    (h : Relation.ReflTransGen (OrganizationStep env) o₀ o) : o.Filed := by
  induction h with
  | refl => exact h₀.filed
  | tail _ hstep ih => exact hstep.filed ih

/-! ## What an attempt leaves unread -/

/-- What readers look at in a set. -/
def ExtractionRow.standing (e : ExtractionRow) : Capture × ExtractionState := (e.capture, e.state)

theorem ExtractionRow.of_standing (e : ExtractionRow) {e' : ExtractionRow}
    (h : e.standing = e'.standing) : e.sourceId = e'.sourceId ∧
      e.extractionCommitSequence = e'.extractionCommitSequence ∧ e.state = e'.state :=
  ⟨congrArg (·.1.sourceId) h, congrArg (·.1.extractionCommitSequence) h, congrArg (·.2) h⟩

/-- `s'` is `s` with an unfinished, unpublished set. -/
structure Unread (s s' : Repository) (id : ExtractionSetId) : Prop where
  views : ∀ sourceId, (s'.sources.get sourceId).map SourceRow.view =
    (s.sources.get sourceId).map SourceRow.view
  suppressions : s'.suppressions = s.suppressions
  tasks : s'.tasks = s.tasks
  observations : s.observations.Appends s'.observations fun _ o => o.extractionSetId = id
  evidence : ∀ eid e, s.evidence.get eid = some e → s'.evidence.get eid = some e
  sets : ∀ eid, eid ≠ id → (s'.extractions.get eid).map ExtractionRow.standing =
    (s.extractions.get eid).map ExtractionRow.standing
  unfinished : ∀ e, s'.extractions.get id = some e → e.state ≠ .successNonempty
  cards : s.cards.Appends s'.cards fun _ card => card.currentRevisionId = none
  revisions : ∀ rid r, s.cardRevisions.get rid = some r → ∃ r', s'.cardRevisions.get rid = some r' ∧
    r'.fixed = r.fixed ∧ (r.publicationState = .published → r' = r) ∧
    (r'.publicationState = .published → r' = r)
  items : s.items.Appends s'.items fun _ item => ∃ r, s'.cardRevisions.get item.cardRevisionId = some r ∧
    r.extractionSetId = id

theorem Unread.trans {t u : Repository} (h : Unread s t id) (h' : Unread t u id)
    : Unread s u id where
  views := fun sourceId => (h'.views sourceId).trans (h.views sourceId)
  suppressions := h'.suppressions.trans h.suppressions
  tasks := h'.tasks.trans h.tasks
  observations := h.observations.trans h'.observations
  evidence := fun eid e he => h'.evidence eid e (h.evidence eid e he)
  sets := fun eid hne => (h'.sets eid hne).trans (h.sets eid hne)
  unfinished := h'.unfinished
  cards := h.cards.trans h'.cards
  revisions := by
    intro rid r hr
    obtain ⟨r', hr', hfix, hkeep, hback⟩ := h.revisions rid r hr
    obtain ⟨r'', hr'', hfix', hkeep', hback'⟩ := h'.revisions rid r' hr'
    refine ⟨r'', hr'', hfix'.trans hfix, ?_, ?_⟩
    · intro hpub
      obtain rfl := hkeep hpub
      exact hkeep' hpub
    · intro hpub
      obtain rfl := hback' hpub
      exact hback hpub
  items := by
    refine (h.items.mono ?_).trans h'.items
    rintro _ item ⟨r, hr, hset⟩
    obtain ⟨r', hr', hfix, -⟩ := h'.revisions _ r hr
    exact ⟨r', hr', (CardRevisionRow.set_of_fixed hfix).trans hset⟩

section

variable (h : Unread s s' id) (hs : s.Filed) (hfresh : s.extractions.get id = none)
  (hrid : (s.cardRevisions.get rid).isSome)

include h hs hfresh hrid

/-- Items of a revision that was there are as they were. -/
theorem Unread.items_of (q : CardItemRow → Bool) :
    (s'.items.rows.filter fun r => decide (r.2.cardRevisionId = rid) && q r.2) =
      s.items.rows.filter fun r => decide (r.2.cardRevisionId = rid) && q r.2 := by
  obtain ⟨new, hrows, hnew⟩ := h.items
  rw [hrows, filter_append]
  have hnone : (new.filter fun r => decide (r.2.cardRevisionId = rid) && q r.2) = [] := by
    rw [filter_eq_nil_iff]
    intro item hitem hkeep
    rw [Bool.and_eq_true, decide_eq_true_eq] at hkeep
    obtain ⟨r', hr', hset⟩ := hnew item hitem
    obtain ⟨r, hr⟩ := isSome_iff_exists.mp hrid
    obtain ⟨r'', hr'', hfix, -⟩ := h.revisions rid r hr
    rw [hkeep.1, hr''] at hr'
    obtain rfl := some.inj hr'
    -- the revision would be of the fresh set
    have hold := hs.revisions rid r hr
    rw [← CardRevisionRow.set_of_fixed hfix, hset, hfresh] at hold
    cases hold
  rw [hnone, append_nil]

theorem Unread.hasItemFrom (observationId : ObservationId) :
    hasItemFrom s' rid observationId = hasItemFrom s rid observationId := by
  have hfilter := h.items_of hs hfresh hrid fun i => decide (i.observationId = observationId)
  have hany : ∀ rows : List (CardItemId × CardItemRow),
      (rows.any fun r => decide (r.2.cardRevisionId = rid ∧ r.2.observationId = observationId)) =
        !(rows.filter fun r => decide (r.2.cardRevisionId = rid) &&
          decide (r.2.observationId = observationId)).isEmpty := by
    intro rows
    rw [Bool.eq_iff_iff, Bool.not_eq_true', isEmpty_eq_false_iff, any_eq_true, ne_eq,
      filter_eq_nil_iff]
    simp
  unfold SemanticMemory.hasItemFrom
  rw [hany, hany, hfilter]

end

/-- A card has its old row, or is new and unrevised. -/
theorem Unread.card_cases (h : Unread s s' id) (cardId : MemoryCardId) :
    s'.cards.get cardId = s.cards.get cardId ∨ s.cards.get cardId = none ∧
      ∀ card, s'.cards.get cardId = some card → card.currentRevisionId = none := by
  cases hcard : s.cards.get cardId with
  | some card => exact .inl (h.cards.get_kept hcard)
  | none =>
    refine .inr ⟨rfl, ?_⟩
    intro card hcard'
    rcases h.cards.get_cases hcard' with hold | hnew
    · rw [hcard] at hold
      cases hold
    · exact hnew

/-- What rules look up in a current revision stays. -/
theorem Unread.current_any (h : Unread s s' id) (hs : s.Filed) (cardId : MemoryCardId)
    (c : CardRow → Bool) {q q' : CardRevisionId → CardRevisionRow → Bool}
    (hq : ∀ rid r r', r'.fixed = r.fixed → (s.cardRevisions.get rid).isSome →
      q' rid r' = q rid r) :
    ((s'.cards.get cardId).any fun card => c card && card.currentRevisionId.any fun rid =>
        (s'.cardRevisions.get rid).any (q' rid)) =
      (s.cards.get cardId).any fun card => c card && card.currentRevisionId.any fun rid =>
        (s.cardRevisions.get rid).any (q rid) := by
  rcases h.card_cases cardId with hsame | ⟨hnone, hnew⟩
  · rw [hsame]
    cases hcard : s.cards.get cardId with
    | none => rfl
    | some card =>
      simp only [Option.any_some]
      cases hcurrent : card.currentRevisionId with
      | none => rfl
      | some rid =>
        have hrid := hs.cards cardId card rid hcard hcurrent
        obtain ⟨r, hr⟩ := isSome_iff_exists.mp hrid
        obtain ⟨r', hr', hfix, -⟩ := h.revisions rid r hr
        simp only [Option.any_some, hr, hr', hq rid r r' hfix hrid]
  · rw [hnone]
    cases hcard : s'.cards.get cardId with
    | none => rfl
    | some card =>
      simp only [Option.any_some, hnew card hcard, Option.any_none, Bool.and_false]

theorem CardRevisionRow.sourceRevision_of_fixed {r q : CardRevisionRow} (h : r.fixed = q.fixed) :
    r.sourceRevisionId = q.sourceRevisionId := by
  show r.fixed.sourceRevisionId = q.fixed.sourceRevisionId
  rw [h]

section Unfinished

variable (h : Unread s s' id) (hs : s.Filed) (hfresh : s.extractions.get id = none)
include h hs hfresh

theorem Unread.hidesMember (cardId : ComposedCardId) (x : SuppressionRow) (m : SupportMemberRow) :
    x.hidesMember s' cardId m = x.hidesMember s cardId m := by
  have hbound : boundCardCites s' x.toRuleRow m = boundCardCites s x.toRuleRow m := by
    unfold boundCardCites
    congr 1
    funext bound
    refine h.current_any hs bound (fun card => decide (card.sourceId = m.sourceId)) ?_
    intro rid r r' hfix hrid
    rw [CardRevisionRow.sourceRevision_of_fixed hfix, h.hasItemFrom hs hfresh hrid]
  unfold SuppressionRow.hidesMember
  rw [hbound]

theorem Unread.hidesObservation (x : SuppressionRow) (oid : ObservationId) (o : ObservationRow) :
    x.hidesObservation s' oid o = x.hidesObservation s oid o := by
  have hbound : boundCardHas s' x.toRuleRow oid o = boundCardHas s x.toRuleRow oid o := by
    unfold boundCardHas
    congr 1
    funext bound
    refine h.current_any hs bound (fun card => decide (card.sourceId = o.sourceId)) ?_
    intro rid r r' hfix hrid
    rw [CardRevisionRow.sourceRevision_of_fixed hfix, h.hasItemFrom hs hfresh hrid]
  unfold SuppressionRow.hidesObservation
  rw [hbound]

omit hs in
/-- The sets that make an observation current stay. -/
theorem Unread.set_any (eid : ExtractionSetId) (p : ExtractionRow → Bool)
    (hstate : ∀ e, e.state ≠ .successNonempty → p e = false)
    (hsame : ∀ e e', e.standing = e'.standing → p e = p e') :
    (s'.extractions.get eid).any p = (s.extractions.get eid).any p := by
  by_cases hid : eid = id
  · rw [hid, hfresh]
    cases he : s'.extractions.get id with
    | none => rfl
    | some e => exact hstate e (h.unfinished e he)
  · have hsets := h.sets eid hid
    cases he : s.extractions.get eid with
    | none =>
      rw [he] at hsets
      rw [Option.map_eq_none_iff.mp hsets]
    | some e =>
      rw [he] at hsets
      obtain ⟨e', he', hstanding⟩ := map_eq_some_iff.mp hsets
      rw [he']
      exact hsame e' e hstanding

/-- A member from a source that is as it was. -/
theorem Unread.memberIsValid {m : SupportMemberRow}
    (hsource : s'.sources.get m.sourceId = s.sources.get m.sourceId)
    (hobs : (s.observations.get m.observationId).isSome)
    (hev : (s.evidence.get m.evidenceRefId).isSome) :
    memberIsValid s' cardId m = memberIsValid s cardId m := by
  obtain ⟨o, ho⟩ := isSome_iff_exists.mp hobs
  obtain ⟨e, he⟩ := isSome_iff_exists.mp hev
  have hrules : (s'.suppressions.rows.any fun x => x.2.hidesMember s' cardId m) =
      s.suppressions.rows.any fun x => x.2.hidesMember s cardId m := by
    rw [h.suppressions]
    simp only [h.hidesMember hs hfresh]
  unfold SemanticMemory.memberIsValid
  rw [hsource, h.observations.get_kept ho, h.evidence _ e he, ho, he, hrules]
  simp only [Option.any_some]
  congr 1
  funext source
  -- the state and the capture of the set are all that is read of it
  refine h.set_any hfresh o.extractionSetId _ (fun set hstate => by simp [hstate]) ?_
  intro set set' hstanding
  obtain ⟨hsource, hseq, hstate⟩ := set.of_standing hstanding
  rw [hsource, hseq, hstate]

/-- An observation from a source that is as it was. -/
theorem Unread.observationIsCurrent {oid : ObservationId} {o : ObservationRow}
    (hsource : s'.sources.get o.sourceId = s.sources.get o.sourceId) :
    observationIsCurrent s' oid o = observationIsCurrent s oid o := by
  have hrules : (s'.suppressions.rows.any fun x => x.2.hidesObservation s' oid o) =
      s.suppressions.rows.any fun x => x.2.hidesObservation s oid o := by
    rw [h.suppressions]
    simp only [h.hidesObservation hs hfresh]
  unfold SemanticMemory.observationIsCurrent
  rw [hsource, hrules]
  congr 1
  funext source
  refine h.set_any hfresh o.extractionSetId _ (fun set hstate => by simp [hstate]) ?_
  intro set set' hstanding
  obtain ⟨hsource, hseq, hstate⟩ := set.of_standing hstanding
  rw [hsource, hseq, hstate]

section

variable {source source' : SourceRow}
  (hlt : source.extractionCommitSequence < source'.extractionCommitSequence)

include hlt

/-- No success has the commit sequence advanced to. -/
theorem Unread.overtaken {eid : ExtractionSetId} {set : ExtractionRow}
    (hset : s'.extractions.get eid = some set) (hstate : set.state = .successNonempty)
    (hsource : s.sources.get set.sourceId = some source) :
    set.extractionCommitSequence ≠ source'.extractionCommitSequence := by
  have hne : eid ≠ id := by
    rintro rfl
    exact h.unfinished set hset hstate
  have hstanding := h.sets eid hne
  rw [hset] at hstanding
  obtain ⟨e, he, hsame⟩ := map_eq_some_iff.mp hstanding.symm
  have hcap : e.capture = set.capture := congrArg Prod.fst hsame
  have hsrc : e.sourceId = set.sourceId := congrArg Capture.sourceId hcap
  have hseq : e.extractionCommitSequence = set.extractionCommitSequence :=
    congrArg Capture.extractionCommitSequence hcap
  obtain ⟨source₀, hsource₀, hle⟩ := hs.sets eid e he
  rw [hsrc, hsource] at hsource₀
  obtain rfl := some.inj hsource₀
  omega

/-- A member from an advanced source. -/
theorem Unread.memberIsValid_stale {m : SupportMemberRow}
    (hsource : s.sources.get m.sourceId = some source)
    (hsource' : s'.sources.get m.sourceId = some source') :
    SemanticMemory.memberIsValid s' cardId m = false := by
  rw [Bool.eq_false_iff]
  intro hvalid
  unfold SemanticMemory.memberIsValid at hvalid
  simp only [hsource', Option.any_some, Option.any_eq_true, Bool.and_eq_true, decide_eq_true_eq] at hvalid
  obtain ⟨o, -, set, hset, e, -, ⟨hof, -, hsetof, -, -, -, -, -, -, hstate, hseq⟩, -⟩ := hvalid
  refine h.overtaken hs hfresh hlt hset hstate ?_ hseq
  rw [hsetof, hof]
  exact hsource

theorem Unread.observationIsCurrent_stale {oid : ObservationId} {o : ObservationRow}
    (hsource : s.sources.get o.sourceId = some source)
    (hsource' : s'.sources.get o.sourceId = some source') :
    SemanticMemory.observationIsCurrent s' oid o = false := by
  rw [Bool.eq_false_iff]
  intro hcurrent
  unfold SemanticMemory.observationIsCurrent at hcurrent
  simp only [hsource', Option.any_some, Option.any_eq_true, Bool.and_eq_true, decide_eq_true_eq] at hcurrent
  obtain ⟨set, hset, ⟨hsetof, -, -, -, hstate, hseq⟩, -⟩ := hcurrent
  refine h.overtaken hs hfresh hlt hset hstate ?_ hseq
  rw [hsetof]
  exact hsource

end

/-! ## Single cards and relations -/

variable {header : CardHeader}

theorem Unread.isReadable (hrid : (s.cardRevisions.get header.revisionId).isSome) :
    header.isReadable s' = header.isReadable s := by
  have hitem := fun observationId => h.hasItemFrom hs hfresh hrid observationId
  have hhides : ∀ x : SuppressionRow, x.hidesCard s' header = x.hidesCard s header := by
    intro x
    unfold SuppressionRow.hidesCard
    rw [show SemanticMemory.hasItemFrom s' header.revisionId =
      SemanticMemory.hasItemFrom s header.revisionId from funext hitem]
  have htask : taskCompleted s' header.revision.targetKey = taskCompleted s header.revision.targetKey := by
    unfold taskCompleted
    rw [h.tasks]
  unfold CardHeader.isReadable
  rw [h.suppressions, htask]
  simp only [hhides]

omit hfresh in
/-- The header of a card with a published revision. -/
theorem Unread.cardHeader {entry : MemoryCardId × CardRow} (hentry : entry ∈ s.cards.rows)
    (hpublished : header.revision.publicationState = .published) :
    cardHeader s' entry = some header ↔ cardHeader s entry = some header := by
  rw [cardHeader_eq_some_iff, cardHeader_eq_some_iff, h.views]
  refine and_congr_right fun hcard => and_congr_right fun hcurrent => and_congr_left fun _ => ?_
  have hget : s.cards.get header.cardId = some header.card :=
    Keyed.get_eq_some_iff.mpr (hcard ▸ hentry)
  obtain ⟨r, hr⟩ := isSome_iff_exists.mp (hs.cards _ _ _ hget hcurrent)
  obtain ⟨r', hr', -, hkeep, hback⟩ := h.revisions _ r hr
  rw [hr, hr', Option.some.injEq, Option.some.injEq]
  constructor
  · rintro rfl
    exact (hback hpublished).symm
  · rintro rfl
    exact hkeep hpublished

theorem Unread.readableHeaders : readableHeaders s' = readableHeaders s := by
  obtain ⟨new, hrows, hnew⟩ := h.cards
  rw [readableHeaders_eq, readableHeaders_eq, hrows, filterMap_append]
  have hnone : new.filterMap (readableHeader s') = [] := by
    rw [filterMap_eq_nil_iff]
    intro entry hentry
    unfold readableHeader SemanticMemory.cardHeader
    rw [hnew entry hentry]
    rfl
  rw [hnone, append_nil]
  refine filterMap_congr ?_
  intro entry hentry
  refine Option.ext fun header => ?_
  unfold readableHeader
  rw [Option.filter_eq_some_iff, Option.filter_eq_some_iff]
  have hread : ∀ header, SemanticMemory.cardHeader s entry = some header →
      header.isReadable s' = header.isReadable s := by
    intro header hhead
    obtain ⟨-, -, hrevision, -⟩ := cardHeader_eq_some_iff.mp hhead
    refine h.isReadable hs hfresh ?_
    rw [hrevision]
    rfl
  constructor
  · rintro ⟨hhead, hreadable⟩
    have hhead' := (h.cardHeader hs hentry (published_of_readable hreadable).2).mp hhead
    exact ⟨hhead', hread header hhead' ▸ hreadable⟩
  · rintro ⟨hhead, hreadable⟩
    have hhead' := (h.cardHeader hs hentry (published_of_readable hreadable).2).mpr hhead
    exact ⟨hhead', (hread header hhead).symm ▸ hreadable⟩

theorem Unread.itemsOf (hrid : (s.cardRevisions.get rid).isSome) :
    itemsOf s' rid = itemsOf s rid := by
  have hfilter := h.items_of hs hfresh hrid fun _ => true
  simp only [Bool.and_true] at hfilter
  unfold SemanticMemory.itemsOf Keyed.select
  rw [hfilter]

omit hs hfresh in
/-- An old item names rows as they were. -/
theorem Unread.buildItemRecord {item : CardItemRow} (hlinks : s.Links item) (o : ObservationRow) :
    buildItemRecord s' header item o = buildItemRecord s header item o := by
  have hget : ∀ eid ∈ item.supports, s'.evidence.get eid = s.evidence.get eid := by
    intro eid heid
    obtain ⟨e, he⟩ := isSome_iff_exists.mp (hlinks.2 eid heid)
    rw [he]
    exact h.evidence eid e he
  have hfilter : (item.supports.filter fun eid => (s'.evidence.get eid).isSome) =
      item.supports.filter fun eid => (s.evidence.get eid).isSome := by
    refine filter_congr ?_
    intro eid heid
    rw [hget eid heid]
  unfold SemanticMemory.buildItemRecord
  rw [hfilter]
  dsimp only
  congr 1
  funext _
  congr 1
  refine ensure_congr (and_congr_right fun _ => ?_)
  refine forall₂_congr fun eid heid => ?_
  rw [hget eid (mem_of_mem_filter ((mem_insertionSort _).mp heid))]

theorem Unread.buildCardRecord (hheader : header ∈ SemanticMemory.readableHeaders s) :
    buildCardRecord s' header = buildCardRecord s header := by
  obtain ⟨-, hjoin, -⟩ := mem_readableHeaders.mp hheader
  obtain ⟨-, -, hrevision, -⟩ := cardHeader_eq_some_iff.mp hjoin
  have hrid : (s.cardRevisions.get header.revisionId).isSome := by
    rw [hrevision]
    rfl
  have hlinks : ∀ item ∈ SemanticMemory.itemsOf s header.revisionId, s.Links item := by
    intro item hitem
    unfold SemanticMemory.itemsOf at hitem
    obtain ⟨⟨iid, row⟩, hrow, rfl⟩ := mem_map.mp ((mem_insertionSort _).mp hitem)
    exact hs.items iid row (mem_select.mp hrow).1
  have hjoined : ((SemanticMemory.itemsOf s header.revisionId).filterMap fun i =>
        (s'.observations.get i.observationId).map (i, ·)) =
      (SemanticMemory.itemsOf s header.revisionId).filterMap fun i =>
        (s.observations.get i.observationId).map (i, ·) := by
    refine filterMap_congr ?_
    intro item hitem
    obtain ⟨o, ho⟩ := isSome_iff_exists.mp (hlinks item hitem).1
    rw [ho, h.observations.get_kept ho]
  unfold SemanticMemory.buildCardRecord
  rw [h.itemsOf hs hfresh hrid, hjoined]
  dsimp only
  congr 1
  refine Fallible.mapM_congr ?_
  intro io hio
  obtain ⟨item, hitem, heq⟩ := mem_filterMap.mp hio
  obtain ⟨o, -, rfl⟩ := map_eq_some_iff.mp heq
  exact h.buildItemRecord (hlinks item hitem) o

/-- The list of single cards is as it was. -/
theorem Unread.listCards : listCards s' = listCards s := by
  funext limit
  unfold SemanticMemory.listCards
  rw [h.readableHeaders hs hfresh]
  congr 1
  funext _
  refine Fallible.mapM_congr ?_
  intro header hheader
  exact h.buildCardRecord hs hfresh ((mem_insertionSort _).mp (mem_of_mem_take hheader))

end Unfinished

/-- The organization over another repository. -/
abbrev Organization.over (o : Organization) (s' : Repository) : Organization :=
  { o with toRepository := s' }

/-- The commit sequence of one source is advanced. -/
structure Advances (s s' : Repository) (sourceId : SourceId) : Prop where
  registered : (s.sources.get sourceId).isSome
  sources : s'.sources = s.sources.set sourceId fun row =>
    { row with extractionCommitSequence := row.extractionCommitSequence + 1 }

theorem Advances.get_ne (h : Advances s s' sourceId) (hne : n ≠ sourceId) :
    s'.sources.get n = s.sources.get n := by
  rw [h.sources, get_set_ne _ hne]

theorem Advances.get (h : Advances s s' sourceId) :
    ∃ source source', s.sources.get sourceId = some source ∧
      s'.sources.get sourceId = some source' ∧
        source.extractionCommitSequence < source'.extractionCommitSequence := by
  obtain ⟨source, hsource⟩ := isSome_iff_exists.mp h.registered
  refine ⟨source, { source with extractionCommitSequence := source.extractionCommitSequence + 1 },
    hsource, ?_, Nat.lt_succ_self _⟩
  rw [h.sources, get_set, if_pos rfl, hsource]
  rfl

/-! ## What the advanced sequence takes away

Members and observations of the source are no longer current; all others are as they were. -/

section Advanced

variable {o : Organization} {sourceId : SourceId} (h : Unread o.toRepository s' id) (ho : o.Filed)
  (hfresh : o.extractions.get id = none) (hadvance : Advances o.toRepository s' sourceId)
include h ho hfresh hadvance

theorem Unread.memberIsValid_iff {n : SupportMemberId} {m : SupportMemberRow}
    (hm : o.supportMembers.get n = some m) :
    SemanticMemory.memberIsValid s' cardId m ↔
      SemanticMemory.memberIsValid o.toRepository cardId m ∧ m.sourceId ≠ sourceId := by
  obtain ⟨hobs, hev⟩ := ho.members n m hm
  by_cases hof : m.sourceId = sourceId
  · obtain ⟨source, source', hsource, hsource', hlt⟩ := hadvance.get
    rw [h.memberIsValid_stale ho.repository hfresh hlt (hof ▸ hsource) (hof ▸ hsource')]
    simp [hof]
  · rw [h.memberIsValid ho.repository hfresh (hadvance.get_ne hof) hobs hev]
    simp [hof]

theorem Unread.validMembersOf (cardId : ComposedCardId) (groupId : SupportGroupId) :
    (o.over s').validMembersOf cardId groupId =
      (o.validMembersOf cardId groupId).filter fun m => decide (m.2.sourceId ≠ sourceId) := by
  unfold Organization.validMembersOf
  rw [filter_filter]
  refine filter_congr ?_
  rintro ⟨n, m⟩ hmem
  obtain ⟨hm, -⟩ := mem_select.mp hmem
  rw [Bool.eq_iff_iff, Bool.and_eq_true, decide_eq_true_eq, and_comm]
  exact h.memberIsValid_iff ho hfresh hadvance hm

omit ho hfresh hadvance in
theorem Unread.memberRecord (m : SupportMemberId × SupportMemberRow) :
    memberRecord s' m = memberRecord o.toRepository m := by
  have hview : ∀ t : Repository, SemanticMemory.memberRecord t m =
      ((t.sources.get m.2.sourceId).map SourceRow.view).map fun v =>
        { id := m.1
          sourceId := m.2.sourceId
          sourceRevisionId := m.2.sourceRevisionId
          sourcePath := v.sourcePath
          observationId := m.2.observationId
          evidenceRefId := m.2.evidenceRefId
          role := m.2.role } := by
    intro t
    unfold SemanticMemory.memberRecord
    rw [Option.map_map]
    rfl
  rw [hview, hview, h.views]

end Advanced

/-- One of the card's valid members is from the source. -/
def ComposedHeader.RestsOn (o : Organization) (sourceId : SourceId) (header : ComposedHeader) : Prop :=
  ∃ g ∈ o.groupsOf header.revisionId, ∃ m ∈ o.validMembersOf header.cardId g.1,
    m.2.sourceId = sourceId

section Advanced

variable {env : Env} {read : VaultPath → Option ManagedFile}
  {o : Organization} {sourceId : SourceId} (h : Unread o.toRepository s' id) (ho : o.Filed)
  (hfresh : o.extractions.get id = none) (hadvance : Advances o.toRepository s' sourceId)

include h in
theorem Unread.isHidden (header : ComposedHeader) :
    header.isHidden (o.over s') = header.isHidden o := by
  unfold ComposedHeader.isHidden taskCompleted
  show ((s'.suppressions.rows.any _) || s'.tasks.rows.any _) = _
  rw [h.suppressions, h.tasks]

include h in
theorem Unread.listedHeaders : listedHeaders (o.over s') = listedHeaders o := by
  have hlisted : ComposedHeader.isListed (o.over s') = ComposedHeader.isListed o := by
    funext header
    unfold ComposedHeader.isListed taskCompleted
    show (_ && !(s'.suppressions.rows.any _) && !(s'.tasks.rows.any _)) = _
    rw [h.suppressions, h.tasks]
  unfold SemanticMemory.listedHeaders
  rw [hlisted]
  rfl

include h ho hfresh hadvance

variable {header : ComposedHeader} {g : SupportGroupId × SupportGroupRow}

/-- A group of the advanced repository held before. -/
theorem Unread.holds_before (hholds : (o.over s').Holds cardId g) : o.Holds cardId g := by
  have hvalid : ∀ m ∈ o.membersOf g.1, SemanticMemory.memberIsValid s' cardId m.2 →
      SemanticMemory.memberIsValid o.toRepository cardId m.2 := by
    rintro ⟨n, m⟩ hm hvalid
    exact ((h.memberIsValid_iff ho hfresh hadvance (mem_select.mp hm).1).mp hvalid).1
  unfold Organization.Holds at hholds ⊢
  cases hop : g.2.operator with
  | and =>
    rw [hop] at hholds
    exact ⟨hholds.1, fun m hm => hvalid m hm (hholds.2 m hm)⟩
  | or =>
    rw [hop] at hholds
    obtain ⟨m, hm, hmvalid⟩ := hholds
    exact ⟨m, hm, hvalid m hm hmvalid⟩

/-- A group without valid members of the source still holds. -/
theorem Unread.holds_after (hother : ∀ m ∈ o.validMembersOf cardId g.1, m.2.sourceId ≠ sourceId)
    (hholds : o.Holds cardId g) : (o.over s').Holds cardId g := by
  have hvalid : ∀ m ∈ o.membersOf g.1,
      SemanticMemory.memberIsValid o.toRepository cardId m.2 →
        SemanticMemory.memberIsValid s' cardId m.2 := by
    rintro ⟨n, m⟩ hm hvalid
    refine (h.memberIsValid_iff ho hfresh hadvance (mem_select.mp hm).1).mpr ⟨hvalid, ?_⟩
    exact hother (n, m) (mem_filter.mpr ⟨hm, hvalid⟩)
  unfold Organization.Holds at hholds ⊢
  cases hop : g.2.operator with
  | and =>
    rw [hop] at hholds
    exact ⟨hholds.1, fun m hm => hvalid m hm (hholds.2 m hm)⟩
  | or =>
    rw [hop] at hholds
    obtain ⟨m, hm, hmvalid⟩ := hholds
    exact ⟨m, hm, hvalid m hm hmvalid⟩

theorem Unread.readable_before (hread : header.Readable env (o.over s') read) :
    header.Readable env o read :=
  ⟨hread.eligible, hread.published, (h.isHidden header).symm.trans hread.shown, hread.grounded,
    fun g hg => h.holds_before ho hfresh hadvance (hread.supported g hg), hread.file⟩

theorem Unread.readable_after (hrests : ¬ header.RestsOn o sourceId)
    (hread : header.Readable env o read) : header.Readable env (o.over s') read := by
  refine ⟨hread.eligible, hread.published, (h.isHidden header).trans hread.shown, hread.grounded, ?_,
    hread.file⟩
  intro g hg
  refine h.holds_after ho hfresh hadvance ?_ (hread.supported g hg)
  exact fun m hm hof => hrests ⟨g, hg, m, hm, hof⟩

/-- A card that does not rest on the source. -/
theorem Unread.buildComposedRecord (hrests : ¬ header.RestsOn o sourceId) :
    buildComposedRecord (o.over s') header = buildComposedRecord o header := by
  have hgroup : ∀ i ∈ composedItemsOf o header.revisionId, ∀ g ∈ itemGroups o i.1,
      groupRecord (o.over s') header.cardId g = groupRecord o header.cardId g := by
    intro i hi g hg
    obtain ⟨hget, hrev⟩ := mem_select.mp ((mem_insertionSort _).mp hi)
    obtain ⟨hgroupget, hitemof⟩ := mem_select.mp ((mem_insertionSort _).mp hg)
    have hmembers : (o.over s').validMembersOf header.cardId g.1 =
        o.validMembersOf header.cardId g.1 := by
      rw [h.validMembersOf ho hfresh hadvance, filter_eq_self]
      intro m hm
      refine decide_eq_true fun hof => hrests ⟨g, mem_select.mpr ⟨hgroupget, ?_⟩, m, hm, hof⟩
      rw [of_decide_eq_true hitemof, hget]
      exact hrev
    have hrecord : SemanticMemory.memberRecord s' = SemanticMemory.memberRecord o.toRepository :=
      funext h.memberRecord
    unfold groupRecord
    rw [hmembers, hrecord]
  have hitems : ((composedItemsOf o header.revisionId).map fun i =>
        (⟨i.1, i.2.kind, i.2.ordinal, i.2.content,
          (itemGroups o i.1).map (groupRecord (o.over s') header.cardId)⟩ : ComposedItemRecord)) =
      (composedItemsOf o header.revisionId).map fun i =>
        ⟨i.1, i.2.kind, i.2.ordinal, i.2.content, (itemGroups o i.1).map (groupRecord o header.cardId)⟩ := by
    refine map_congr_left ?_
    intro i hi
    rw [map_congr_left (hgroup i hi)]
  unfold SemanticMemory.buildComposedRecord
  exact congrArg _ hitems

/-- The listed cards, when none rests on the source. -/
theorem Unread.listComposedCards
    (hrests : ∀ header ∈ ((SemanticMemory.listedHeaders o).take 200).filter
      (ComposedHeader.isRead env o read), ¬ header.RestsOn o sourceId) (limit : Nat) :
    listComposedCards env (o.over s') (served read) limit =
      listComposedCards env o (served read) limit := by
  by_cases hlimit : 1 ≤ limit ∧ limit ≤ 200
  · obtain ⟨hpos, hle⟩ := hlimit
    rw [listComposedCards_eq hpos hle, listComposedCards_eq hpos hle, h.listedHeaders]
    have hin : ∀ header ∈ (SemanticMemory.listedHeaders o).take limit,
        header.isRead env o read → ¬ header.RestsOn o sourceId := by
      intro header hheader hpass
      refine hrests header (mem_filter.mpr ⟨?_, hpass⟩)
      exact (take_sublist_take_left hle).subset hheader
    have hfilter : ((SemanticMemory.listedHeaders o).take limit).filter
          (ComposedHeader.isRead env (o.over s') read) =
        ((SemanticMemory.listedHeaders o).take limit).filter (ComposedHeader.isRead env o read) := by
      refine filter_congr ?_
      intro header hheader
      have hmem := (mem_listedHeaders.mp (mem_of_mem_take hheader)).1
      have hmem' : header ∈ composedHeaders (o.over s') := hmem
      rw [Bool.eq_iff_iff]
      constructor
      · intro hpass
        exact (isRead_iff hmem).mpr (h.readable_before ho hfresh hadvance ((isRead_iff hmem').mp hpass))
      · intro hpass
        exact (isRead_iff hmem').mpr (h.readable_after ho hfresh hadvance (hin header hheader hpass)
          ((isRead_iff hmem).mp hpass))
    rw [hfilter, Except.ok.injEq]
    refine map_congr_left ?_
    intro header hheader
    obtain ⟨htake, hpass⟩ := mem_filter.mp hheader
    exact h.buildComposedRecord ho hfresh hadvance (hin header htake hpass)
  · have hbad : ¬ (limit ≠ 0 ∧ limit ≤ 200) := fun hok => hlimit ⟨Nat.pos_of_ne_zero hok.1, hok.2⟩
    unfold SemanticMemory.listComposedCards listComposedRows ensure
    rw [if_neg hbad]
    rfl

omit ho hfresh hadvance in
theorem Unread.listCurrentRelations (limit : Nat) :
    listCurrentRelations (o.over s') limit = listCurrentRelations o limit := by
  have hrecord : relationRecord (o.over s') = relationRecord o := by
    funext d
    unfold relationRecord sourceIsAt
    simp only [h.views]
  unfold SemanticMemory.listCurrentRelations
  rw [hrecord]

/-! ## Candidates -/

/-- Nothing of the advanced source is current. -/
theorem Unread.currentObservationsOf (n : SourceId) : currentObservationsOf s' n =
      if n = sourceId then [] else currentObservationsOf o.toRepository n := by
  obtain ⟨new, hrows, hnew⟩ := h.observations
  by_cases hof : n = sourceId
  · rw [if_pos hof]
    obtain ⟨source, source', hsource, hsource', hlt⟩ := hadvance.get
    have hnone : (s'.observations.select fun oid row => decide (row.sourceId = n) &&
        SemanticMemory.observationIsCurrent s' oid row) = [] := by
      refine filter_eq_nil_iff.mpr ?_
      rintro ⟨oid, row⟩ - hkeep
      obtain ⟨hrow, hcurrent⟩ := Bool.and_eq_true _ _ |>.mp hkeep
      have hsame : row.sourceId = sourceId := (of_decide_eq_true hrow).trans hof
      rw [h.observationIsCurrent_stale ho.repository hfresh hlt (hsame ▸ hsource) (hsame ▸ hsource')] at hcurrent
      cases hcurrent
    unfold SemanticMemory.currentObservationsOf
    rw [hnone]
    rfl
  · rw [if_neg hof]
    -- the new rows are of the unfinished set
    have hunfinished : (new.filter fun r => decide (r.2.sourceId = n) &&
        SemanticMemory.observationIsCurrent s' r.1 r.2) = [] := by
      refine filter_eq_nil_iff.mpr ?_
      rintro ⟨oid, row⟩ hrow hkeep
      obtain ⟨-, hcurrent⟩ := Bool.and_eq_true _ _ |>.mp hkeep
      unfold SemanticMemory.observationIsCurrent at hcurrent
      simp only [Option.any_eq_true, Bool.and_eq_true, decide_eq_true_eq] at hcurrent
      obtain ⟨source, -, set, hset, ⟨-, -, -, -, hstate, -⟩, -⟩ := hcurrent
      rw [hnew (oid, row) hrow] at hset
      exact h.unfinished set hset hstate
    have hselect : (s'.observations.select fun oid row => decide (row.sourceId = n) &&
          SemanticMemory.observationIsCurrent s' oid row) =
        o.observations.select fun oid row => decide (row.sourceId = n) &&
          SemanticMemory.observationIsCurrent o.toRepository oid row := by
      unfold Keyed.select
      rw [hrows, filter_append, hunfinished, append_nil]
      refine filter_congr ?_
      rintro ⟨oid, row⟩ -
      dsimp only
      by_cases hrow : row.sourceId = n
      · rw [h.observationIsCurrent ho.repository hfresh (hadvance.get_ne (hrow ▸ hof))]
      · simp [hrow]
    have hevidence : ∀ r ∈ o.observations.select fun oid row => decide (row.sourceId = n) &&
        SemanticMemory.observationIsCurrent o.toRepository oid row,
        withEvidence s' r = withEvidence o.toRepository r := by
      rintro ⟨oid, row⟩ hr
      have hgrounds := ho.repository.observations oid row (mem_select.mp hr).1
      unfold withEvidence
      congr 1
      refine filter_congr ?_
      intro eid heid
      obtain ⟨e, he⟩ := isSome_iff_exists.mp (hgrounds eid heid)
      rw [h.evidence eid e he, he]
    unfold SemanticMemory.currentObservationsOf
    rw [hselect, flatMap_congr hevidence]

end Advanced

/-- The calls of a run, as steps of the whole. -/
theorem reach_over (o : Organization) {w w' : Watched} (h : Reach (watch env) Always w w') :
    Relation.ReflTransGen (OrganizationStep env) (o.over w.repo) (o.over w'.repo) := by
  induction h with
  | refl => exact .refl
  | @tail t u _ hstep ih =>
    obtain ⟨call, hcall, -⟩ := hstep
    unfold watch at hcall
    cases hexec : exec env t.repo call with
    | error e =>
      rw [hexec] at hcall
      cases hcall
    | ok repo =>
      rw [hexec] at hcall
      obtain rfl := some.inj hcall
      exact ih.tail (OrganizationStep.call call hexec)

def noOrganization : Organization where
  toRepository := .empty
  composedCards := .empty
  composedRevisions := .empty
  composedItems := .empty
  supportGroups := .empty
  supportMembers := .empty
  relationCandidates := .empty
  relationDecisions := .empty

theorem publishedNote_reached : Relation.ReflTransGen (OrganizationStep plainEnv) noOrganization
    (noOrganization.over publishedNote) := by
  have hrun : (run (watch plainEnv) ⟨.empty, fun _ => none⟩ publishingRun).isSome := by
    decide +kernel
  obtain ⟨w, hw⟩ := isSome_iff_exists.mp hrun
  have hnote : w.repo = publishedNote := by
    unfold publishedNote
    rw [hw]
    rfl
  exact hnote ▸ reach_over noOrganization (Reach.of_run hw)

end SemanticMemory
