import McpVault.ExtractionFrameProofs
import McpVault.SemanticRuleProofs

/-! # Two gates for one rule

`card_is_currently_readable` asks of every support member whether a rule hides it, and
`current_observations` of every observation.  They differ for rules bound to a card: the first
gate is content with the note that the card is of, the second one looks for an item of the card. -/

namespace SemanticMemory

open KeyedTable List
open Option (some.inj)

variable {s : Repository} {m : SupportMemberRow} {o : ObservationRow} {x : SuppressionRow}
  {cardId : ComposedCardId}

/-- All is current, whatever the rules say. -/
def SupportMemberRow.isCurrent (s : Repository) (cardId : ComposedCardId) (m : SupportMemberRow) : Bool :=
  memberIsValid { s with suppressions := .empty } cardId m &&
    (s.observations.get m.observationId).any fun o => decide (m.evidenceRefId ∈ o.evidence)

/-- Its current card cites the member's observation. -/
def RuleRow.cites (s : Repository) (m : SupportMemberRow) (x : RuleRow) : Bool :=
  boundCardCites s { x with observationId := some m.observationId } m

/-- A rule on a card names the source or its note. -/
def SuppressionRow.Reaches (s : Repository) (m : SupportMemberRow) (x : SuppressionRow) : Prop :=
  x.active ∧ x.action.hides ∧ x.admitsSource m.sourceId m.sourceRevisionId ∧ x.cardId ≠ none ∧
    (x.sourceId ≠ none ∧ (∀ n ∈ x.observationId, n = m.observationId) ∨
      boundCardCites s x.toRuleRow m)

/-- The source and no card, or a card with it. -/
def SuppressionRow.Withdraws (s : Repository) (m : SupportMemberRow) (x : SuppressionRow) : Prop :=
  x.active ∧ x.action.hides ∧ x.admitsSource m.sourceId m.sourceRevisionId ∧
    (∀ n ∈ x.observationId, n = m.observationId) ∧ (x.cardId = none ∧ x.sourceId ≠ none ∨ x.cites s m)

instance : Decidable (x.Withdraws s m) := inferInstanceAs (Decidable (_ ∧ _))

theorem named {a : SourceId} {o : Option SourceId} (h : ∀ id ∈ o, id = a) (hne : o ≠ none) :
    o = some a := by
  obtain ⟨id, rfl⟩ := Option.ne_none_iff_exists'.mp hne
  rw [h id rfl]

/-- The second gate: by the source, or by a card. -/
theorem hidesObservation_iff (hsource : o.sourceId = m.sourceId)
    (hrevision : o.sourceRevisionId = m.sourceRevisionId)
    (hx : x.active → x.action.hides → x.composedCardId = none) :
    x.hidesObservation s m.observationId o ↔ x.Withdraws s m := by
  have hcites : boundCardHas s x.toRuleRow m.observationId o = x.cites s m := by
    unfold boundCardHas RuleRow.cites boundCardCites
    rw [hsource, hrevision]
    rfl
  unfold SuppressionRow.hidesObservation SuppressionRow.Withdraws RuleRow.admitsSource
  rw [hcites, hsource, hrevision]
  simp only [Bool.and_eq_true, Bool.or_eq_true, Option.all_eq_true, decide_eq_true_eq,
    Option.isNone_iff_eq_none]
  constructor
  · rintro ⟨⟨⟨hactive, hhides⟩, -⟩, ⟨⟨hcard, hname⟩, hat, hobs⟩ | ⟨⟨hof, hat, hobs⟩, hitem⟩⟩
    · have hof : ∀ id ∈ x.sourceId, id = m.sourceId := fun id hid => some.inj (hid.symm.trans hname)
      exact ⟨hactive, hhides, ⟨hof, hat⟩, hobs, .inl ⟨hcard, hname ▸ nofun⟩⟩
    · exact ⟨hactive, hhides, ⟨hof, hat⟩, hobs, .inr hitem⟩
  · rintro ⟨hactive, hhides, ⟨hof, hat⟩, hobs, ⟨hcard, hname⟩ | hitem⟩
    · exact ⟨⟨⟨hactive, hhides⟩, hx hactive hhides⟩, .inl ⟨⟨hcard, named hof hname⟩, hat, hobs⟩⟩
    · exact ⟨⟨⟨hactive, hhides⟩, hx hactive hhides⟩, .inr ⟨⟨hof, hat, hobs⟩, hitem⟩⟩

/-- A card with such an item is of the note. -/
theorem RuleRow.cites_bound {r : RuleRow} (h : r.cites s m) : boundCardCites s r m := by
  unfold cites boundCardCites at h
  unfold boundCardCites
  simp only [Option.any_eq_true, Bool.and_eq_true] at h ⊢
  obtain ⟨id, hid, card, hcard, hof, revisionId, hcurrent, revision, hrevision, hat, hitem⟩ := h
  exact ⟨id, hid, card, hcard, hof, revisionId, hcurrent, revision, hrevision, hat,
    Option.all_eq_true _ _ |>.mpr fun _ _ => hitem⟩

/-- The first gate also takes the card's note. -/
theorem hidesMember_iff (hx : x.active → x.action.hides → x.composedCardId = none) :
    x.hidesMember s cardId m ↔ x.Reaches s m ∨ x.Withdraws s m := by
  have hbound : boundCardCites s x.toRuleRow m → x.cardId ≠ none := by
    intro h hnone
    rw [boundCardCites, hnone] at h
    cases h
  unfold SuppressionRow.hidesMember SuppressionRow.Reaches SuppressionRow.Withdraws RuleRow.admitsSource
  simp only [Bool.and_eq_true, Bool.or_eq_true, Option.all_eq_true, decide_eq_true_eq]
  constructor
  · rintro ⟨⟨hactive, hhides⟩, (⟨⟨⟨hname, hat⟩, -⟩, hobs⟩ | ⟨hcomposed, -⟩) | ⟨⟨hof, hat⟩, hcites⟩⟩
    · -- the rule names the source, with a card or without one
      have hof : ∀ id ∈ x.sourceId, id = m.sourceId := fun id hid => some.inj (hid.symm.trans hname)
      by_cases hcard : x.cardId = none
      · exact .inr ⟨hactive, hhides, ⟨hof, hat⟩, hobs, .inl ⟨hcard, hname ▸ nofun⟩⟩
      · exact .inl ⟨hactive, hhides, ⟨hof, hat⟩, hcard, .inl ⟨hname ▸ nofun, hobs⟩⟩
    · cases hcomposed.symm.trans (hx hactive hhides)
    · exact .inl ⟨hactive, hhides, ⟨hof, hat⟩, hbound hcites, .inr hcites⟩
  · have hfree : x.active → x.action.hides → ∀ id ∈ x.composedCardId, id = cardId :=
      fun hactive hhides => (hx hactive hhides).symm ▸ nofun
    rintro (⟨hactive, hhides, ⟨hof, hat⟩, -, ⟨hname, hobs⟩ | hcites⟩ |
      ⟨hactive, hhides, ⟨hof, hat⟩, hobs, ⟨-, hname⟩ | hcites⟩)
    · exact ⟨⟨hactive, hhides⟩, .inl (.inl ⟨⟨⟨named hof hname, hat⟩, hfree hactive hhides⟩, hobs⟩)⟩
    · exact ⟨⟨hactive, hhides⟩, .inr ⟨⟨hof, hat⟩, hcites⟩⟩
    · exact ⟨⟨hactive, hhides⟩, .inl (.inl ⟨⟨⟨named hof hname, hat⟩, hfree hactive hhides⟩, hobs⟩)⟩
    · exact ⟨⟨hactive, hhides⟩, .inr ⟨⟨hof, hat⟩, RuleRow.cites_bound hcites⟩⟩

/-- Only the rules decide on a current member. -/
theorem gates_of_current (hm : m.isCurrent s cardId) : ∃ o, o.sourceId = m.sourceId ∧
    o.sourceRevisionId = m.sourceRevisionId ∧
    (memberIsValid s cardId m = false ↔ ∃ x ∈ s.suppressions.rows, x.2.hidesMember s cardId m) ∧
    ((∀ r ∈ currentObservationsOf s m.sourceId, r.id ≠ m.observationId) ↔
      ∃ x ∈ s.suppressions.rows, x.2.hidesObservation s m.observationId o) := by
  obtain ⟨hvalid, hcited⟩ := Bool.and_eq_true _ _ |>.mp hm
  obtain ⟨o, ho, hcites⟩ := Option.any_eq_true _ _ |>.mp hcited
  have hmember : memberIsValid s cardId m = false ↔
      ∃ x ∈ s.suppressions.rows, x.2.hidesMember s cardId m := by
    rw [memberIsValid_eq, hvalid]
    simp
  unfold memberIsValid at hvalid
  simp only [Option.any_eq_true, Bool.and_eq_true, decide_eq_true_eq] at hvalid
  obtain ⟨source, hsource, _, ho', set, hset, e, he, ⟨hof, hat, hsets, heligible, hpending, hrevision,
    heof, -, hvalidated, hstate, hsequence⟩, -⟩ := hvalid
  obtain rfl := some.inj (ho.symm.trans ho')
  have hkeep : observationIsCurrent s m.observationId o =
      !(s.suppressions.rows.any fun x => x.2.hidesObservation s m.observationId o) := by
    unfold observationIsCurrent
    simp [hof, hat, hsource, hset, hsets, heligible, hpending, hrevision, hstate, hsequence]
  refine ⟨o, hof, hat, hmember, ?_⟩
  rw [← List.any_eq_true, ← Bool.not_eq_false', ← hkeep, Bool.eq_false_iff]
  constructor
  · intro hout hcurrent
    refine hout ⟨m.observationId, o, m.evidenceRefId⟩ ((mem_insertionSort _).mpr (mem_flatMap.mpr
      ⟨(m.observationId, o), Keyed.mem_select.mpr ⟨ho, ?_⟩, mem_map_of_mem (mem_filter.mpr ⟨?_, ?_⟩)⟩)) rfl
    · simp [hof, hcurrent]
    · exact of_decide_eq_true hcites
    · simp [he, heof, hof, hvalidated]
  · intro hhidden r hr hid
    obtain ⟨⟨id, row⟩, hrow, hmem⟩ := mem_flatMap.mp ((mem_insertionSort _).mp hr)
    obtain ⟨hget, hcurrent⟩ := Keyed.mem_select.mp hrow
    obtain ⟨_, -, rfl⟩ := mem_map.mp hmem
    obtain rfl : id = m.observationId := hid
    obtain rfl := some.inj (ho.symm.trans hget)
    exact hhidden (Bool.and_eq_true _ _ |>.mp hcurrent).2

/-- **WHEN THE TWO GATES AGREE**: where a rule on a card reaches the member, some rule withdraws
    the observation. -/
theorem suppression_gates_agree_iff (hm : m.isCurrent s cardId)
    (hunbound : ∀ x ∈ s.suppressions.rows, x.2.active → x.2.action.hides → x.2.composedCardId = none) :
    (memberIsValid s cardId m = false ↔
        ∀ r ∈ currentObservationsOf s m.sourceId, r.id ≠ m.observationId) ↔
      ((∃ x ∈ s.suppressions.rows, x.2.Reaches s m) → ∃ x ∈ s.suppressions.rows, x.2.Withdraws s m) := by
  obtain ⟨o, hof, hat, hmember, hobservation⟩ := gates_of_current hm
  have hleft : (∃ x ∈ s.suppressions.rows, x.2.hidesMember s cardId m) ↔
      (∃ x ∈ s.suppressions.rows, x.2.Reaches s m) ∨ ∃ x ∈ s.suppressions.rows, x.2.Withdraws s m := by
    simp only [← exists_or, ← and_or_left]
    exact exists_congr fun x => and_congr_right fun hx => hidesMember_iff (hunbound x hx)
  have hright : (∃ x ∈ s.suppressions.rows, x.2.hidesObservation s m.observationId o) ↔
      ∃ x ∈ s.suppressions.rows, x.2.Withdraws s m :=
    exists_congr fun x => and_congr_right fun hx => hidesObservation_iff hof hat (hunbound x hx)
  rw [hmember, hobservation, hleft, hright, or_iff_right_iff_imp]

/-- A run, then a rule on its first card. -/
def hideFirst (calls : List Call) : Option Repository := do
  let w ← Transition.run (watch plainEnv) ⟨.empty, fun _ => none⟩ calls
  let out ← (applySuppression plainEnv (rulesOver w.repo)
    { suppressTarget w.repo 1 with cardId := some 1 }).toOption
  pure out.1.toRepository

/-- A member that rests on one observation of the note. -/
def noteMember (id : ObservationId) : SupportMemberRow := ⟨1, 1, 1, id, id, "body"⟩

/-- A note's only card: both gates hide it. -/
theorem suppression_gates_agree_note : ∃ s, hideFirst publishingRun = some s ∧
    (noteMember 1).isCurrent s 1 ∧ memberIsValid s 1 (noteMember 1) = false ∧
    (memberIsValid s 1 (noteMember 1) = false ↔ ∀ r ∈ currentObservationsOf s 1, r.id ≠ 1) := by
  have hrun : ((hideFirst publishingRun).map fun s => ((noteMember 1).isCurrent s 1,
      memberIsValid s 1 (noteMember 1), s.suppressions.rows.all fun x =>
        decide (x.2.composedCardId = none ∧ x.2.Withdraws s (noteMember 1)))) = some (true, false, true) := by
    decide +kernel
  obtain ⟨s, hs, hview⟩ := Option.map_eq_some_iff.mp hrun
  simp only [Prod.mk.injEq, all_eq_true, decide_eq_true_eq] at hview
  obtain ⟨hm, hvalid, hrules⟩ := hview
  exact ⟨s, hs, hm, hvalid, (suppression_gates_agree_iff hm fun x hx _ _ => (hrules x hx).1).mpr
    fun ⟨x, hx, _⟩ => ⟨x, hx, (hrules x hx).2⟩⟩

/-- Discovery still finds a member of a hidden card. -/
theorem hidden_card_vetoes_note : ((hideFirst (omittingRun.take 6)).map fun s =>
    ((noteMember 2).isCurrent s 1, s.suppressions.rows.map (·.2.composedCardId),
      memberIsValid s 1 (noteMember 2), (currentObservationsOf s 1).map (·.id))) =
    some (true, [none], false, [2]) := by
  decide +kernel

end SemanticMemory
