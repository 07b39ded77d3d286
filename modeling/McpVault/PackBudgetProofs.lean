import McpVault.PathProofs

/-! # The budget of a memory pack

A pack is cut down until it fits: related sources go first, then optional details, experiences
and context.  The loop tests a token estimate that is a field of the pack and is renewed only
where details are cleared.  So the estimate it finds decides, and this file says when it decides
right. -/

namespace MemoryPacks

open List
open LogicalPath (byteLen byteLen_append byteLen_ascii)
open PlainText (Text)

/-! ## Packs and their JSON text -/

structure MemoryPackSourceReference where
  (sourceId sourceRevisionId : Text)
  sourcePath : Option Text
  deriving DecidableEq

/-- A JSON value, by its text and being `unknown`. -/
structure TemporalScope where
  text : Text
  isUnknown : Bool
  deriving DecidableEq

/-- One memory, with optional details. -/
structure MemoryPackEntry where
  (id origin title kind scopeRef assertionStatus : Text)
  temporalScope : TemporalScope
  (coreAssertions conditions exceptions orderedSteps unresolvedItems optionalDetails : List Text)
  sourceReferences : List MemoryPackSourceReference
  (evidenceRefs candidateKeys : List Text)
  deriving DecidableEq

structure MemoryPackConflict where
  (relationId relationKind reasonCode : Text)
  sourceIds : List Text
  (leftObservationId rightObservationId : Text)
  deriving DecidableEq

structure MemoryPackGap where
  code : Text
  pointer : Option Text
  deriving DecidableEq

/-- It has the fields of a source reference. -/
abbrev MemoryPackSource := MemoryPackSourceReference

/-- What a build returns. -/
structure MemoryPack where
  (currentContext relevantExperiences : List MemoryPackEntry)
  conflictsOrChecks : List MemoryPackConflict
  evidenceGaps : List MemoryPackGap
  relatedSources : List MemoryPackSource
  diagnostics : List Text
  estimatedTokens : Nat
  deriving DecidableEq

/-- The budget of a request. -/
structure Budget where
  (maxEntries maxBytes maxTokens : Nat)

def hexDigit (n : Nat) : Char :=
  if n < 10 then Char.ofNat (0x30 + n) else Char.ofNat (0x61 + (n - 10))

/-- The escapes of `serde_json`. -/
def escapeChar (c : Char) : Text :=
  if c = '"' then ['\\', '"']
  else if c = '\\' then ['\\', '\\']
  else if c.toNat = 0x08 then ['\\', 'b']
  else if c.toNat = 0x09 then ['\\', 't']
  else if c.toNat = 0x0a then ['\\', 'n']
  else if c.toNat = 0x0c then ['\\', 'f']
  else if c.toNat = 0x0d then ['\\', 'r']
  else if c.toNat < 0x20 then
    ['\\', 'u', '0', '0', hexDigit (c.toNat / 16), hexDigit (c.toNat % 16)]
  else [c]

def jsonString (t : Text) : Text := '"' :: t.flatMap escapeChar ++ ['"']

def jsonArray (values : List Text) : Text := '[' :: [','].intercalate values ++ [']']

def jsonObject (fields : List (Text × Text)) : Text :=
  Char.ofNat 0x7b :: [','].intercalate (fields.map fun field =>
    jsonString field.1 ++ ':' :: field.2) ++ [Char.ofNat 0x7d]

def jsonOption : Option Text → Text
  | some t => jsonString t
  | none => "null".toList

def jsonStrings (values : List Text) : Text := jsonArray (values.map jsonString)

def MemoryPackSourceReference.toJson (r : MemoryPackSourceReference) : Text :=
  jsonObject [("source_id".toList, jsonString r.sourceId),
    ("source_revision_id".toList, jsonString r.sourceRevisionId),
    ("source_path".toList, jsonOption r.sourcePath)]

/-- The candidate keys are skipped. -/
def MemoryPackEntry.toJson (e : MemoryPackEntry) : Text :=
  jsonObject [("id".toList, jsonString e.id), ("origin".toList, jsonString e.origin),
    ("title".toList, jsonString e.title), ("kind".toList, jsonString e.kind),
    ("scope_ref".toList, jsonString e.scopeRef),
    ("assertion_status".toList, jsonString e.assertionStatus),
    ("temporal_scope".toList, e.temporalScope.text),
    ("core_assertions".toList, jsonStrings e.coreAssertions),
    ("conditions".toList, jsonStrings e.conditions),
    ("exceptions".toList, jsonStrings e.exceptions),
    ("ordered_steps".toList, jsonStrings e.orderedSteps),
    ("unresolved_items".toList, jsonStrings e.unresolvedItems),
    ("optional_details".toList, jsonStrings e.optionalDetails),
    ("source_references".toList, jsonArray (e.sourceReferences.map (·.toJson))),
    ("evidence_refs".toList, jsonStrings e.evidenceRefs)]

def MemoryPackConflict.toJson (c : MemoryPackConflict) : Text :=
  jsonObject [("relation_id".toList, jsonString c.relationId),
    ("relation_kind".toList, jsonString c.relationKind),
    ("reason_code".toList, jsonString c.reasonCode),
    ("source_ids".toList, jsonStrings c.sourceIds),
    ("left_observation_id".toList, jsonString c.leftObservationId),
    ("right_observation_id".toList, jsonString c.rightObservationId)]

def MemoryPackGap.toJson (g : MemoryPackGap) : Text :=
  jsonObject [("code".toList, jsonString g.code), ("pointer".toList, jsonOption g.pointer)]

/-- A pack with a text for its estimate. -/
def MemoryPack.jsonWith (p : MemoryPack) (tokens : Text) : Text :=
  jsonObject [("current_context".toList, jsonArray (p.currentContext.map MemoryPackEntry.toJson)),
    ("relevant_experiences".toList, jsonArray (p.relevantExperiences.map MemoryPackEntry.toJson)),
    ("conflicts_or_checks".toList, jsonArray (p.conflictsOrChecks.map MemoryPackConflict.toJson)),
    ("evidence_gaps".toList, jsonArray (p.evidenceGaps.map MemoryPackGap.toJson)),
    ("related_sources".toList, jsonArray (p.relatedSources.map MemoryPackSourceReference.toJson)),
    ("diagnostics".toList, jsonStrings p.diagnostics), ("estimated_tokens".toList, tokens)]

def MemoryPack.toJson (p : MemoryPack) : Text := p.jsonWith (Nat.toDigits 10 p.estimatedTokens)

/-- The length of `serde_json::to_vec`. -/
def MemoryPack.size (p : MemoryPack) : Nat := byteLen p.toJson

/-- The length without the digits of the estimate. -/
@[irreducible] def MemoryPack.bare (p : MemoryPack) : Nat := byteLen (p.jsonWith [])

def MemoryPack.entryCount (p : MemoryPack) : Nat :=
  p.currentContext.length + p.relevantExperiences.length

/-! ## The loop -/

/-- `as u32`. -/
def asU32 (n : Nat) : Nat := n % 2 ^ 32

/-- `div_ceil(4)`. -/
def tokensOf (bytes : Nat) : Nat := (bytes + 3) / 4

def finalizeEstimate (p : MemoryPack) : MemoryPack :=
  { p with estimatedTokens := asU32 (tokensOf p.size) }

def fits (budget : Budget) (p : MemoryPack) : Bool :=
  decide (asU32 p.entryCount ≤ budget.maxEntries ∧ asU32 p.size ≤ budget.maxBytes ∧
    p.estimatedTokens ≤ budget.maxTokens)

/-- Clear the details of the first entry that has any. -/
def clearDetails : List MemoryPackEntry → Option (List MemoryPackEntry)
  | [] => none
  | e :: es =>
    if e.optionalDetails = [] then (clearDetails es).map (e :: ·)
    else some ({ e with optionalDetails := [] } :: es)

/-- The gap that an entry without room leaves. -/
def gapFor (id : Text) : MemoryPackGap := ⟨"core_entry_exceeds_budget".toList, some id⟩

/-- One removal, or nothing left to remove. -/
def removeNext (p : MemoryPack) : Option MemoryPack :=
  if p.relatedSources ≠ [] then some { p with relatedSources := p.relatedSources.dropLast }
  else
    match clearDetails p.currentContext with
    | some context => some (finalizeEstimate { p with currentContext := context })
    | none =>
      match clearDetails p.relevantExperiences with
      | some experiences => some (finalizeEstimate { p with relevantExperiences := experiences })
      | none =>
        match p.relevantExperiences.getLast? with
        | some e => some
            { p with
              relevantExperiences := p.relevantExperiences.dropLast
              evidenceGaps := p.evidenceGaps ++ [gapFor e.id] }
        | none =>
          match p.currentContext.getLast? with
          | some e => some
              { p with
                currentContext := p.currentContext.dropLast
                evidenceGaps := p.evidenceGaps ++ [gapFor e.id] }
          | none => none

/-- What is left to remove. -/
def detailed (es : List MemoryPackEntry) : Nat := es.countP fun e => !e.optionalDetails.isEmpty

def weight (p : MemoryPack) : Nat :=
  p.relatedSources.length + detailed p.currentContext + detailed p.relevantExperiences +
    p.relevantExperiences.length + p.currentContext.length

/-- The loop, for so many removals at most. -/
def trim (budget : Budget) : Nat → MemoryPack → MemoryPack × Bool
  | 0, p => (p, fits budget p)
  | n + 1, p =>
    if fits budget p then (p, true)
    else
      match removeNext p with
      | none => (p, false)
      | some p' => trim budget n p'

/-- The pack as it is left, and the result. -/
def enforceFinalBudget (budget : Budget) (pack : MemoryPack) : MemoryPack × Bool :=
  trim budget (weight (finalizeEstimate pack)) (finalizeEstimate pack)

/-! ## What one removal does -/

section Removal

variable {p q r : MemoryPack} {es es' : List MemoryPackEntry} {e e' : MemoryPackEntry}

/-- An entry as it was, or without its optional details. -/
def Kept (e e' : MemoryPackEntry) : Prop := e' = e ∨ e' = { e with optionalDetails := [] }

theorem Kept.refl (e : MemoryPackEntry) : Kept e e := .inl rfl

theorem Kept.trans {e₁ e₂ e₃ : MemoryPackEntry} (h : Kept e₁ e₂) (h' : Kept e₂ e₃) :
    Kept e₁ e₃ := by
  rcases h with rfl | rfl
  · exact h'
  · rcases h' with rfl | rfl
    · exact .inr rfl
    · exact .inr rfl

theorem Kept.id_eq (h : Kept e e') : e'.id = e.id := by
  rcases h with rfl | rfl
  · rfl
  · rfl

/-- Details lost, or dropped from the end. -/
structure Shortened (old new dropped : List MemoryPackEntry) : Prop where
  kept : ∃ kept, old = kept ++ dropped ∧ List.Forall₂ Kept kept new

/-- It may lose sources, details and entries. -/
structure Trimmed (old new : MemoryPack) : Prop where
  conflicts : new.conflictsOrChecks = old.conflictsOrChecks
  diagnostics : new.diagnostics = old.diagnostics
  related : new.relatedSources <+: old.relatedSources
  entries : ∃ (context experiences : List MemoryPackEntry) (ids : List Text),
    Shortened old.currentContext new.currentContext context ∧
    Shortened old.relevantExperiences new.relevantExperiences experiences ∧
    ids.Perm ((context ++ experiences).map MemoryPackEntry.id) ∧
    new.evidenceGaps = old.evidenceGaps ++ ids.map gapFor

theorem forall₂_kept_refl (es : List MemoryPackEntry) : List.Forall₂ Kept es es := by
  induction es with
  | nil => exact .nil
  | cons e es ih => exact .cons (Kept.refl e) ih

theorem Shortened.same (es : List MemoryPackEntry) : Shortened es es [] :=
  ⟨es, (append_nil es).symm, forall₂_kept_refl es⟩

theorem Shortened.of_kept (h : List.Forall₂ Kept es es') : Shortened es es' [] :=
  ⟨es, (append_nil es).symm, h⟩

theorem Shortened.last (h : es.getLast? = some e) : Shortened es es.dropLast [e] := by
  refine ⟨es.dropLast, ?_, forall₂_kept_refl _⟩
  have hne : es ≠ [] := fun hnil => by simp [hnil] at h
  rw [List.getLast?_eq_some_getLast hne] at h
  rw [← Option.some.inj h, dropLast_append_getLast]

theorem forall₂_kept_ids (h : List.Forall₂ Kept es es') :
    es'.map MemoryPackEntry.id = es.map MemoryPackEntry.id := by
  induction h with
  | nil => rfl
  | cons hkept _ ih => rw [map_cons, map_cons, hkept.id_eq, ih]

theorem forall₂_kept_trans {a b c : List MemoryPackEntry} (h : List.Forall₂ Kept a b)
    (h' : List.Forall₂ Kept b c) : List.Forall₂ Kept a c := by
  induction h generalizing c with
  | nil => exact h'
  | cons hkept _ ih =>
    cases h' with
    | cons hkept' hrest => exact .cons (hkept.trans hkept') (ih hrest)

theorem Shortened.trans {a b c d d' : List MemoryPackEntry} (h : Shortened a b d)
    (h' : Shortened b c d') :
    ∃ d'', Shortened a c d'' ∧
      d''.map MemoryPackEntry.id = (d' ++ d).map MemoryPackEntry.id := by
  obtain ⟨kept, rfl, hkept⟩ := h
  obtain ⟨kept', rfl, hkept'⟩ := h'
  -- The entries kept first are cut where the second removal cuts.
  have hfront := forall₂_take_append kept kept' d' hkept
  have hback := forall₂_drop_append kept kept' d' hkept
  refine ⟨kept.drop kept'.length ++ d, ⟨kept.take kept'.length, ?_, ?_⟩, ?_⟩
  · rw [← append_assoc, take_append_drop]
  · exact forall₂_kept_trans hfront hkept'
  · rw [map_append, map_append, forall₂_kept_ids hback]

theorem Trimmed.refl (p : MemoryPack) : Trimmed p p :=
  ⟨rfl, rfl, prefix_rfl, [], [], [], Shortened.same _, Shortened.same _, .nil, (append_nil _).symm⟩

theorem Trimmed.trans (h : Trimmed p q) (h' : Trimmed q r) : Trimmed p r := by
  obtain ⟨context, experiences, ids, hcontext, hexperiences, hids, hgaps⟩ := h.entries
  obtain ⟨context', experiences', ids', hcontext', hexperiences', hids', hgaps'⟩ := h'.entries
  obtain ⟨context'', hc, hcids⟩ := hcontext.trans hcontext'
  obtain ⟨experiences'', he, heids⟩ := hexperiences.trans hexperiences'
  refine ⟨h'.conflicts.trans h.conflicts, h'.diagnostics.trans h.diagnostics,
    h'.related.trans h.related, context'', experiences'', ids ++ ids', hc, he, ?_, ?_⟩
  · rw [map_append, hcids, heids]
    refine (hids.append hids').trans ?_
    -- Both sides have the two lots of each kind.
    refine perm_iff_count.mpr ?_
    intro id
    simp only [map_append, count_append]
    omega
  · rw [hgaps', hgaps, map_append, append_assoc]

theorem clearDetails_some (h : clearDetails es = some es') :
    List.Forall₂ Kept es es' ∧ detailed es' + 1 = detailed es := by
  induction es generalizing es' with
  | nil => cases h
  | cons e es ih =>
    rw [clearDetails] at h
    split at h
    next hnone =>
      obtain ⟨rest, hrest, rfl⟩ := Option.map_eq_some_iff.mp h
      obtain ⟨hkept, hcount⟩ := ih hrest
      refine ⟨.cons (Kept.refl e) hkept, ?_⟩
      simp only [detailed] at hcount ⊢
      simp [hnone, hcount]
    next hsome =>
      cases h
      exact ⟨.cons (.inr rfl) (forall₂_kept_refl es), by simp [detailed, hsome]⟩

theorem clearDetails_none (h : clearDetails es = none) : detailed es = 0 := by
  induction es with
  | nil => rfl
  | cons e es ih =>
    rw [clearDetails] at h
    split at h
    next hnone =>
      have hrest := ih (Option.map_eq_none_iff.mp h)
      simp only [detailed] at hrest ⊢
      simpa [hnone] using hrest
    next => cases h

/-- The estimate is no part of what may be lost. -/
theorem Trimmed.finalize (h : Trimmed p q) : Trimmed p (finalizeEstimate q) :=
  ⟨h.conflicts, h.diagnostics, h.related, h.entries⟩

def details (p : MemoryPack) : Nat := detailed p.currentContext + detailed p.relevantExperiences

/-- The kinds of removals; one renews the estimate. -/
inductive Removal (p : MemoryPack) : MemoryPack → Prop
  | source {s : MemoryPackSource} (last : p.relatedSources.getLast? = some s) :
      Removal p { p with relatedSources := p.relatedSources.dropLast }
  | details {context experiences : List MemoryPackEntry} (bare : p.relatedSources = [])
      (context_kept : List.Forall₂ Kept p.currentContext context)
      (experiences_kept : List.Forall₂ Kept p.relevantExperiences experiences)
      (fewer : detailed context + detailed experiences + 1 = details p) :
      Removal p (finalizeEstimate
        { p with currentContext := context, relevantExperiences := experiences })
  | experience {e : MemoryPackEntry} (bare : p.relatedSources = [])
      (plain : MemoryPacks.details p = 0) (last : p.relevantExperiences.getLast? = some e) :
      Removal p
        { p with
          relevantExperiences := p.relevantExperiences.dropLast
          evidenceGaps := p.evidenceGaps ++ [gapFor e.id] }
  | context {e : MemoryPackEntry} (bare : p.relatedSources = [])
      (plain : MemoryPacks.details p = 0) (none : p.relevantExperiences = [])
      (last : p.currentContext.getLast? = some e) :
      Removal p
        { p with
          currentContext := p.currentContext.dropLast
          evidenceGaps := p.evidenceGaps ++ [gapFor e.id] }

/-- Either there is a removal, or there is nothing left. -/
theorem removeNext_spec (p : MemoryPack) : (∃ q, removeNext p = some q ∧ Removal p q) ∨
    removeNext p = none ∧
      p.relatedSources = [] ∧ p.currentContext = [] ∧ p.relevantExperiences = [] := by
  unfold removeNext
  split
  next hrelated => exact .inl ⟨_, rfl, .source (getLast?_eq_some_getLast hrelated)⟩
  next hrelated =>
    have hrelated := not_not.mp hrelated
    split
    next context hcontext =>
      obtain ⟨hkept, hcount⟩ := clearDetails_some hcontext
      exact .inl ⟨_, rfl, .details hrelated hkept (forall₂_kept_refl _)
        (by rw [details]; omega)⟩
    next hcontext =>
      have hcontext := clearDetails_none hcontext
      split
      next experiences hexperiences =>
        obtain ⟨hkept, hcount⟩ := clearDetails_some hexperiences
        exact .inl ⟨_, rfl, .details hrelated (forall₂_kept_refl _) hkept
          (by rw [details]; omega)⟩
      next hexperiences =>
        have hplain : details p = 0 := by rw [details, hcontext, clearDetails_none hexperiences]
        split
        next e hlast => exact .inl ⟨_, rfl, .experience hrelated hplain hlast⟩
        next hnone =>
          have hnone := getLast?_eq_none_iff.mp hnone
          split
          next e hlast => exact .inl ⟨_, rfl, .context hrelated hplain hnone hlast⟩
          next hempty => exact .inr ⟨rfl, hrelated, getLast?_eq_none_iff.mp hempty, hnone⟩

theorem Removal.trimmed (h : Removal p q) : Trimmed p q := by
  cases h with
  | source =>
    exact ⟨rfl, rfl, dropLast_prefix _, [], [], [], Shortened.same _, Shortened.same _, .nil,
      (append_nil _).symm⟩
  | details _ hcontext hexperiences =>
    exact Trimmed.finalize ⟨rfl, rfl, prefix_rfl, [], [], [], Shortened.of_kept hcontext,
      Shortened.of_kept hexperiences, .nil, (append_nil _).symm⟩
  | @experience e _ _ hlast =>
    exact ⟨rfl, rfl, prefix_rfl, [], [e], [e.id], Shortened.same _, Shortened.last hlast, .refl _,
      rfl⟩
  | @context e _ _ _ hlast =>
    exact ⟨rfl, rfl, prefix_rfl, [e], [], [e.id], Shortened.last hlast, Shortened.same _, .refl _,
      rfl⟩

theorem detailed_dropLast_le (es : List MemoryPackEntry) : detailed es.dropLast ≤ detailed es :=
  (dropLast_sublist es).countP_le

theorem length_dropLast_add_one {α : Type} {xs : List α} {x : α} (h : xs.getLast? = some x) :
    xs.dropLast.length + 1 = xs.length := by
  obtain ⟨init, rfl⟩ := getLast?_eq_some_iff.mp h
  rw [dropLast_concat, length_append, length_singleton]

/-- Each removal leaves one thing less to remove. -/
theorem Removal.weight (h : Removal p q) : weight q + 1 = weight p := by
  cases h with
  | source hlast =>
    have hlength := length_dropLast_add_one hlast
    simp only [MemoryPacks.weight]
    omega
  | details _ hcontext hexperiences hfewer =>
    have hc := hcontext.length_eq
    have he := hexperiences.length_eq
    simp only [MemoryPacks.weight, finalizeEstimate, MemoryPacks.details] at hfewer ⊢
    omega
  | experience _ hplain hlast =>
    have hlength := length_dropLast_add_one hlast
    have hle := detailed_dropLast_le p.relevantExperiences
    simp only [MemoryPacks.weight, MemoryPacks.details] at hplain ⊢
    omega
  | context _ hplain _ hlast =>
    have hlength := length_dropLast_add_one hlast
    have hle := detailed_dropLast_le p.currentContext
    simp only [MemoryPacks.weight, MemoryPacks.details] at hplain ⊢
    omega

end Removal

/-! ## The removal order -/

section Order

variable {budget : Budget} {p q r : MemoryPack} {j k n : Nat}

/-- The pack after the next removal, if there is one. -/
def next (p : MemoryPack) : MemoryPack := (removeNext p).getD p

theorem next_eq (h : removeNext p = some q) : next p = q := by
  rw [next, h, Option.getD_some]

theorem trimmed_iterate (p : MemoryPack) (k : Nat) : Trimmed p (next^[k] p) := by
  induction k with
  | zero => exact Trimmed.refl p
  | succ k ih =>
    rw [Function.iterate_succ_apply']
    rcases removeNext_spec (next^[k] p) with ⟨q, hq, hremoval⟩ | ⟨hq, -⟩
    · rw [next_eq hq]
      exact ih.trans hremoval.trimmed
    · rw [next, hq]
      exact ih

/-- The first pack that fits, or the last one. -/
structure Stops (budget : Budget) (p q : MemoryPack) (ok : Bool) (k : Nat) : Prop where
  here : next^[k] p = q
  before : ∀ j < k, fits budget (next^[j] p) = false
  test : fits budget q = ok
  exhausted : ok = false → removeNext q = none

/-- **THE LOOP ENDS**: a removal takes a part. -/
theorem trim_stops (budget : Budget) (p : MemoryPack) (n : Nat) (hn : weight p ≤ n) :
    ∃ k, Stops budget p (trim budget n p).1 (trim budget n p).2 k := by
  induction n generalizing p with
  | zero =>
    refine ⟨0, rfl, fun j hj => absurd hj (Nat.not_lt_zero j), rfl, fun _ => ?_⟩
    rcases removeNext_spec p with ⟨q, -, hremoval⟩ | ⟨hnone, -⟩
    · have hweight := hremoval.weight
      omega
    · exact hnone
  | succ n ih =>
    rw [trim]
    cases hfits : fits budget p with
    | true =>
      exact ⟨0, rfl, fun j hj => absurd hj (Nat.not_lt_zero j), hfits, nofun⟩
    | false =>
      rcases removeNext_spec p with ⟨q, hnext, hremoval⟩ | ⟨hnone, -⟩
      · have hweight := hremoval.weight
        obtain ⟨k, hk⟩ := ih q (by omega)
        rw [hnext]
        refine ⟨k + 1, ?_, ?_, hk.test, hk.exhausted⟩
        · rw [Function.iterate_succ_apply, next_eq hnext]
          exact hk.here
        · intro j hj
          cases j with
          | zero => exact hfits
          | succ j =>
            rw [Function.iterate_succ_apply, next_eq hnext]
            exact hk.before j (Nat.lt_of_succ_lt_succ hj)
      · rw [hnone]
        exact ⟨0, rfl, fun j hj => absurd hj (Nat.not_lt_zero j), hfits, fun _ => hnone⟩

end Order

/-! ## The length of the text -/

section Sizes

variable {ts us : List Text} {fields : List (Text × Text)} {p q : MemoryPack}
  {es es' : List MemoryPackEntry}

/-- The bytes of texts with a comma after each. -/
def spread (ts : List Text) : Nat := (ts.map fun t => byteLen t + 1).sum

theorem spread_nil : spread [] = 0 := rfl

theorem spread_cons (t : Text) : spread (t :: ts) = byteLen t + 1 + spread ts := sum_cons

theorem spread_append : spread (ts ++ us) = spread ts + spread us := by
  rw [spread, map_append, sum_append]
  rfl

theorem byteLen_intercalate (ts : List Text) : byteLen ([','].intercalate ts) = spread ts - 1 := by
  induction ts with
  | nil => rfl
  | cons t ts ih =>
    cases ts with
    | nil => simp [spread]
    | cons u us =>
      have hcomma : byteLen [','] = 1 := rfl
      rw [intercalate_cons_cons, byteLen_append, byteLen_append, ih, spread_cons t, spread_cons u]
      omega

theorem byteLen_jsonArray (ts : List Text) : byteLen (jsonArray ts) = spread ts - 1 + 2 := by
  show byteLen (['['] ++ [','].intercalate ts ++ [']']) = _
  rw [byteLen_append, byteLen_append, byteLen_intercalate, Nat.add_comm (byteLen _)]
  rfl

/-- The bytes of a member of an object. -/
def memberLen (field : Text × Text) : Nat := byteLen (jsonString field.1) + byteLen field.2 + 2

theorem byteLen_jsonObject (field : Text × Text) : byteLen (jsonObject (field :: fields)) =
    memberLen field + (fields.map memberLen).sum + 1 := by
  have hspread : spread ((field :: fields).map fun field => jsonString field.1 ++ ':' :: field.2) =
      memberLen field + (fields.map memberLen).sum := by
    rw [← sum_cons, ← map_cons, spread, map_map]
    refine congrArg sum (map_congr_left fun f _ => ?_)
    show byteLen (jsonString f.1 ++ ([':'] ++ f.2)) + 1 = _
    have hcolon : byteLen [':'] = 1 := rfl
    rw [byteLen_append, byteLen_append, memberLen]
    omega
  have hbrace : byteLen [Char.ofNat 0x7b] = 1 ∧ byteLen [Char.ofNat 0x7d] = 1 := ⟨rfl, rfl⟩
  have hpositive : 2 ≤ memberLen field := Nat.le_add_left _ _
  show byteLen ([Char.ofNat 0x7b] ++ [','].intercalate _ ++ [Char.ofNat 0x7d]) = _
  rw [byteLen_append, byteLen_append, byteLen_intercalate, hspread]
  omega

/-- What the parts of a pack add to its text. -/
theorem MemoryPack.exists_bare : ∃ frame, ∀ p : MemoryPack, p.bare = frame +
    (spread (p.currentContext.map MemoryPackEntry.toJson) - 1) +
    (spread (p.relevantExperiences.map MemoryPackEntry.toJson) - 1) +
    (spread (p.conflictsOrChecks.map MemoryPackConflict.toJson) - 1) +
    (spread (p.evidenceGaps.map MemoryPackGap.toJson) - 1) +
    (spread (p.relatedSources.map MemoryPackSourceReference.toJson) - 1) +
    (spread (p.diagnostics.map jsonString) - 1) := by
  refine ⟨MemoryPack.bare ⟨[], [], [], [], [], [], 0⟩, fun p => ?_⟩
  simp only [bare, jsonWith, byteLen_jsonObject, memberLen, map_cons, map_nil, sum_cons, sum_nil,
    byteLen_jsonArray, jsonStrings, spread_nil]
  omega

/-- The number of decimal digits. -/
def width (n : Nat) : Nat := (Nat.toDigits 10 n).length

theorem width_le_iff {n digits : Nat} (h : 0 < digits) : width n ≤ digits ↔ n < 10 ^ digits :=
  Nat.length_toDigits_le_iff (by decide) h

theorem width_mono {m n : Nat} (h : m ≤ n) : width m ≤ width n :=
  (width_le_iff Nat.length_toDigits_pos).mpr
    (Nat.lt_of_le_of_lt h ((width_le_iff Nat.length_toDigits_pos).mp (Nat.le_refl _)))

theorem MemoryPack.size_eq (p : MemoryPack) : p.size = p.bare + width p.estimatedTokens := by
  have hdigits : byteLen (Nat.toDigits 10 p.estimatedTokens) = width p.estimatedTokens := by
    refine byteLen_ascii fun c hc => ?_
    have hdigit := Nat.isDigit_of_mem_toDigits (by decide) (by decide) hc
    simp only [Char.isDigit, Bool.and_eq_true, decide_eq_true_eq] at hdigit
    exact Nat.lt_of_le_of_lt (UInt32.le_iff_toNat_le.mp hdigit.2) (by decide)
  have hnil : byteLen [] = 0 := rfl
  rw [← hdigits, bare]
  show byteLen (p.jsonWith _) = _
  simp only [jsonWith, byteLen_jsonObject, memberLen, map_cons, map_nil, sum_cons, sum_nil]
  omega

/-- A gap is shorter than the entry it names. -/
theorem gapFor_lt (e : MemoryPackEntry) : byteLen (gapFor e.id).toJson + 4 ≤ byteLen e.toJson := by
  have hgap : byteLen (gapFor e.id).toJson = 47 + byteLen (jsonString e.id) := by
    have hcode : memberLen ("code".toList, jsonString (gapFor e.id).code) = 35 := by
      show memberLen (_, jsonString "core_entry_exceeds_budget".toList) = 35
      decide
    have hpointer : byteLen (jsonString "pointer".toList) = 9 := by decide
    show byteLen (jsonObject [(_, _), ("pointer".toList, jsonString e.id)]) = _
    rw [byteLen_jsonObject, hcode, map_singleton, sum_singleton]
    show 35 + (byteLen (jsonString "pointer".toList) + byteLen (jsonString e.id) + 2) + 1 = _
    omega
  have hid : byteLen (jsonString "id".toList) = 4 := by decide
  have hstatus : byteLen (jsonString "assertion_status".toList) = 18 := by decide
  have hassertions : byteLen (jsonString "core_assertions".toList) = 17 := by decide
  rw [hgap, MemoryPackEntry.toJson, byteLen_jsonObject]
  simp only [memberLen, map_cons, map_nil, sum_cons, sum_nil, hid, hstatus, hassertions]
  omega

theorem spread_kept (h : List.Forall₂ Kept es es') :
    spread (es'.map MemoryPackEntry.toJson) ≤ spread (es.map MemoryPackEntry.toJson) := by
  induction h with
  | nil => exact Nat.le_refl _
  | @cons e e' _ _ hkept _ ih =>
    have hle : byteLen e'.toJson ≤ byteLen e.toJson := by
      rcases hkept with rfl | rfl
      · exact Nat.le_refl _
      · simp only [MemoryPackEntry.toJson, byteLen_jsonObject, memberLen, map_cons, map_nil,
          sum_cons, sum_nil, jsonStrings, byteLen_jsonArray, spread_nil]
        omega
    simp only [map_cons, spread_cons]
    omega

theorem spread_last {α : Type} {xs : List α} {x : α} (f : α → Text) (h : xs.getLast? = some x) :
    spread (xs.map f) = spread (xs.dropLast.map f) + byteLen (f x) + 1 := by
  obtain ⟨init, rfl⟩ := getLast?_eq_some_iff.mp h
  rw [map_append, spread_append, dropLast_concat, map_singleton, spread_cons]
  rfl

theorem kept_bare (hcontext : List.Forall₂ Kept p.currentContext es)
    (hexperiences : List.Forall₂ Kept p.relevantExperiences es') :
    { p with currentContext := es, relevantExperiences := es' }.bare ≤ p.bare := by
  obtain ⟨frame, hbare⟩ := MemoryPack.exists_bare
  have hc := spread_kept hcontext
  have he := spread_kept hexperiences
  rw [hbare, hbare]
  dsimp only
  omega

theorem finalizeEstimate_bare (p : MemoryPack) : (finalizeEstimate p).bare = p.bare := by
  unfold MemoryPack.bare
  rfl

/-- No removal makes the text longer. -/
theorem Removal.bare_le (h : Removal p q) : q.bare ≤ p.bare := by
  obtain ⟨frame, hbare⟩ := MemoryPack.exists_bare
  cases h with
  | source hlast =>
    have hlast := spread_last MemoryPackSourceReference.toJson hlast
    rw [hbare, hbare]
    dsimp only
    omega
  | details _ hcontext hexperiences =>
    rw [finalizeEstimate_bare]
    exact kept_bare hcontext hexperiences
  | @experience e _ _ hlast | @context e _ _ _ hlast =>
    have hgap := gapFor_lt e
    have hlast := spread_last MemoryPackEntry.toJson hlast
    rw [hbare, hbare]
    simp only [map_append, spread_append, map_singleton, spread_cons, spread_nil]
    omega

theorem spread_gaps (es : List MemoryPackEntry) :
    spread ((es.map fun e => gapFor e.id).reverse.map MemoryPackGap.toJson) + 4 * es.length ≤
      spread (es.map MemoryPackEntry.toJson) := by
  induction es with
  | nil => exact Nat.le_refl _
  | cons e es ih =>
    have hgap := gapFor_lt e
    simp only [map_cons, reverse_cons, map_append, spread_append, map_nil, spread_cons,
      length_cons, spread_nil]
    omega

end Sizes

/-! ## When the estimate decides rightly -/

section Budgets

variable {budget : Budget} {pack p q : MemoryPack} {digits : Nat}

/-- The pack without its related sources. -/
def MemoryPack.withoutSources (p : MemoryPack) : MemoryPack := { p with relatedSources := [] }

def MemoryPackEntry.cleared (e : MemoryPackEntry) : MemoryPackEntry :=
  { e with optionalDetails := [] }

/-- The pack with a gap for each of its entries. -/
def MemoryPack.emptied (p : MemoryPack) : MemoryPack :=
  { p.withoutSources with
    currentContext := []
    relevantExperiences := []
    evidenceGaps := p.evidenceGaps ++
      ((p.currentContext ++ p.relevantExperiences).map fun e => gapFor e.id).reverse }

/-- Fewer digits are within a limit. -/
def Wide (limit digits : Nat) : Prop := 4 * 10 ^ (digits - 1) + digits ≤ limit

/-- The limits, with so many digits. -/
def Meets (budget : Budget) (digits : Nat) (p : MemoryPack) : Prop :=
  p.entryCount ≤ budget.maxEntries ∧ p.bare + digits ≤ budget.maxBytes ∧
    p.bare + digits ≤ 4 * budget.maxTokens

theorem Meets.anti (h : Meets budget digits p) (hle : q.bare ≤ p.bare)
    (hentries : q.entryCount ≤ p.entryCount) : Meets budget digits q := by
  obtain ⟨hcount, hbytes, htokens⟩ := h
  exact ⟨by omega, by omega, by omega⟩

theorem Meets.congr (hbare : q.bare = p.bare) (hentries : q.entryCount = p.entryCount) :
    Meets budget digits q ↔ Meets budget digits p := by
  rw [Meets, Meets, hbare, hentries]

theorem tokensOf_le_iff {bytes tokens : Nat} : tokensOf bytes ≤ tokens ↔ bytes ≤ 4 * tokens := by
  unfold tokensOf
  omega

theorem MemoryPack.emptied_bare (p : MemoryPack) : p.emptied.bare ≤ p.bare := by
  obtain ⟨frame, hbare⟩ := exists_bare
  have hnone : ∀ es : List MemoryPackEntry, es.length = 0 →
      spread (es.map MemoryPackEntry.toJson) = 0 := by
    intro es hes
    rw [length_eq_zero_iff.mp hes]
    rfl
  have hcontext := hnone p.currentContext
  have hexperiences := hnone p.relevantExperiences
  have hgaps := spread_gaps (p.currentContext ++ p.relevantExperiences)
  rw [map_append (f := MemoryPackEntry.toJson), spread_append, length_append] at hgaps
  rw [hbare, hbare, emptied, withoutSources, map_append (f := MemoryPackGap.toJson), spread_append]
  simp only [map_nil, spread_nil]
  omega

/-- The estimate is not below that of the text. -/
structure Tracked (digits : Nat) (p : MemoryPack) : Prop where
  most : width p.estimatedTokens ≤ digits
  above : p.size ≤ 4 * p.estimatedTokens
  small : p.bare + digits < 2 ^ 32
  few : p.entryCount < 2 ^ 32

theorem Trimmed.entryCount_le (h : Trimmed p q) : q.entryCount ≤ p.entryCount := by
  obtain ⟨_, _, _, ⟨kept, hcontext, hkept⟩, ⟨kept', hexperiences, hkept'⟩, -⟩ := h.entries
  rw [MemoryPack.entryCount, MemoryPack.entryCount, hcontext, hexperiences, ← hkept.length_eq,
    ← hkept'.length_eq, length_append, length_append]
  omega

theorem Tracked.shorter (h : Tracked digits p) (hsame : q.estimatedTokens = p.estimatedTokens)
    (hle : q.bare ≤ p.bare) (hentries : q.entryCount ≤ p.entryCount) : Tracked digits q := by
  obtain ⟨hdigits, habove, hsmall, hfew⟩ := h
  rw [p.size_eq] at habove
  refine ⟨hsame ▸ hdigits, ?_, by omega, by omega⟩
  rw [q.size_eq, hsame]
  omega

theorem Tracked.cleared (h : Tracked digits p) {context experiences : List MemoryPackEntry}
    (hcontext : List.Forall₂ Kept p.currentContext context)
    (hexperiences : List.Forall₂ Kept p.relevantExperiences experiences) : Tracked digits
      { p with currentContext := context, relevantExperiences := experiences } := by
  refine h.shorter rfl (kept_bare hcontext hexperiences) (Nat.le_of_eq ?_)
  rw [MemoryPack.entryCount, MemoryPack.entryCount, hcontext.length_eq, hexperiences.length_eq]

theorem finalizeEstimate_tokens (h : p.size < 2 ^ 32) :
    (finalizeEstimate p).estimatedTokens = tokensOf p.size := by
  refine Nat.mod_eq_of_lt ?_
  unfold tokensOf
  omega

theorem Tracked.finalize (hsize : p.size < 2 ^ 32) (hfew : p.entryCount < 2 ^ 32)
    (hdigits : width (tokensOf p.size) ≤ width p.estimatedTokens)
    (hsmall : p.bare + digits < 2 ^ 32) (hmost : width p.estimatedTokens ≤ digits) :
    Tracked digits (finalizeEstimate p) := by
  have htokens := finalizeEstimate_tokens hsize
  have hbare := finalizeEstimate_bare p
  refine ⟨?_, ?_, by rwa [hbare], hfew⟩
  · rw [htokens]
    omega
  · have hsize := p.size_eq
    have hle := tokensOf_le_iff.mp (Nat.le_refl (tokensOf p.size))
    rw [MemoryPack.size_eq, htokens, hbare]
    omega

/-- Recomputing an estimate does not raise it. -/
theorem Tracked.recomputed (h : Tracked digits p) : Tracked digits (finalizeEstimate p) ∧
    (finalizeEstimate p).estimatedTokens = tokensOf p.size ∧ tokensOf p.size ≤ p.estimatedTokens := by
  have hle := tokensOf_le_iff.mpr h.above
  have hdigits := h.most
  have hsmall := h.small
  have hsize : p.size < 2 ^ 32 := by
    rw [p.size_eq]
    omega
  exact ⟨.finalize hsize h.few (width_mono hle) h.small h.most, finalizeEstimate_tokens hsize, hle⟩

/-- With fewer digits it is within anyway. -/
theorem Tracked.size_le_iff (h : Tracked digits p) {limit : Nat} (hwide : Wide limit digits) :
    p.size ≤ limit ↔ p.bare + digits ≤ limit := by
  obtain ⟨hdigits, habove, -, -⟩ := h
  unfold Wide at hwide
  rw [p.size_eq] at habove ⊢
  rcases Nat.eq_or_lt_of_le hdigits with heq | hlt
  · rw [heq]
  · have hfewer : p.estimatedTokens < 10 ^ (digits - 1) :=
      (width_le_iff (Nat.lt_of_lt_of_le Nat.length_toDigits_pos (Nat.le_sub_one_of_lt hlt))).mp
        (Nat.le_sub_one_of_lt hlt)
    omega

/-- A recomputed estimate tells of the token limit. -/
theorem Tracked.fresh (h : Tracked digits p) (htokens : Wide (4 * budget.maxTokens) digits) :
    budget.maxTokens < (finalizeEstimate p).estimatedTokens ↔
      4 * budget.maxTokens < (finalizeEstimate p).bare + digits := by
  rw [h.recomputed.2.1, finalizeEstimate_bare p, ← Nat.not_le, tokensOf_le_iff,
    h.size_le_iff htokens, Nat.not_le]

/-- An estimate within the limit stays there. -/
theorem Tracked.next (h : Tracked digits p) : Tracked digits (next p) ∧
    (next p).estimatedTokens ≤ p.estimatedTokens := by
  rcases removeNext_spec p with ⟨q, hq, hremoval⟩ | ⟨hq, -⟩
  · rw [next_eq hq]
    have hle := hremoval.bare_le
    have hentries := hremoval.trimmed.entryCount_le
    cases hremoval with
    | source | experience | context => exact ⟨h.shorter rfl hle hentries, Nat.le_refl _⟩
    | details _ hcontext hexperiences =>
      obtain ⟨htracked, htokens, hlower⟩ := (h.cleared hcontext hexperiences).recomputed
      exact ⟨htracked, htokens ▸ hlower⟩
  · rw [MemoryPacks.next, hq]
    exact ⟨h, Nat.le_refl _⟩

theorem Tracked.iterate (h : Tracked digits p) (k : Nat) : Tracked digits (MemoryPacks.next^[k] p) ∧
    (MemoryPacks.next^[k] p).estimatedTokens ≤ p.estimatedTokens := by
  induction k generalizing p with
  | zero => exact ⟨h, Nat.le_refl _⟩
  | succ k ih =>
    obtain ⟨hrest, hlower⟩ := ih h.next.1
    exact ⟨hrest, Nat.le_trans hlower h.next.2⟩

section Limits

variable (hbytes : Wide budget.maxBytes digits) (htokens : Wide (4 * budget.maxTokens) digits)
include hbytes htokens

end Limits

theorem Meets.emptied (h : Meets budget digits p) : Meets budget digits p.emptied :=
  h.anti p.emptied_bare (Nat.zero_le _)

section Limits

variable (hbytes : Wide budget.maxBytes digits) (htokens : Wide (4 * budget.maxTokens) digits)
include htokens

include hbytes

end Limits

/-- The loop only removes; a gap names each card. -/
theorem enforceFinalBudget_trims (budget : Budget) (pack : MemoryPack) :
    Trimmed pack (enforceFinalBudget budget pack).1 := by
  obtain ⟨k, hstops⟩ := trim_stops budget (finalizeEstimate pack) _ (Nat.le_refl _)
  rw [enforceFinalBudget, ← hstops.here]
  exact (Trimmed.refl pack).finalize.trans (trimmed_iterate _ k)

end Budgets

end MemoryPacks
