import McpVault.PackScopeProofs

/-! # What a full pack leaves out

Candidates are ranked by how much of the request they mention, and merged in that order.  The
merged entries are then put in the order of their ids, and in this order `max_entries` cuts them.
So a pack keeps the best of what was admitted exactly if the ids happen to put it first. -/

namespace MemoryPacks

open List
open LogicalPath (Normalizer plain)
open PlainText (Text)
open SortedMap

variable {relations : List SemanticRelationRecord} {cs ranked current : List Candidate}
  {c : Candidate} {x y : Text × MemoryPackEntry} {t : Text} {n : Nat} {pack : MemoryPack}

/-! ## The groups of a merge -/

def mergeKey (relations : List SemanticRelationRecord) (c : Candidate) : Text :=
  semanticKey (candidateToEntry c) ++ '|' :: relationBarrierKey (candidateToEntry c) relations

/-- The map of the merge, in the order of the ids. -/
def merged (relations : List SemanticRelationRecord) (cs : List Candidate) :
    List (Text × MemoryPackEntry) :=
  (enter (mergeKey relations) candidateToEntry (fun c e => mergeEntry e (candidateToEntry c))
    cs).insertionSort fun x y => x.2.id ≤ y.2.id

/-- Made of the same candidates. -/
def SameKeys (e e' : MemoryPackEntry) : Prop := ∀ t, t ∈ e.candidateKeys ↔ t ∈ e'.candidateKeys

instance (e e' : MemoryPackEntry) : Decidable (SameKeys e e') :=
  decidable_of_iff (e.candidateKeys ⊆ e'.candidateKeys ∧ e'.candidateKeys ⊆ e.candidateKeys)
    ⟨fun h _ => ⟨@h.1 _, @h.2 _⟩, fun h => ⟨fun _ => (h _).mp, fun _ => (h _).mpr⟩⟩

/-- Entries of the same candidates, in any order. -/
def SameEntries (es es' : List MemoryPackEntry) : Prop :=
  (∀ e ∈ es, ∃ e' ∈ es', SameKeys e e') ∧ ∀ e' ∈ es', ∃ e ∈ es, SameKeys e e'

theorem map_merged : (merged relations cs).map (·.2) = mergeCandidates relations cs :=
  map_insertionSort _ _ _ _ fun _ _ _ _ => Iff.rfl

theorem mem_keys_merged : t ∈ (merged relations cs).map (·.1) ↔ t ∈ cs.map (mergeKey relations) :=
  ((perm_insertionSort _ _).map _).mem_iff.trans mem_keys_enter

theorem nodup_keys_merged : ((merged relations cs).map (·.1)).Nodup :=
  ((perm_insertionSort _ _).map _).nodup_iff.mpr keys_enter.nodup

/-- An entry's keys are those of its candidates. -/
theorem mem_candidateKeys_iff (hx : x ∈ merged relations cs) : t ∈ x.2.candidateKeys ↔
      ∃ c ∈ cs, mergeKey relations c = x.1 ∧ candidateIdentity c = t := by
  have hself := candidateToEntry_candidateKeys
  constructor
  · refine forall_enter (P := fun x => t ∈ x.2.candidateKeys →
      ∃ c ∈ cs, mergeKey relations c = x.1 ∧ candidateIdentity c = t) ?_ ?_ x
        ((mem_insertionSort _).mp hx)
    · intro c hc ht
      rw [hself] at ht
      exact ⟨c, hc, rfl, (mem_singleton.mp ht).symm⟩
    · intro c hc v hv ht
      rcases mem_append.mp (mem_sortDedupTexts.mp ht) with ht | ht
      · exact hv ht
      · rw [hself] at ht
        exact ⟨c, hc, rfl, (mem_singleton.mp ht).symm⟩
  · rintro ⟨c, hc, hkey, rfl⟩
    obtain ⟨y, hy, hykey, hmem⟩ : ∃ y ∈ merged relations cs,
        y.1 = mergeKey relations c ∧ candidateIdentity c ∈ y.2.candidateKeys := by
      simp only [merged, mem_insertionSort]
      refine exists_enter hc ⟨rfl, ?_⟩ (fun v => ⟨rfl, ?_⟩) fun d v h => ⟨h.1, ?_⟩
      · rw [hself]
        exact mem_singleton_self _
      · refine mem_sortDedupTexts.mpr (mem_append_right _ ?_)
        rw [hself]
        exact mem_singleton_self _
      · exact mem_sortDedupTexts.mpr (mem_append_left _ h.2)
    rwa [inj_on_of_nodup_map nodup_keys_merged hx hy (hkey.symm.trans hykey.symm)]

/-- Every entry was made of some candidate. -/
theorem exists_of_mem_merged (hx : x ∈ merged relations cs) :
    ∃ c ∈ cs, mergeKey relations c = x.1 :=
  mem_map.mp (mem_keys_merged.mp (mem_map_of_mem hx))

section Regroup

variable (hunique : (current.map candidateIdentity).Nodup) (hranked : ∀ c ∈ ranked, c ∈ current)

include hunique hranked

/-- No two entries are made of the same candidates. -/
theorem eq_of_sameKeys (hx : x ∈ merged relations ranked) (hy : y ∈ merged relations ranked)
    (h : SameKeys x.2 y.2) : x = y := by
  obtain ⟨c, hc, hkey⟩ := exists_of_mem_merged hx
  have hmem := (h _).mp ((mem_candidateKeys_iff hx).mpr ⟨c, hc, hkey, rfl⟩)
  obtain ⟨d, hd, hdkey, hsame⟩ := (mem_candidateKeys_iff hy).mp hmem
  obtain rfl := inj_on_of_nodup_map hunique (hranked d hd) (hranked c hc) hsame
  exact inj_on_of_nodup_map nodup_keys_merged hx hy (hkey.symm.trans hdkey)

/-- Keys of entries give back their candidates. -/
theorem mem_found (hx : x ∈ merged relations ranked) :
    c ∈ x.2.candidateKeys.filterMap (lookupCandidate current) ↔
      c ∈ ranked ∧ mergeKey relations c = x.1 := by
  rw [mem_filterMap]
  constructor
  · rintro ⟨t, ht, hfound⟩
    obtain ⟨d, hd, hkey, rfl⟩ := (mem_candidateKeys_iff hx).mp ht
    rw [lookupCandidate_of_mem hunique (hranked d hd)] at hfound
    obtain rfl := Option.some.inj hfound
    exact ⟨hd, hkey⟩
  · rintro ⟨hc, hkey⟩
    exact ⟨_, (mem_candidateKeys_iff hx).mpr ⟨c, hc, hkey, rfl⟩,
      lookupCandidate_of_mem hunique (hranked c hc)⟩

omit hunique hranked in
/-- Merging the candidates again gives back the entries. -/
theorem merged_again {chosen : List (Text × MemoryPackEntry)}
    (hchosen : ∀ x ∈ chosen, x ∈ merged relations ranked)
    (hcs : ∀ c, c ∈ cs ↔ ∃ x ∈ chosen, c ∈ ranked ∧ mergeKey relations c = x.1) :
    (mergeCandidates relations cs).length ≤ chosen.length ∧
      SameEntries (mergeCandidates relations cs) (chosen.map (·.2)) := by
  have hkeys : ∀ t, t ∈ (merged relations cs).map (·.1) ↔ t ∈ chosen.map (·.1) := by
    intro t
    rw [mem_keys_merged]
    constructor
    · intro ht
      obtain ⟨c, hc, rfl⟩ := mem_map.mp ht
      obtain ⟨x, hx, -, hkey⟩ := (hcs c).mp hc
      exact hkey ▸ mem_map_of_mem hx
    · intro ht
      obtain ⟨x, hx, rfl⟩ := mem_map.mp ht
      obtain ⟨c, hc, hkey⟩ := exists_of_mem_merged (hchosen x hx)
      exact hkey ▸ mem_map_of_mem ((hcs c).mpr ⟨x, hx, hc, hkey⟩)
  have hsame : ∀ x ∈ merged relations cs, ∀ y ∈ chosen, x.1 = y.1 → SameKeys x.2 y.2 := by
    intro x hx y hy hxy t
    rw [mem_candidateKeys_iff hx, mem_candidateKeys_iff (hchosen y hy)]
    constructor
    · rintro ⟨c, hc, hkey, ht⟩
      obtain ⟨-, -, hc, -⟩ := (hcs c).mp hc
      exact ⟨c, hc, hkey.trans hxy, ht⟩
    · rintro ⟨c, hc, hkey, ht⟩
      exact ⟨c, (hcs c).mpr ⟨y, hy, hc, hkey⟩, hkey.trans hxy.symm, ht⟩
  rw [← map_merged]
  refine ⟨?_, ?_, ?_⟩
  · simpa using (nodup_keys_merged.subperm fun t ht => (hkeys t).mp ht).length_le
  · intro e he
    obtain ⟨x, hx, rfl⟩ := mem_map.mp he
    obtain ⟨y, hy, hxy⟩ := mem_map.mp ((hkeys x.1).mp (mem_map_of_mem hx))
    exact ⟨_, mem_map_of_mem hy, hsame x hx y hy hxy.symm⟩
  · intro e he
    obtain ⟨y, hy, rfl⟩ := mem_map.mp he
    obtain ⟨x, hx, hxy⟩ := mem_map.mp ((hkeys y.1).mpr (mem_map_of_mem hy))
    exact ⟨_, mem_map_of_mem hx, hsame x hx y hy hxy⟩

end Regroup

/-! ## Cutting by number alone -/

/-- No number of 32 bits is above the limits. -/
def Budget.ofEntries (n : Nat) : Budget := ⟨n, 2 ^ 32, 2 ^ 32⟩

theorem fits_ofEntries (h : pack.entryCount ≤ n) :
    fits (.ofEntries n) (finalizeEstimate pack) := by
  refine decide_eq_true ⟨(Nat.mod_le _ _).trans h, ?_, ?_⟩
  all_goals exact (Nat.mod_lt _ (by decide)).le

theorem acceptEntries_ofEntries {accepted es : List MemoryPackEntry} (hn : n < 2 ^ 32)
    (hpack : pack.relevantExperiences = []) (haccepted : accepted.length ≤ n) :
    (acceptEntries (.ofEntries n) pack accepted es).2 =
      accepted ++ es.take (n - accepted.length) := by
  induction es generalizing accepted with
  | nil => simp [acceptEntries]
  | cons entry rest ih =>
    have hcount : asU32 accepted.length = accepted.length :=
      Nat.mod_eq_of_lt (haccepted.trans_lt hn)
    simp only [acceptEntries, hcount]
    by_cases hfull : (Budget.ofEntries n).maxEntries ≤ accepted.length
    · have hzero : n - accepted.length = 0 := Nat.sub_eq_zero_of_le hfull
      rw [if_pos hfull, hzero, take_zero, append_nil]
    · have hlen : (accepted ++ [entry]).length ≤ n := by
        rw [length_append]
        exact Nat.lt_of_not_le hfull
      rw [if_neg hfull, if_pos (fits_ofEntries (by simpa [MemoryPack.entryCount, hpack] using hlen)),
        ih hlen]
      obtain ⟨k, hk : n - accepted.length = k + 1⟩ :=
        Nat.exists_eq_add_one.mpr (Nat.sub_pos_of_lt (Nat.lt_of_not_le hfull))
      rw [hk, append_assoc, length_append, Nat.sub_add_eq, hk]
      rfl

theorem applyBudget_ofEntries {es : List MemoryPackEntry} (hn : n < 2 ^ 32)
    (hpack : pack.relevantExperiences = []) :
    (applyBudget (.ofEntries n) pack es).entries.Perm (es.take n) := by
  have haccepted : (acceptEntries (.ofEntries n) pack [] es).2 = es.take n :=
    acceptEntries_ofEntries hn hpack (Nat.zero_le n)
  show (_ ++ _ : List MemoryPackEntry).Perm _
  rw [← haccepted]
  exact perm_append_comm.trans (filter_append_perm isExperience _)

theorem enforceFinalBudget_ofEntries (h : pack.entries.length ≤ n) :
    enforceFinalBudget (.ofEntries n) pack = (finalizeEstimate pack, true) := by
  rw [MemoryPack.entries, length_append] at h
  have hfits := fits_ofEntries h
  rw [enforceFinalBudget]
  cases weight (finalizeEstimate pack) with
  | zero => rw [trim, hfits]
  | succ k => rw [trim, if_pos hfits]

theorem revalidateFinalEntries_ofEntries (hn : n < 2 ^ 32) :
    (revalidateFinalEntries (.ofEntries n) current relations pack).entries.Perm
      ((mergeCandidates relations (pack.entries.flatMap fun e =>
        e.candidateKeys.filterMap (lookupCandidate current))).take n) :=
  applyBudget_ofEntries hn rfl

/-- With room for all, the first entries by id. -/
theorem assemble_ofEntries (hunique : (current.map candidateIdentity).Nodup)
    (hranked : ∀ c ∈ ranked, c ∈ current) (hn : n < 2 ^ 32)
    (hpack : pack.relevantExperiences = []) :
    ∃ out, assemble (.ofEntries n) pack ranked current relations = .ok out ∧
      SameEntries out.entries ((mergeCandidates relations ranked).take n) := by
  have hchosen : ∀ x ∈ (merged relations ranked).take n, x ∈ merged relations ranked :=
    fun x hx => mem_of_mem_take hx
  simp only [assemble, filter_mem_identity hranked, filter_not_mem_identity hranked, map_nil,
    append_nil]
  set first := applyBudget (.ofEntries n) { pack with
    conflictsOrChecks := conflictsFor (mergeCandidates relations ranked) relations }
    (mergeCandidates relations ranked)
  have hperm : first.entries.Perm (((merged relations ranked).take n).map (·.2)) := by
    rw [map_take, map_merged]
    exact applyBudget_ofEntries hn hpack
  have hcs : ∀ c, c ∈ first.entries.flatMap
      (fun e => e.candidateKeys.filterMap (lookupCandidate current)) ↔
      ∃ x ∈ (merged relations ranked).take n, c ∈ ranked ∧ mergeKey relations c = x.1 := by
    intro c
    simp only [mem_flatMap, hperm.mem_iff, mem_map, exists_exists_and_eq_and]
    exact exists_congr fun x => and_congr_right fun hx => mem_found hunique hranked (hchosen x hx)
  obtain ⟨hlen, hsame⟩ := merged_again hchosen hcs
  -- what is merged again is all accepted again
  have hlen := hlen.trans (length_take_le n _)
  have hsecond := @revalidateFinalEntries_ofEntries relations current n first hn
  rw [take_of_length_le hlen] at hsecond
  generalize revalidateFinalEntries (.ofEntries n) current relations first = second at hsecond ⊢
  have hcount := hsecond.length_eq.trans_le hlen
  rw [enforceFinalBudget_ofEntries hcount]
  have hcount : (refreshRelationMetadata relations (finalizeEstimate second)).entries.length ≤ n :=
    hcount
  simp only [enforceFinalBudget_ofEntries hcount]
  refine ⟨_, rfl, ?_⟩
  show SameEntries second.entries _
  rw [← map_merged, ← map_take]
  simpa only [SameEntries, hsecond.mem_iff] using hsame

/-! ## What is left out -/

def MemoryPackRequest.withoutLimits (r : MemoryPackRequest) : MemoryPackRequest :=
  { r with budget := .ofEntries r.budget.maxEntries }

section

variable (U : Unicode) (v : VaultState) (request : MemoryPackRequest)

/-- The distinct entries admitted, in order of ids. -/
def VaultState.admitted : List MemoryPackEntry :=
  if request.mode = .history ∨ request.version.isSome ∨ request.asOf.isSome ∨ !v.policyEnabled then
    []
  else mergeCandidates (relationsWithinSourceScope v.listCurrentRelations request.sourceScope)
    (rank U request (v.offered request))

/-- The best score of the candidates of an entry. -/
def VaultState.score (e : MemoryPackEntry) : WithBot (Nat ×ₗ Nat) :=
  (((v.offered request).filter fun c => decide (candidateIdentity c ∈ e.candidateKeys)).filterMap
    (relevance U request)).maximum

/-- No entry left out scores higher than one returned. -/
def KeepsBest (pack : MemoryPack) : Prop :=
  ∀ e ∈ v.admitted U request, (∀ e' ∈ pack.entries, ¬ SameKeys e e') →
    ∀ e' ∈ pack.entries, v.score U request e ≤ v.score U request e'

end

variable {U : Unicode} {N : Normalizer} {ids : Identifiers} {v : VaultState}
  {request : MemoryPackRequest} {e e' : MemoryPackEntry}

theorem score_congr (h : SameKeys e e') : v.score U request e = v.score U request e' := by
  simp only [VaultState.score, h _]

theorem mem_candidates_of_rank : ∀ c ∈ rank U request (v.offered request), c ∈ v.candidates :=
  fun _ hc => VaultState.mem_candidates (mem_of_mem_rank hc)

/-- What is cut is of other candidates. -/
theorem not_sameKeys_of_cut (he : e ∈ (v.admitted U request).drop n)
    (he' : e' ∈ (v.admitted U request).take n) : ¬ SameKeys e e' := by
  intro hsame
  unfold VaultState.admitted at he he'
  split_ifs at he he'
  · simp at he
  · rw [← map_merged, ← map_drop] at he
    rw [← map_merged, ← map_take] at he'
    obtain ⟨x, hx, rfl⟩ := mem_map.mp he
    obtain ⟨y, hy, rfl⟩ := mem_map.mp he'
    have hxy := eq_of_sameKeys v.candidates_unique mem_candidates_of_rank (mem_of_mem_drop hx)
      (mem_of_mem_take hy) hsame
    exact disjoint_take_drop nodup_keys_merged.of_map le_rfl hy (hxy ▸ hx)

theorem opening_entries : v.opening.entries = [] := by
  unfold VaultState.opening
  split_ifs <;> rfl

theorem maxEntries_le_of_valid (h : validateRequest N ids request = .ok ()) :
    request.budget.maxEntries ≤ 200 := by
  unfold validateRequest at h
  split_ifs at h with hlarge hbudget
  all_goals exact Nat.not_lt.mp fun hlt => hbudget (.inr (.inl hlt))

theorem build_withoutLimits (h : build U N ids v request.withoutLimits = .ok pack) :
    SameEntries pack.entries ((v.admitted U request).take request.budget.maxEntries) := by
  have hempty : SameEntries [] (([] : List MemoryPackEntry).take request.budget.maxEntries) := by
    simp [SameEntries]
  obtain ⟨⟨⟩, hvalid, h⟩ := Fallible.bind_ok_iff.mp h
  have hn := maxEntries_le_of_valid hvalid
  unfold VaultState.admitted
  split at h
  next hmode =>
    cases h
    rwa [if_pos (.inl hmode)]
  next hmode =>
  split at h
  next hversion =>
    cases h
    rwa [if_pos (.inr (or_assoc.mp (.inl hversion)))]
  next hversion =>
  split at h
  next hpolicy =>
    cases h
    rwa [if_pos (.inr (.inr (.inr hpolicy)))]
  next hpolicy =>
  rw [if_neg]
  · replace h : ite (rank U request (v.offered request) = []) _ _ = _ := h
    split at h
    next hnone =>
      cases h
      rw [hnone]
      show SameEntries v.opening.entries _
      rwa [opening_entries]
    next hsome =>
      obtain ⟨out, hout, hsame⟩ := assemble_ofEntries v.candidates_unique mem_candidates_of_rank
        (hn.trans_lt (by decide)) (append_eq_nil_iff.mp opening_entries).2
      cases hout.symm.trans h
      exact hsame
  · rintro (h | h | h | h)
    exacts [hmode h, hversion (.inl h), hversion (.inr h), hpolicy h]

/-- **A CUT PACK KEEPS THE BEST** iff ids put it first. -/
theorem build_keepsBest_iff (U : Unicode) (N : Normalizer) (ids : Identifiers) (v : VaultState)
    (request : MemoryPackRequest) (pack : MemoryPack)
    (hlimits : build U N ids v request.withoutLimits = build U N ids v request)
    (hbuild : build U N ids v request = .ok pack) :
    KeepsBest U v request pack ↔ ∀ e ∈ (v.admitted U request).drop request.budget.maxEntries,
        ∀ e' ∈ (v.admitted U request).take request.budget.maxEntries,
          v.score U request e ≤ v.score U request e' := by
  obtain ⟨hreturned, htaken⟩ := build_withoutLimits (hlimits.trans hbuild)
  constructor
  · intro h e he e' he'
    obtain ⟨r, hr, hsame⟩ := htaken e' he'
    rw [← score_congr hsame]
    refine h e (mem_of_mem_drop he) (fun r hr hsame => ?_) r hr
    obtain ⟨e', he', hsame'⟩ := hreturned r hr
    exact not_sameKeys_of_cut he he' fun t => (hsame t).trans (hsame' t)
  · intro h e he hleft r hr
    obtain ⟨e', he', hsame⟩ := hreturned r hr
    rw [score_congr hsame]
    refine h e ?_ e' he'
    rw [← take_append_drop request.budget.maxEntries (v.admitted U request)] at he
    refine (mem_append.mp he).resolve_left fun htake => ?_
    obtain ⟨r', hr', hsame'⟩ := htaken e htake
    exact hleft r' hr' fun t => (hsame' t).symm

/-! ## Two cards and room for one -/

def scopedVault (first second : String) : VaultState where
  policyEnabled := true
  cards := [("a", first), ("b", second)].map fun (id, scope) =>
    ⟨⟨id.toList, [], [], [], [], [], "fact".toList, scope.toList, [], ⟨[], true⟩, []⟩, true⟩
  composed := []
  relations := []
  cardsUnique := by simp [candidateIdentity]
  composedUnique := nodup_nil

def oneEntry : MemoryPackRequest :=
  ⟨"xx yy".toList, none, none, none, none, none, [], none, none, [], true, true, .current,
    ⟨1, 4000, 4000⟩⟩

def plainBuild : VaultState → MemoryPackRequest → Except PackError MemoryPack :=
  build plainUnicode plain hyphenated

def packOf (v : VaultState) : MemoryPack := (plainBuild v oneEntry).toOption.getD .empty

theorem build_keepsBest_first :
    ((scopedVault "xx yy" "xx").admitted plainUnicode oneEntry).length = 2 ∧
    KeepsBest plainUnicode (scopedVault "xx yy" "xx") oneEntry (packOf (scopedVault "xx yy" "xx")) := by
  refine ⟨by decide +kernel, ?_⟩
  refine (build_keepsBest_iff plainUnicode plain hyphenated _ _ _ ?_ ?_).mpr ?_
  all_goals decide +kernel

theorem build_drops_best : plainBuild (scopedVault "xx" "xx yy") oneEntry.withoutLimits =
        plainBuild (scopedVault "xx" "xx yy") oneEntry ∧
      plainBuild (scopedVault "xx" "xx yy") oneEntry = .ok (packOf (scopedVault "xx" "xx yy")) ∧
      ¬ KeepsBest plainUnicode (scopedVault "xx" "xx yy") oneEntry (packOf (scopedVault "xx" "xx yy")) := by
  unfold KeepsBest
  refine ⟨?_, ?_, ?_⟩ <;> decide +kernel

end MemoryPacks
