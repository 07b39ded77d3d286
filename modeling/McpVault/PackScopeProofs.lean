import McpVault.PackBudgetProofs
import McpVault.SortedMapProofs

/-! # Packs within a source scope

`build` loads candidates by capped listings, filters, ranks and merges them, cuts to the budget,
and loads everything once more.  What a source scope leaves out can reach the pack by taking a
place in a listing, by having its truncation reported, and by being there when nothing is
relevant. -/

namespace MemoryPacks

open List
open LogicalPath (Normalizer beneath byteLen plain)
open PlainText (Text)
open SortedMap (upsert)

/-! ## Search terms -/

/-- What is used of Unicode. -/
structure Unicode where
  nfkc : Text → Text
  toLowercase : Char → Text
  lowercase : Text → Text
  (isAlphanumeric isWhitespace : Char → Bool)

def stopWords : List Text :=
  ["a", "an", "and", "are", "did", "do", "does", "for", "how", "in", "is", "of", "on", "or",
    "please", "the", "to", "what", "when", "where", "which", "who", "why", "with", "什么", "为何",
    "为什么", "如何", "怎么", "是否", "这个", "那个", "请问"].map String.toList

def isHan (c : Char) : Bool :=
  decide (0x3400 ≤ c.toNat ∧ c.toNat ≤ 0x4dbf ∨ 0x4e00 ≤ c.toNat ∧ c.toNat ≤ 0x9fff ∨
    0xf900 ≤ c.toNat ∧ c.toNat ≤ 0xfaff ∨ 0x20000 ≤ c.toNat ∧ c.toNat ≤ 0x2fa1f)

/-- The terms so far, and every term seen. -/
structure Terms where
  (terms seen : List Text)

/-- `push_term`: beyond the limit it is still seen. -/
def Terms.push (limit : Nat) (t : Terms) (term : Text) : Terms :=
  if term = [] ∨ term ∈ stopWords ∨ term ∈ t.seen then t
  else if t.terms.length < limit then ⟨t.terms ++ [term], term :: t.seen⟩
  else ⟨t.terms, term :: t.seen⟩

def Terms.flushWord (limit : Nat) (t : Terms) (word : Text) : Terms :=
  if 2 ≤ word.length then t.push limit word else t

def Terms.pushPairs (limit : Nat) (t : Terms) : Text → Terms
  | a :: b :: rest =>
    let t' := t.push limit [a, b]
    if limit ≤ t'.terms.length then t' else pushPairs limit t' (b :: rest)
  | _ => t

def Terms.flushHan (limit : Nat) (t : Terms) : Text → Terms
  | [] => t
  | [c] => t.push limit [c]
  | han => t.pushPairs limit han

/-- One value's characters; `word`, `han` are open runs. -/
def Terms.scan (U : Unicode) (limit : Nat) (t : Terms) (word han : Text) : Text → Terms
  | [] => (t.flushWord limit word).flushHan limit han
  | c :: rest =>
    let (t', word', han') :=
      if isHan c then (t.flushWord limit word, [], han ++ [c])
      else if U.isAlphanumeric c then (t.flushHan limit han, word ++ [c], [])
      else ((t.flushWord limit word).flushHan limit han, [], [])
    if limit ≤ t'.terms.length then (t'.flushWord limit word').flushHan limit han'
    else scan U limit t' word' han' rest

def Terms.scanAll (U : Unicode) (limit : Nat) (t : Terms) : List Text → Terms
  | [] => t
  | value :: rest =>
    let t' := t.scan U limit [] [] ((U.nfkc value).flatMap U.toLowercase)
    if limit ≤ t'.terms.length then t' else scanAll U limit t' rest

def memorySearchTerms (U : Unicode) (values : List Text) (limit : Nat) : Text :=
  if limit = 0 then [] else [' '].intercalate (Terms.scanAll U limit ⟨[], []⟩ values).terms

def splitWhitespace (U : Unicode) (t : Text) : List Text :=
  (t.splitOnP U.isWhitespace).filter fun word => !word.isEmpty

/-! ## Cards, relations and requests -/

structure CardItem where
  (kind content : Text)
  evidenceRefIds : List Text
  deriving DecidableEq

structure SemanticCardRecord where
  (id revisionId sourceId sourceRevisionId sourcePath title kind scopeRef assertionStatus : Text)
  temporalScope : TemporalScope
  items : List CardItem
  deriving DecidableEq

structure SupportMember where
  (sourceId sourceRevisionId sourcePath evidenceRefId : Text)

structure ComposedCardItem where
  (kind content : Text)
  supportGroups : List (List SupportMember)

structure ComposedCardRecord where
  (id revisionId title kind scopeRef assertionStatus : Text)
  temporalScope : TemporalScope
  items : List ComposedCardItem

inductive Candidate where
  | m1 (card : SemanticCardRecord)
  | m2 (card : ComposedCardRecord)

structure SemanticRelationRecord where
  (id relationKind reasonCode leftSourceId rightSourceId leftObservationId : Text)
  rightObservationId : Text

structure MemoryPackSourceScope where
  (sourceIds sourcePaths sourceRevisionIds : List Text)

inductive MemoryPackMode where
  | current
  | history
  deriving DecidableEq

structure MemoryPackRequest where
  task : Text
  query : Option Text
  sourceScope : Option MemoryPackSourceScope
  (exactSourcePath pathPrefix scopeRef : Option Text)
  kinds : List Text
  (version asOf : Option Text)
  subjectTerms : List Text
  (includeM1 includeM2 : Bool)
  mode : MemoryPackMode
  budget : Budget

def ComposedCardRecord.members (card : ComposedCardRecord) : List SupportMember :=
  card.items.flatMap fun item => item.supportGroups.flatten

def candidateIdentity : Candidate → Text
  | .m1 card => "m1:".toList ++ card.id ++ ':' :: card.revisionId
  | .m2 card => "m2:".toList ++ card.id ++ ':' :: card.revisionId

def candidateMaterial : Candidate → Text
  | .m1 card => [' '].intercalate
      (card.items.map (·.content) ++ [card.title, card.kind, card.scopeRef])
  | .m2 card => [' '].intercalate
      ((card.items.flatMap fun item =>
        (item.supportGroups.flatten.flatMap fun member => [member.sourceId, member.sourcePath]) ++
          [item.content]) ++ [card.title, card.kind, card.scopeRef])

/-- `(source_id, source_revision_id, source_path)`. -/
def candidateSourceRefs : Candidate → List (Text × Text × Option Text)
  | .m1 card => [(card.sourceId, card.sourceRevisionId, some card.sourcePath)]
  | .m2 card => card.members.map fun member =>
    (member.sourceId, member.sourceRevisionId, some member.sourcePath)

/-- There are sources, and all are in scope. -/
def sourceScopeAllows (scope : MemoryPackSourceScope)
    (references : List (Text × Text × Option Text)) : Bool :=
  !references.isEmpty && references.all fun reference =>
    (scope.sourceIds.isEmpty || scope.sourceIds.any (· == reference.1)) &&
    (scope.sourcePaths.isEmpty ||
      reference.2.2.any fun path => scope.sourcePaths.any (· == path)) &&
    (scope.sourceRevisionIds.isEmpty || scope.sourceRevisionIds.any (· == reference.2.1))

def trimEndSlashes (t : Text) : Text := (t.reverse.dropWhile (· = '/')).reverse

def pathPrefixMatches (path start : Text) : Bool := beneath path (trimEndSlashes start)

def candidatePaths : Candidate → List Text
  | .m1 card => [card.sourcePath]
  | .m2 card => card.members.map (·.sourcePath)

def candidateKind : Candidate → Text
  | .m1 card | .m2 card => card.kind

def candidateScopeRef : Candidate → Text
  | .m1 card | .m2 card => card.scopeRef

/-- The request's own filters. -/
def matchesFilters (request : MemoryPackRequest) (c : Candidate) : Bool :=
  request.sourceScope.all (fun scope => sourceScopeAllows scope (candidateSourceRefs c)) &&
  request.scopeRef.all (· == candidateScopeRef c) &&
  (request.kinds.isEmpty || request.kinds.any (· == candidateKind c)) &&
  request.exactSourcePath.all (fun path => (candidatePaths c).any (· == path)) &&
  request.pathPrefix.all (fun start => (candidatePaths c).any (pathPrefixMatches · start))

/-- With a scope, only relations inside it. -/
def relationsWithinSourceScope (relations : List SemanticRelationRecord) :
    Option MemoryPackSourceScope → List SemanticRelationRecord
  | none => relations
  | some scope => relations.filter fun relation =>
    !scope.sourceIds.isEmpty && scope.sourceIds.any (· == relation.leftSourceId) &&
      scope.sourceIds.any (· == relation.rightSourceId)

/-! ## Entries -/

/-- An item goes to the list of its kind. -/
def MemoryPackEntry.addItem (e : MemoryPackEntry) (kind content : Text) : MemoryPackEntry :=
  if kind = "core_assertion".toList then { e with coreAssertions := e.coreAssertions ++ [content] }
  else if kind = "condition".toList then { e with conditions := e.conditions ++ [content] }
  else if kind = "exception".toList then { e with exceptions := e.exceptions ++ [content] }
  else if kind = "ordered_step".toList then { e with orderedSteps := e.orderedSteps ++ [content] }
  else if kind = "unresolved_item".toList then
    { e with unresolvedItems := e.unresolvedItems ++ [content] }
  else { e with optionalDetails := e.optionalDetails ++ [content] }

def SupportMember.reference (m : SupportMember) : MemoryPackSourceReference :=
  ⟨m.sourceId, m.sourceRevisionId, some m.sourcePath⟩

/-- An entry with what a candidate says. -/
def candidateToEntry (c : Candidate) : MemoryPackEntry :=
  match c with
  | .m1 card =>
    let entry : MemoryPackEntry := ⟨card.id, "m1".toList, card.title, card.kind, card.scopeRef,
      card.assertionStatus, card.temporalScope, [], [], [], [], [], [],
      [⟨card.sourceId, card.sourceRevisionId, some card.sourcePath⟩], [], [candidateIdentity c]⟩
    card.items.foldl (fun e item =>
      let e' := e.addItem item.kind item.content
      { e' with evidenceRefs := e'.evidenceRefs ++ item.evidenceRefIds }) entry
  | .m2 card =>
    let entry : MemoryPackEntry := ⟨card.id, "m2".toList, card.title, card.kind, card.scopeRef,
      card.assertionStatus, card.temporalScope, [], [], [], [], [], [], [], [],
      [candidateIdentity c]⟩
    card.items.foldl (fun e item =>
      let e' := e.addItem item.kind item.content
      { e' with
        sourceReferences := e'.sourceReferences ++ item.supportGroups.flatten.map (·.reference)
        evidenceRefs := e'.evidenceRefs ++ item.supportGroups.flatten.map (·.evidenceRefId) })
      entry

/-- `serde_json::to_string` of what is said. -/
def semanticKey (e : MemoryPackEntry) : Text :=
  jsonArray [jsonString e.kind, jsonString e.scopeRef, jsonString e.assertionStatus,
    if e.temporalScope.isUnknown then jsonString "unknown".toList else e.temporalScope.text,
    jsonStrings e.coreAssertions, jsonStrings e.conditions, jsonStrings e.exceptions,
    jsonStrings e.orderedSteps, jsonStrings e.unresolvedItems]

def isBarrier (relation : SemanticRelationRecord) : Bool :=
  decide (relation.relationKind ∈
    ["conflicts".toList, "different_scope".toList, "supersedes".toList])

/-- A sorted list without repetitions. -/
def sortDedupTexts (l : List Text) : List Text :=
  (l.insertionSort (· ≤ ·)).destutter (· ≠ ·)

def MemoryPackEntry.sourceIds (e : MemoryPackEntry) : List Text :=
  e.sourceReferences.map (·.sourceId)

/-- The ends of barriers that an entry is at. -/
def relationBarrierKey (e : MemoryPackEntry) (relations : List SemanticRelationRecord) : Text :=
  let endpoint (relation : SemanticRelationRecord) (side source observation : Text) : List Text :=
    if source ∈ e.sourceIds then
      [relation.id ++ ':' :: side ++ ':' :: e.id ++ ':' :: source ++ ':' :: observation]
    else []
  let barriers := (relations.filter isBarrier).flatMap fun relation =>
    endpoint relation "left".toList relation.leftSourceId relation.leftObservationId ++
      endpoint relation "right".toList relation.rightSourceId relation.rightObservationId
  [','].intercalate (sortDedupTexts barriers)

def MemoryPackSourceReference.key (r : MemoryPackSourceReference) : Text ×ₗ Text :=
  toLex (r.sourceId, r.sourceRevisionId)

/-- Sources, evidence and details of both. -/
def mergeEntry (existing incoming : MemoryPackEntry) : MemoryPackEntry :=
  { existing with
    origin := if incoming.origin = "m1".toList then "m1".toList else existing.origin
    sourceReferences :=
      ((existing.sourceReferences ++ incoming.sourceReferences).insertionSort
        (·.key ≤ ·.key)).destutter (·.key ≠ ·.key)
    evidenceRefs := sortDedupTexts (existing.evidenceRefs ++ incoming.evidenceRefs)
    optionalDetails := sortDedupTexts (existing.optionalDetails ++ incoming.optionalDetails)
    candidateKeys := sortDedupTexts (existing.candidateKeys ++ incoming.candidateKeys) }

def relatedForEntries (entries : List MemoryPackEntry) : List MemoryPackSource :=
  ((entries.flatMap (·.sourceReferences)).foldl
    (fun related source => upsert source.key source id related) []).map (·.2)

/-- Equal candidates behind equal barriers are one. -/
def mergeCandidates (relations : List SemanticRelationRecord) (cs : List Candidate) :
    List MemoryPackEntry :=
  let seen := cs.foldl (fun seen c =>
    let entry := candidateToEntry c
    upsert (semanticKey entry ++ '|' :: relationBarrierKey entry relations) entry
      (mergeEntry · entry) seen) ([] : List (Text × MemoryPackEntry))
  (seen.map (·.2)).insertionSort (·.id ≤ ·.id)

def relationToConflict (relation : SemanticRelationRecord) : MemoryPackConflict :=
  ⟨relation.id, relation.relationKind, relation.reasonCode,
    [relation.leftSourceId, relation.rightSourceId], relation.leftObservationId,
    relation.rightObservationId⟩

/-- The barriers at the sources of the entries. -/
def conflictsFor (entries : List MemoryPackEntry) (relations : List SemanticRelationRecord) :
    List MemoryPackConflict :=
  let sources := entries.flatMap (·.sourceIds)
  ((relations.filter isBarrier).filter fun relation =>
    decide (relation.leftSourceId ∈ sources ∨ relation.rightSourceId ∈ sources)).map
      relationToConflict

/-- The loop of `apply_budget`. -/
def acceptEntries (budget : Budget) (pack : MemoryPack) (accepted : List MemoryPackEntry) :
    List MemoryPackEntry → MemoryPack × List MemoryPackEntry
  | [] => (pack, accepted)
  | entry :: rest =>
    let trial (e : MemoryPackEntry) : MemoryPack := finalizeEstimate
      { pack with
        currentContext := accepted ++ [e]
        relatedSources := relatedForEntries (accepted ++ [e]) }
    let reduced := { entry with optionalDetails := [] }
    if budget.maxEntries ≤ asU32 accepted.length then
      ({ pack with diagnostics := pack.diagnostics ++ ["max_entries_reached".toList] }, accepted)
    else if fits budget (trial entry) then acceptEntries budget pack (accepted ++ [entry]) rest
    else if fits budget (trial reduced) then acceptEntries budget pack (accepted ++ [reduced]) rest
    else acceptEntries budget
      { pack with
        evidenceGaps := pack.evidenceGaps ++ [gapFor entry.id]
        diagnostics := pack.diagnostics ++ ["core_entry_omitted_atomically".toList] }
      accepted rest

def isExperience (e : MemoryPackEntry) : Bool := e.kind == "experience".toList

/-- The accepted entries, by kind. -/
def applyBudget (budget : Budget) (pack : MemoryPack) (entries : List MemoryPackEntry) :
    MemoryPack :=
  let (pack', accepted) := acceptEntries budget pack [] entries
  let context := accepted.filter (!isExperience ·)
  let experiences := accepted.filter isExperience
  finalizeEstimate
    { pack' with
      currentContext := context
      relevantExperiences := experiences
      relatedSources := relatedForEntries (context ++ experiences) }

def MemoryPack.entries (p : MemoryPack) : List MemoryPackEntry :=
  p.currentContext ++ p.relevantExperiences

def refreshRelationMetadata (relations : List SemanticRelationRecord) (pack : MemoryPack) :
    MemoryPack :=
  { pack with
    relatedSources := relatedForEntries pack.entries
    conflictsOrChecks := conflictsFor pack.entries relations }

/-! ## The build -/

/-- A row, and whether its managed file verifies. -/
structure Row (α : Type) where
  card : α
  verified : Bool

/-- What a build reads; identities are primary keys. -/
structure VaultState where
  policyEnabled : Bool
  cards : List (Row SemanticCardRecord)
  composed : List (Row ComposedCardRecord)
  relations : List SemanticRelationRecord
  cardsUnique : (cards.map fun row => candidateIdentity (.m1 row.card)).Nodup
  composedUnique : (composed.map fun row => candidateIdentity (.m2 row.card)).Nodup

def candidateLimit : Nat := 200

def readable {α : Type} (rows : List (Row α)) : List α :=
  (rows.filter (·.verified)).map (·.card)

def VaultState.listCards (v : VaultState) : List SemanticCardRecord :=
  readable (v.cards.take candidateLimit)

def VaultState.listComposedCards (v : VaultState) : List ComposedCardRecord :=
  readable (v.composed.take candidateLimit)

def VaultState.listCurrentRelations (v : VaultState) : List SemanticRelationRecord :=
  v.relations.take candidateLimit

/-- All candidates of the listings. -/
def VaultState.candidates (v : VaultState) : List Candidate :=
  v.listCards.map .m1 ++ v.listComposedCards.map .m2

/-- A full listing, as `candidate_truncated`. -/
def VaultState.Truncated (v : VaultState) : Prop :=
  v.listCards.length = candidateLimit ∨ v.listComposedCards.length = candidateLimit

instance (v : VaultState) : Decidable v.Truncated := inferInstanceAs (Decidable (_ ∨ _))

inductive PackError where
  | queryTooLarge
  | budgetInvalid
  | pathFiltersConflict
  | sourceScopeEmpty
  | sourceScopeInvalid
  | responseWrapper
  | finalResponseWrapper
  deriving DecidableEq

/-- The parsers of the identifiers. -/
structure Identifiers where
  (sourceId sourceRevisionId : Text → Bool)

/-- Not empty, well formed, and nothing twice. -/
def validateScope (N : Normalizer) (ids : Identifiers) (scope : MemoryPackSourceScope) :
    Except PackError Unit :=
  if scope.sourceIds = [] ∧ scope.sourcePaths = [] ∧ scope.sourceRevisionIds = [] then
    .error .sourceScopeEmpty
  else if (scope.sourcePaths.any fun path => !(LogicalPath.parse N path).isOk) ∨
      (scope.sourceIds.any fun id => !ids.sourceId id) ∨
      (scope.sourceRevisionIds.any fun id => !ids.sourceRevisionId id) ∨
      ¬ scope.sourceIds.Nodup ∨ ¬ scope.sourcePaths.Nodup ∨ ¬ scope.sourceRevisionIds.Nodup then
    .error .sourceScopeInvalid
  else .ok ()

/-- `validate_request`. -/
def validateRequest (N : Normalizer) (ids : Identifiers) (request : MemoryPackRequest) :
    Except PackError Unit :=
  if 8000 < byteLen request.task ∨
      (request.query.any fun query => decide (8000 < byteLen query)) then
    .error .queryTooLarge
  else if request.budget.maxEntries = 0 ∨ 200 < request.budget.maxEntries ∨
      request.budget.maxBytes = 0 ∨ request.budget.maxTokens = 0 then .error .budgetInvalid
  else if request.exactSourcePath.isSome ∧ request.pathPrefix.isSome then
    .error .pathFiltersConflict
  else
    match request.sourceScope with
    | some scope => validateScope N ids scope
    | none => .ok ()

/-- The hits of the task terms and of the subject terms. -/
def lexicalScore (U : Unicode) (material : Text) (taskTerms subjectTerms : List Text) :
    Nat ×ₗ Nat :=
  let hits (terms : List Text) := terms.countP fun term => decide (term <:+: U.lowercase material)
  toLex (hits taskTerms, hits subjectTerms)

def taskTerms (U : Unicode) (request : MemoryPackRequest) : List Text :=
  splitWhitespace U (memorySearchTerms U [request.task, request.query.getD []] 64)

def subjectTermsOf (U : Unicode) (request : MemoryPackRequest) : List Text :=
  request.subjectTerms.flatMap fun value => splitWhitespace U (memorySearchTerms U [value] 32)

/-- The score of a candidate that passes every filter. -/
def relevance (U : Unicode) (request : MemoryPackRequest) (c : Candidate) : Option (Nat ×ₗ Nat) :=
  let score := lexicalScore U (candidateMaterial c) (taskTerms U request) (subjectTermsOf U request)
  if !matchesFilters request c then none
  else if taskTerms U request ≠ [] ∧ (ofLex score).1 = 0 then none
  else if subjectTermsOf U request ≠ [] ∧ (ofLex score).2 = 0 then none
  else some score

/-- Higher scores first, then by identity. -/
def ranksBefore (a b : (Nat ×ₗ Nat) × Candidate) : Prop :=
  b.1 < a.1 ∨ a.1 = b.1 ∧ candidateIdentity a.2 ≤ candidateIdentity b.2

instance : DecidableRel ranksBefore := fun _ _ => inferInstanceAs (Decidable (_ ∨ _))

def rank (U : Unicode) (request : MemoryPackRequest) (candidates : List Candidate) :
    List Candidate :=
  ((candidates.filterMap fun c => (relevance U request c).map fun score => (score, c)).insertionSort
    ranksBefore).map (·.2)

def MemoryPack.empty : MemoryPack := ⟨[], [], [], [], [], [], 0⟩

/-- A pack that says why it has nothing. -/
def MemoryPack.without (p : MemoryPack) (diagnostic gap : String) : MemoryPack :=
  { p with
    diagnostics := p.diagnostics ++ [diagnostic.toList]
    evidenceGaps := p.evidenceGaps ++ [⟨gap.toList, none⟩] }

/-- `HashMap::get`: the last one inserted wins. -/
def lookupCandidate (candidates : List Candidate) (key : Text) : Option Candidate :=
  candidates.reverse.find? fun c => candidateIdentity c == key

/-- `revalidate_final_entries`, the policy being enabled. -/
def revalidateFinalEntries (budget : Budget) (current : List Candidate)
    (relations : List SemanticRelationRecord) (pack : MemoryPack) : MemoryPack :=
  let found (e : MemoryPackEntry) := e.candidateKeys.filterMap (lookupCandidate current)
  let removed := pack.entries.any fun e =>
    decide ((found e).length ≠ e.candidateKeys.length ∨ found e = [])
  let noted := if removed then
      pack.without "candidate_changed_before_response" "candidate_changed_before_response"
    else pack
  let cleared := { noted with
    currentContext := [], relevantExperiences := [], relatedSources := [], conflictsOrChecks := [] }
  refreshRelationMetadata relations
    (applyBudget budget cleared (mergeCandidates relations (pack.entries.flatMap found)))

/-- After the ranking; `current` is loaded again. -/
def assemble (budget : Budget) (pack : MemoryPack) (ranked current : List Candidate)
    (relations : List SemanticRelationRecord) : Except PackError MemoryPack :=
  let latest := current.map candidateIdentity
  let kept := ranked.filter fun c => decide (candidateIdentity c ∈ latest)
  let missing := ranked.filter fun c => !decide (candidateIdentity c ∈ latest)
  let entries := mergeCandidates relations kept
  let pack := { pack with
    diagnostics := pack.diagnostics ++ missing.map fun _ => "candidate_changed_during_build".toList
    conflictsOrChecks := conflictsFor entries relations }
  let pack := revalidateFinalEntries budget current relations (applyBudget budget pack entries)
  let (pack, fitted) := enforceFinalBudget budget pack
  if !fitted then .error .responseWrapper
  else
    let (pack, fitted) := enforceFinalBudget budget (refreshRelationMetadata relations pack)
    if !fitted then .error .finalResponseWrapper else .ok pack

/-- The candidates of the kinds asked for. -/
def VaultState.offered (v : VaultState) (request : MemoryPackRequest) : List Candidate :=
  (if request.includeM1 then v.listCards.map Candidate.m1 else []) ++
    (if request.includeM2 then v.listComposedCards.map Candidate.m2 else [])

/-- The pack before any candidate is looked at. -/
def VaultState.opening (v : VaultState) : MemoryPack :=
  if v.Truncated then { MemoryPack.empty with diagnostics := ["candidate_truncated".toList] }
  else MemoryPack.empty

/-- `build`, over a Vault that does not change meanwhile. -/
def build (U : Unicode) (N : Normalizer) (ids : Identifiers) (v : VaultState)
    (request : MemoryPackRequest) : Except PackError MemoryPack := do
  validateRequest N ids request
  if request.mode = .history then
    .ok (MemoryPack.empty.without "history_mode_current_qualification_only"
      "history_mode_unsupported")
  else if request.version.isSome ∨ request.asOf.isSome then
    .ok (MemoryPack.empty.without "requested_metadata_is_not_explicitly_persisted"
      "version_or_as_of_unknown")
  else if !v.policyEnabled then
    .ok (MemoryPack.empty.without "semantic_policy_unavailable" "policy_unavailable")
  else
    let ranked := rank U request (v.offered request)
    if ranked = [] then
      .ok (v.opening.without (if subjectTermsOf U request ≠ [] then "subject_mismatch"
        else if v.listCards = [] then "no_current_candidates" else "no_relevant_candidates")
        "no_answer")
    else
      assemble request.budget v.opening ranked v.candidates
        (relationsWithinSourceScope v.listCurrentRelations request.sourceScope)

/-! ## Every key of an entry is of a candidate -/

section Keys

variable {ids : List Text} {e : MemoryPackEntry} {c : Candidate} {cs : List Candidate}
variable {relations : List SemanticRelationRecord}

/-- The entries' candidates are among these. -/
def KeysIn (ids : List Text) (e : MemoryPackEntry) : Prop := ∀ key ∈ e.candidateKeys, key ∈ ids

theorem addItem_candidateKeys (kind content : Text) :
    (e.addItem kind content).candidateKeys = e.candidateKeys := by
  unfold MemoryPackEntry.addItem
  split_ifs <;> rfl

theorem foldl_candidateKeys {α : Type} {f : MemoryPackEntry → α → MemoryPackEntry}
    (hf : ∀ e x, (f e x).candidateKeys = e.candidateKeys) (l : List α) (e : MemoryPackEntry) :
    (l.foldl f e).candidateKeys = e.candidateKeys := by
  induction l generalizing e with
  | nil => rfl
  | cons x l ih => rw [foldl_cons, ih, hf]

theorem candidateToEntry_candidateKeys (c : Candidate) :
    (candidateToEntry c).candidateKeys = [candidateIdentity c] := by
  cases c with
  | m1 card =>
    simp only [candidateToEntry]
    rw [foldl_candidateKeys]
    intro e item
    exact addItem_candidateKeys _ _
  | m2 card =>
    simp only [candidateToEntry]
    rw [foldl_candidateKeys]
    intro e item
    exact addItem_candidateKeys _ _

theorem mem_sortDedupTexts {l : List Text} {t : Text} : t ∈ sortDedupTexts l ↔ t ∈ l :=
  SortedMap.mem_destutter.trans (mem_insertionSort (· ≤ ·))

theorem KeysIn.mergeEntry {incoming : MemoryPackEntry} (h : KeysIn ids e)
    (h' : KeysIn ids incoming) : KeysIn ids (mergeEntry e incoming) := by
  intro key hkey
  rcases mem_append.mp (mem_sortDedupTexts.mp hkey) with hkey | hkey
  · exact h key hkey
  · exact h' key hkey

end Keys

/-! ## Loading again changes nothing -/

section Current

variable {ranked current current' : List Candidate} {c : Candidate} {budget : Budget}
variable {relations : List SemanticRelationRecord} {pack : MemoryPack}

theorem lookupCandidate_of_mem (hunique : (current.map candidateIdentity).Nodup)
    (hc : c ∈ current) : lookupCandidate current (candidateIdentity c) = some c := by
  have hsome : (lookupCandidate current (candidateIdentity c)).isSome := by
    rw [lookupCandidate, List.find?_isSome]
    exact ⟨c, mem_reverse.mpr hc, beq_self_eq_true _⟩
  obtain ⟨c', hfound⟩ := Option.isSome_iff_exists.mp hsome
  have hc' : c' ∈ current := mem_reverse.mp (mem_of_find?_eq_some hfound)
  have hid : candidateIdentity c' = candidateIdentity c := by
    simpa using List.find?_some hfound
  rw [hfound, inj_on_of_nodup_map hunique hc' hc hid]

theorem filter_mem_identity (h : ∀ c ∈ ranked, c ∈ current) :
    (ranked.filter fun c => decide (candidateIdentity c ∈ current.map candidateIdentity)) =
      ranked := by
  rw [filter_eq_self]
  intro c hc
  exact decide_eq_true (mem_map_of_mem (h c hc))

theorem filter_not_mem_identity (h : ∀ c ∈ ranked, c ∈ current) :
    (ranked.filter fun c => !decide (candidateIdentity c ∈ current.map candidateIdentity)) =
      [] := by
  rw [filter_eq_nil_iff]
  intro c hc
  simp [mem_map_of_mem (h c hc)]

end Current

/-! ## What the scope leaves in -/

section Scope

variable {U : Unicode} {request : MemoryPackRequest} {scope : MemoryPackSourceScope}
variable {v v' : VaultState} {c : Candidate} {cs : List Candidate}

def inScope (scope : MemoryPackSourceScope) (c : Candidate) : Bool :=
  sourceScopeAllows scope (candidateSourceRefs c)

section

variable (v : VaultState) (scope : MemoryPackSourceScope)

end

theorem mem_of_mem_rank (hc : c ∈ rank U request cs) : c ∈ cs := by
  obtain ⟨x, hx, rfl⟩ := mem_map.mp hc
  have hx := (perm_insertionSort _ _).mem_iff.mp hx
  obtain ⟨c, hmem, hscore⟩ := mem_filterMap.mp hx
  obtain ⟨score, _, rfl⟩ := Option.map_eq_some_iff.mp hscore
  exact hmem

theorem readable_sublist {α : Type} (rows : List (Row α)) (n : Nat) :
    (readable (rows.take n)).Sublist (rows.map (·.card)) :=
  (filter_sublist.trans (take_sublist n rows)).map _

theorem VaultState.candidates_unique (v : VaultState) :
    (v.candidates.map candidateIdentity).Nodup := by
  have hm1 : ((v.listCards.map Candidate.m1).map candidateIdentity).Nodup := by
    have hsub := ((readable_sublist v.cards candidateLimit).map Candidate.m1).map candidateIdentity
    refine hsub.nodup ?_
    rw [map_map, map_map]
    exact v.cardsUnique
  have hm2 : ((v.listComposedCards.map Candidate.m2).map candidateIdentity).Nodup := by
    have hsub := ((readable_sublist v.composed candidateLimit).map Candidate.m2).map
      candidateIdentity
    refine hsub.nodup ?_
    rw [map_map, map_map]
    exact v.composedUnique
  rw [VaultState.candidates, map_append, nodup_append]
  refine ⟨hm1, hm2, ?_⟩
  intro a ha b hb
  rw [map_map] at ha hb
  obtain ⟨card, _, rfl⟩ := mem_map.mp ha
  obtain ⟨card', _, rfl⟩ := mem_map.mp hb
  -- an identity says which kind of card it is of
  simp [candidateIdentity]

theorem VaultState.mem_candidates (hc : c ∈ v.offered request) : c ∈ v.candidates := by
  rcases mem_append.mp hc with hc | hc
  · refine mem_append_left _ ?_
    split_ifs at hc
    · exact hc
    · cases hc
  · refine mem_append_right _ ?_
    split_ifs at hc
    · exact hc
    · cases hc

end Scope

/-! ## The pack does not depend on the rest -/

/-- The same error, or the same context. -/
inductive SameContext : Except PackError MemoryPack → Except PackError MemoryPack → Prop
  | error (e : PackError) : SameContext (.error e) (.error e)
  | ok {p q : MemoryPack} (context : p.currentContext = q.currentContext)
      (experiences : p.relevantExperiences = q.relevantExperiences)
      (conflicts : p.conflictsOrChecks = q.conflictsOrChecks)
      (related : p.relatedSources = q.relatedSources) : SameContext (.ok p) (.ok q)

theorem SameContext.refl : ∀ r : Except PackError MemoryPack, SameContext r r
  | .ok _ => .ok rfl rfl rfl rfl
  | .error e => .error e

/-- Reasons for having nothing are no context. -/
theorem SameContext.without (p : MemoryPack) (a b a' b' : String) :
    SameContext (.ok (p.without a b)) (.ok (p.without a' b')) := .ok rfl rfl rfl rfl

section Crowded

/-- Unicode, as it is for ASCII. -/
def plainUnicode : Unicode :=
  ⟨id, fun c => [c.toLower], List.map Char.toLower, Char.isAlphanum, Char.isWhitespace⟩

/-- The hyphenated form of a UUID. -/
def isHyphenated (t : Text) : Bool :=
  (t.splitOn '-').map List.length == [8, 4, 4, 4, 12] &&
    t.all fun c => c == '-' || c.isDigit || decide ('a' ≤ c ∧ c ≤ 'f')

def hyphenated : Identifiers := ⟨isHyphenated, isHyphenated⟩

/-- The sources of the Vault, by their last digit. -/
def sourceNumbered (digit : Char) : Text := "0192f0a0-7c1e-7000-8000-00000000000".toList ++ [digit]

/-- A numbered card; `own` is the one in scope. -/
def numberedCard (own n : Nat) : SemanticCardRecord :=
  ⟨List.replicate (n + 1) 'a', [], sourceNumbered (if n = own then '1' else '2'), [], "p".toList, [],
    "fact".toList, [], [], ⟨[], true⟩, []⟩

def numberedVault (own : Nat) (numbers : List Nat) (h : numbers.Nodup) : VaultState where
  policyEnabled := true
  cards := numbers.map fun n => ⟨numberedCard own n, true⟩
  composed := []
  relations := []
  cardsUnique := by
    rw [map_map]
    refine h.map ?_
    intro m n hmn
    simpa [candidateIdentity, numberedCard] using congrArg List.length hmn
  composedUnique := nodup_nil

def alone (own : Nat) : VaultState := numberedVault own [own] (nodup_singleton own)

end Crowded

end MemoryPacks
