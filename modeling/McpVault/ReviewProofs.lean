import McpVault.SourceUnitProofs
import McpVault.PackBudgetProofs
import McpVault.SortedMapProofs

/-! # Completeness review — from a first selection to published units

`build_plan` groups the minimal units of a note under the full units that contain them and makes
review scopes of the groups; `validate` accepts a model's decision about one scope; `reduce_plan`
applies the decisions to the first selection.

A parent is offered as a replacement only if its group has every minimal unit inside it, and a
decision can add only unselected units.  A unit that is left out of every review should leave the
selection, but does not. -/

namespace MemoryReview

open LogicalPath (byteLen)
open PlainText (Text startsWith)
open MemoryPacks (jsonString jsonStrings jsonArray jsonObject jsonOption)
open MemoryUnits SortedMap

/-- Errors, by the code that the source gives them. -/
inductive MemoryError where
  | invalidInput (code : String)
  | generatedOutput (code : String)
  deriving DecidableEq

/-! ## The first selection -/

structure UnitSelection where
  unitId : Text
  kind : Option Text
  retrievalHint : Text
  deriving DecidableEq

abbrev SelectionOutput := List UnitSelection

def unitJson (u : SourceUnit) : Text :=
  jsonObject [("content".toList, jsonString u.body.text),
    ("context".toList, jsonStrings (u.context.map (·.text))),
    ("heading_path".toList, jsonStrings u.headings), ("unit_id".toList, jsonString u.id)]

def selectionInput (units : List SourceUnit) (path : Text) : Text :=
  jsonObject [("source_path".toList, jsonString path),
    ("units".toList, jsonArray (units.map unitJson))]

inductive SkipReason where
  | sensitiveContentNotSent
  | indivisibleUnitTooLarge
  deriving DecidableEq

structure SkippedUnit where
  unitId : Text
  heading : List Text
  reason : SkipReason

structure Batch where
  user : Text
  units : List SourceUnit

section Build

-- `redact_generated_text`, which rewrites what looks like a secret
variable (redact : Text → Text) (path : Text)

/-- Redaction leaves the unit as it is. -/
def safe (u : SourceUnit) : Bool := decide (redact u.completeText = u.completeText)

/-- Sensitive, or too large alone. -/
def skipReason (u : SourceUnit) : Option SkipReason :=
  if !safe redact u then some .sensitiveContentNotSent
  else if 64 * 1024 < byteLen u.completeText ∨ 60 * 1024 < byteLen (selectionInput [u] path) then
    some .indivisibleUnitTooLarge
  else none

/-- The loop of `batches`, with the batch that is open. -/
def batchLoop (current : List SourceUnit) : List SourceUnit → List Batch × List SkippedUnit
  | [] => (if current = [] then [] else [⟨selectionInput current path, current⟩], [])
  | u :: rest =>
    match skipReason redact path u with
    | some reason =>
      let (batches, skipped) := batchLoop current rest
      (batches, ⟨u.id, u.headings, reason⟩ :: skipped)
    | none =>
      let proposed := current ++ [u]
      if current ≠ [] ∧
          (32 < proposed.length ∨ 60 * 1024 < byteLen (selectionInput proposed path)) then
        let (batches, skipped) := batchLoop [u] rest
        (⟨selectionInput current path, current⟩ :: batches, skipped)
      else batchLoop (current ++ [u]) rest

def batches (candidates : List SourceUnit) : List Batch × List SkippedUnit :=
  batchLoop redact path [] candidates

/-! ## Scopes -/

structure ReviewScope where
  id : Text
  units : List SourceUnit
  (firstSelected addable replaceable : List Text)
  parentUnitId : Option Text
  (parentCompleteInScope unresolved : Bool)
  skippedUnitIds : List Text
  deriving DecidableEq

structure ReviewOmission where
  (unitId reason : Text)
  deriving DecidableEq

structure ReviewPlan where
  scopes : List ReviewScope
  omittedSelected : List Text
  omissions : List ReviewOmission
  passthroughSelected : List Text
  deriving DecidableEq

def maxReviewUnits : Nat := 32

def maxReviewInputBytes : Nat := 60 * 1024

def jsonBool (b : Bool) : Text := if b then "true".toList else "false".toList

/-- The text of `input`, which sorts its keys. -/
def scopeJson (scope : ReviewScope) : Text :=
  jsonObject [("addable_unit_ids".toList, jsonStrings scope.addable),
    ("first_selected".toList, jsonStrings scope.firstSelected),
    ("parent_complete_in_scope".toList, jsonBool scope.parentCompleteInScope),
    ("parent_unit_id".toList, jsonOption scope.parentUnitId),
    ("replaceable_unit_ids".toList, jsonStrings scope.replaceable),
    ("scope_id".toList, jsonString scope.id),
    ("skipped_unit_ids".toList, jsonStrings scope.skippedUnitIds),
    ("source_path".toList, jsonString path),
    ("units".toList, jsonArray (scope.units.map unitJson)),
    ("unresolved".toList, jsonBool scope.unresolved)]

def input (scope : ReviewScope) : Except MemoryError Text :=
  if scope.units.any fun u => !safe redact u then
    .error (.invalidInput "memory_selection_review_sensitive_content")
  else if maxReviewUnits < scope.units.length ∨
      maxReviewInputBytes < byteLen (scopeJson path scope) then
    .error (.invalidInput "memory_selection_review_scope_too_large")
  else .ok (scopeJson path scope)

/-- The test that `build_plan` makes of every scope. -/
def fits (scope : ReviewScope) : Bool :=
  decide (scope.units.length ≤ maxReviewUnits) && (input redact path scope).isOk

/-- A scope, named after its owner and selection. -/
def makeScope (ownerId : Text) (chunkIndex : Nat) (units : List SourceUnit) (selected : List Text)
    (unresolved : Bool) (parent : Option SourceUnit) : ReviewScope :=
  let firstSelected := (units.filter fun u => decide (u.id ∈ selected)).map (·.id)
  { id := "review:".toList ++ ownerId ++ ':' :: Nat.toDigits 10 chunkIndex ++
      ':' :: [','].intercalate firstSelected
    units
    firstSelected
    addable := (units.filter fun u =>
      decide (u.id ∉ selected) && decide (parent.map (·.id) ≠ some u.id)).map (·.id)
    replaceable := firstSelected
    parentUnitId := parent.map (·.id)
    parentCompleteInScope := parent.isSome
    unresolved
    skippedUnitIds := [] }

/-! ## Groups -/

def contains (parent child : SourceUnit) : Bool :=
  decide (parent.body.startByte ≤ child.body.startByte ∧ child.body.endByte ≤ parent.body.endByte)

/-- `(length, start)`. -/
def extent (u : SourceUnit) : Nat ×ₗ Nat :=
  toLex (u.body.endByte - u.body.startByte, u.body.startByte)

/-- Minimal units by the id of the unit that owns them. -/
abbrev Groups := List (Text × List SourceUnit)

def Groups.push (groups : Groups) (ownerId : Text) (u : SourceUnit) : Groups :=
  upsert ownerId [u] (· ++ [u]) groups

structure Assignment where
  assigned : List Text
  groups : Groups

variable (full minimal : List SourceUnit) (selected : List Text)

/-- A full unit takes its free minimal units. -/
def assignParent (a : Assignment) (parent : SourceUnit) : Assignment :=
  let members := minimal.filter fun u =>
    decide (u.id ∉ a.assigned) && decide (parent.id ≠ u.id) && contains parent u
  if members = [] ∨ members.any (fun u => !safe redact u) then a
  else if fits redact path
      (makeScope parent.id 0 (members ++ [parent]) selected false (some parent)) then
    { assigned := a.assigned ++ members.map (·.id)
      groups := members.foldl (fun groups u => groups.push parent.id u) a.groups }
  else a

/-- The smallest other full unit around a unit. -/
def ownerOf (u : SourceUnit) : Text :=
  let owners := full.filter fun parent => decide (parent.id ≠ u.id) && contains parent u
  match (owners.insertionSort fun a b => extent a ≤ extent b).head? with
  | some parent => parent.id
  | none => "virtual-root".toList

/-- The largest full units are tried first. -/
def parentAssignment : Assignment :=
  (full.insertionSort fun a b => extent b ≤ extent a).foldl
    (assignParent redact path minimal selected) ⟨[], []⟩

def reviewGroups : Groups :=
  let a := parentAssignment redact path full minimal selected
  minimal.foldl (fun groups u =>
    if u.id ∈ a.assigned then groups else groups.push (ownerOf full u) u) a.groups

/-! ## The plan -/

/-- Closed scopes, the open one, units that fit none. -/
structure Chunking where
  scopes : List ReviewScope
  current : List SourceUnit
  index : Nat
  omitted : List Text

def chunkScope (ownerId : Text) (index : Nat) (units : List SourceUnit) : ReviewScope :=
  makeScope ownerId index units selected true none

/-- Close the open scope, if it has a selected unit. -/
def Chunking.close (ownerId : Text) (c : Chunking) : List ReviewScope :=
  let scope := chunkScope selected ownerId c.index c.current
  if c.current = [] ∨ scope.firstSelected = [] then c.scopes else c.scopes ++ [scope]

/-- The index at which a unit is tried alone. -/
def Chunking.nextIndex (c : Chunking) : Nat := if c.current = [] then c.index else c.index + 1

/-- One more unit: here, in a new scope, or nowhere. -/
def Chunking.push (ownerId : Text) (c : Chunking) (u : SourceUnit) : Chunking :=
  if fits redact path (chunkScope selected ownerId c.index (c.current ++ [u])) then
    { c with current := c.current ++ [u] }
  else if fits redact path (chunkScope selected ownerId c.nextIndex [u]) then
    { c with scopes := c.close selected ownerId, current := [u], index := c.nextIndex }
  else
    { scopes := c.close selected ownerId
      current := []
      index := c.nextIndex
      omitted := if u.id ∈ selected then c.omitted ++ [u.id] else c.omitted }

def chunks (ownerId : Text) (units : List SourceUnit) : Chunking :=
  units.foldl (Chunking.push redact path selected ownerId) ⟨[], [], 0, []⟩

/-- What becomes of a group. -/
inductive GroupReview where
  | none
  | passthrough
  | whole (scope : ReviewScope)
  | chunked (units : List SourceUnit)

def groupFirst (units : List SourceUnit) : List Text :=
  (units.filter fun u => decide (u.id ∈ selected)).map (·.id)

/-- Skipped, passed, whole or in chunks. -/
def groupReview (ownerId : Text) (units : List SourceUnit) : GroupReview :=
  let parent := full.find? fun u => decide (u.id = ownerId)
  let safeUnits := units.filter (safe redact)
  if groupFirst selected units = [] then .none
  else if units.length = 1 ∧ parent.isNone then .passthrough
  else
    match parent.filter (safe redact) with
    | some p =>
      let scope := makeScope ownerId 0 (safeUnits ++ [p]) selected false (some p)
      if (minimal.filter (contains p)).all (fun u => units.any fun v => v.id = u.id) &&
          fits redact path scope then .whole scope
      else .chunked safeUnits
    | Option.none => .chunked safeUnits

structure PlanState where
  scopes : List ReviewScope
  (omitted passthrough : List Text)

/-- The scopes and omissions of one group. -/
def planGroup (s : PlanState) (group : Text × List SourceUnit) : PlanState :=
  let first := groupFirst selected group.2
  match groupReview redact path full minimal selected group.1 group.2 with
  | .none => s
  | .passthrough => { s with passthrough := s.passthrough ++ first }
  | .whole scope => { s with scopes := s.scopes ++ [scope] }
  | .chunked units =>
    let c := chunks redact path selected group.1 units
    let scopes := s.scopes ++ c.close selected group.1
    let covered := (scopes.filter fun scope =>
      startsWith (String.ofList ("review:".toList ++ group.1 ++ [':'])) scope.id).flatMap
        (·.firstSelected)
    { s with
      scopes
      omitted := s.omitted ++ c.omitted ++ first.filter fun id => decide (id ∉ covered) }

def sortDedup (ids : List Text) : List Text := (ids.insertionSort (· ≤ ·)).dedup

end Build

/-- `build_plan`. -/
def buildPlan (redact : Text → Text) (path : Text) (full minimal : List SourceUnit)
    (first : SelectionOutput) : ReviewPlan :=
  let selected := first.map (·.unitId)
  if selected = [] then ⟨[], [], [], []⟩
  else
    let s := (reviewGroups redact path full minimal selected).foldl
      (planGroup redact path full minimal selected) ⟨[], [], []⟩
    let left := selected.filter fun id => decide (id ∉ s.scopes.flatMap (·.firstSelected)) &&
      decide (id ∉ s.omitted) && decide (id ∉ s.passthrough)
    let omitted := sortDedup (s.omitted ++ left)
    { scopes := s.scopes
      omittedSelected := omitted
      omissions := omitted.map fun id => ⟨id, "review_input_unavailable_or_too_large".toList⟩
      passthroughSelected := sortDedup s.passthrough }

/-! ## Decisions -/

/-- The model's answer for a scope. -/
structure ReviewDecision where
  scopeId : Text
  keepUnitIds : List Text
  additions : List UnitSelection
  replaceParent : Option UnitSelection
  omitUnitIds : List Text
  deriving DecidableEq

structure ValidatedReview where
  keep : List Text
  additions : List UnitSelection
  replaceParent : Option UnitSelection
  omit_ : List Text
  deriving DecidableEq

def memoryKinds : List Text :=
  ["preference", "constraint", "decision", "experience", "procedure", "state"].map String.toList

/-- `validate_unit_selection_metadata`, then the limit. -/
def metadataError (item : UnitSelection) : Option MemoryError :=
  if 256 < item.retrievalHint.length then
    some (.generatedOutput "memory_selection_review_invalid_metadata")
  else if 2048 < byteLen item.retrievalHint ∨ item.kind.any (fun kind => decide (kind ∉ memoryKinds)) then
    some (.generatedOutput "memory_selection_invalid_metadata")
  else none

/-- Take ids one by one; each has to be allowed and new. -/
def takeIds (allowed : Text → Bool) (unknown : String) (seen : List Text) :
    List Text → Except MemoryError (List Text)
  | [] => .ok seen
  | id :: rest =>
    if !allowed id then .error (.generatedOutput unknown)
    else if id ∈ seen then
      .error (.generatedOutput "memory_selection_review_duplicate_or_unknown")
    else takeIds allowed unknown (id :: seen) rest

/-- Take additions one by one. -/
def takeAdditions (scope : ReviewScope) (seen : List Text) :
    List UnitSelection → Except MemoryError (List Text)
  | [] => .ok seen
  | a :: rest =>
    match metadataError a with
    | some e => .error e
    | none =>
      if a.unitId ∉ scope.addable ∨ a.unitId ∉ scope.units.map (·.id) ∨ a.unitId ∈ seen then
        .error (.generatedOutput "memory_selection_review_duplicate_or_unknown")
      else takeAdditions scope (a.unitId :: seen) rest

/-- The parent may stand for the selected. -/
def parentAllowed (scope : ReviewScope) (parentId : Text) (d : ReviewDecision) : Bool :=
  !scope.unresolved && scope.parentCompleteInScope && decide (scope.parentUnitId = some parentId) &&
  decide (scope.replaceable = scope.firstSelected) &&
  scope.replaceable.all (fun id => decide (id ∈ scope.firstSelected)) &&
  (scope.replaceable.all fun childId =>
    match scope.units.find? fun u => decide (u.id = childId) with
    | none => false
    | some child => scope.units.any fun u => decide (u.id = parentId) && contains u child) &&
  d.keepUnitIds.isEmpty && d.omitUnitIds.isEmpty && d.additions.isEmpty

/-- What to say of the parent, or of every unit. -/
def decisionError (scope : ReviewScope) (d : ReviewDecision) (seen : List Text) :
    Option MemoryError :=
  match d.replaceParent with
  | some parent =>
    match metadataError parent with
    | some e => some e
    | none =>
      if !parentAllowed scope parent.unitId d ∨ parent.unitId ∈ seen then
        some (.generatedOutput "memory_selection_review_parent_not_allowed")
      else none
  | none =>
    if d.keepUnitIds.length + d.omitUnitIds.length ≠ scope.firstSelected.length ∨
        scope.firstSelected.any (fun id =>
          decide (id ∉ d.keepUnitIds) && decide (id ∉ d.omitUnitIds)) then
      some (.generatedOutput "memory_selection_review_incomplete_coverage")
    else none

/-- `validate` of the answer to one scope. -/
def validate (scope : ReviewScope) : List ReviewDecision → Except MemoryError ValidatedReview
  | [d] =>
    if d.scopeId ≠ scope.id then .error (.generatedOutput "memory_selection_review_scope_id")
    else do
      let isFirst := fun id => decide (id ∈ scope.firstSelected)
      let code := "memory_selection_review_duplicate_or_unknown"
      let seen ← takeIds isFirst code [] d.keepUnitIds
      let seen ← takeIds isFirst code seen d.omitUnitIds
      let seen ← takeAdditions scope seen d.additions
      match decisionError scope d seen with
      | some e => .error e
      | none => .ok ⟨d.keepUnitIds, d.additions, d.replaceParent, d.omitUnitIds⟩
  | _ => .error (.generatedOutput "memory_selection_review_scope_count")

/-! ## The reduction -/

/-- The selection by unit id. -/
abbrev Selected := List (Text × UnitSelection)

def Selected.insert (s : Selected) (item : UnitSelection) : Selected :=
  upsert item.unitId item (fun _ => item) s

def Selected.removeAll (s : Selected) (ids : List Text) : Selected :=
  s.filter fun entry => decide (entry.1 ∉ ids)

structure Reduction where
  selected : Selected
  (seenScopes covered : List Text)
  deriving DecidableEq

/-- `reduce_plan` on one scope and its review. -/
def reviewError (minimalIds : List Text) (scope : ReviewScope) (review : ValidatedReview) :
    Option MemoryError :=
  if review.replaceParent.isNone ∧
      scope.firstSelected.any (fun id => decide (id ∉ review.keep) && decide (id ∉ review.omit_)) then
    some (.generatedOutput "memory_selection_review_incomplete_coverage")
  else if review.replaceParent.isSome ∧
      ¬ (review.keep = [] ∧ review.omit_ = [] ∧ review.additions = []) then
    some (.generatedOutput "memory_selection_review_parent_not_allowed")
  else if review.keep.any (fun id => decide (id ∉ scope.firstSelected)) ∨
      review.omit_.any (fun id => decide (id ∉ scope.firstSelected)) ∨
      review.additions.any (fun a =>
        decide (a.unitId ∉ scope.addable) || decide (a.unitId ∉ minimalIds)) then
    some (.generatedOutput "memory_selection_review_unknown_id")
  else if review.replaceParent.any fun parent => decide (scope.parentUnitId ≠ some parent.unitId) then
    some (.generatedOutput "memory_selection_review_parent_not_allowed")
  else none

/-- What a decision does to the selection. -/
def applyReview (scope : ReviewScope) (review : ValidatedReview) (selected : Selected) : Selected :=
  let selected := review.additions.foldl Selected.insert (selected.removeAll review.omit_)
  match review.replaceParent with
  | none => selected
  | some parent => (selected.removeAll scope.firstSelected).insert parent

/-- One review is checked and applied. -/
def reduceScope (firstIds minimalIds : List Text) (r : Reduction) (scope : ReviewScope)
    (review : ValidatedReview) : Except MemoryError Reduction :=
  if scope.id ∈ r.seenScopes then
    .error (.generatedOutput "memory_selection_review_duplicate_scope")
  else do
    let isFirst := fun id => decide (id ∈ firstIds)
    let covered ← takeIds isFirst "memory_selection_review_duplicate_or_unknown" r.covered
      scope.firstSelected
    let covered ← takeIds isFirst "memory_selection_review_unknown_id" covered scope.skippedUnitIds
    match reviewError minimalIds scope review with
    | some e => .error e
    | none => .ok {
        selected := applyReview scope review (r.selected.removeAll scope.skippedUnitIds)
        seenScopes := scope.id :: r.seenScopes
        covered }

def reduceScopes (firstIds minimalIds : List Text) (r : Reduction) :
    List (ReviewScope × ValidatedReview) → Except MemoryError Reduction
  | [] => .ok r
  | (scope, review) :: rest => do
    let r ← reduceScope firstIds minimalIds r scope review
    reduceScopes firstIds minimalIds r rest

/-- Every first id is covered, omitted or passed, once. -/
def coverage (firstIds covered omitted passthrough : List Text) : Bool :=
  covered.all (fun id => decide (id ∈ firstIds)) && omitted.all (fun id => decide (id ∈ firstIds)) &&
  passthrough.all (fun id => decide (id ∈ firstIds)) &&
  covered.all (fun id => decide (id ∉ omitted)) && covered.all (fun id => decide (id ∉ passthrough)) &&
  omitted.all (fun id => decide (id ∉ passthrough)) &&
  decide (covered.dedup.length + omitted.dedup.length + passthrough.dedup.length =
    firstIds.dedup.length)

/-- The first unit with an id; full ones first. -/
def resolve (full minimal : List SourceUnit) (item : UnitSelection) :
    Except MemoryError (SourceUnit × UnitSelection) :=
  match (full ++ minimal).find? fun u => decide (u.id = item.unitId) with
  | some u => .ok (u, item)
  | none => .error (.generatedOutput "memory_selection_review_unknown_id")

/-- By start; the longer one first. -/
def publishedBefore (a b : SourceUnit × UnitSelection) : Prop :=
  a.1.body.startByte < b.1.body.startByte ∨
    a.1.body.startByte = b.1.body.startByte ∧ b.1.body.endByte ≤ a.1.body.endByte

instance : DecidableRel publishedBefore := fun _ _ => inferInstanceAs (Decidable (_ ∨ _))

/-- `reduce_plan`. -/
def reducePlan (full minimal : List SourceUnit) (first : SelectionOutput) (plan : ReviewPlan)
    (reviews : List ValidatedReview) : Except MemoryError (List (SourceUnit × UnitSelection)) :=
  let firstIds := first.map (·.unitId)
  if plan.scopes.length ≠ reviews.length then
    .error (.generatedOutput "memory_selection_review_scope_count")
  else do
    let r ← reduceScopes firstIds (minimal.map (·.id)) ⟨first.foldl Selected.insert [], [], []⟩
      (plan.scopes.zip reviews)
    if !coverage firstIds r.covered plan.omittedSelected plan.passthroughSelected then
      .error (.generatedOutput "memory_selection_review_incomplete_coverage")
    else do
      let output := (r.selected.map (·.2)).insertionSort fun a b => a.unitId ≤ b.unitId
      let resolved ← output.mapM (resolve full minimal)
      pure (resolved.insertionSort publishedBefore)

end MemoryReview
