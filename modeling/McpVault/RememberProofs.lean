import McpVault.ExplicitMemoryProofs

/-! # Remembering and updating

A run is a request followed by any number of accepted updates, with files that change in between.
Its bundles are `Valid` and keep the source texts of the request, so that `roundTrips_iff`
becomes a condition on it. -/

namespace ExplicitMemory

open List
open LogicalPath (Normalizer VaultPath byteLen bytesOf joined joined_cons plain route_of_parse)
open PlainText (Text isControl)
open ReservedPath (CaseFolding VaultPathPolicy)
open YamlBlock (OneLine strictReader)
open MemoryFormat
open Fallible (bind_ok_iff elim_ok_iff mapM_ok_iff)

variable (env : Env)

/-! ## Requests -/

/-- A row of `file_entries`. -/
structure FileRecord (N : Normalizer) where
  id : Nat
  path : CheckedPath N
  currentRevision : UInt64
  contentHash : Option Text
  active : Bool
  /-- Revisions are stored as signed integers. -/
  stored : currentRevision.toNat < 2 ^ 63
  /-- The Core stores digests in hexadecimal. -/
  digest : ∀ h ∈ contentHash, ∀ c ∈ h, c.isDigit ∨ 'a' ≤ c ∧ c ≤ 'f'

/-- The files of the Vault as a request finds them. -/
structure Files (N : Normalizer) where
  getById : Nat → Option (FileRecord N)
  getActive : CheckedPath N → Option (FileRecord N)

/-- An actor, as its constructor admits it. -/
structure ActorId where
  text : Text
  clean : ∀ c ∈ text, isControl c = false

/-- A source as the client gives it. -/
structure SourceInput (N : Normalizer) where
  sourceType : Text
  noteFileId : Option Nat
  notePath : Option (CheckedPath N)
  noteRevision : Option UInt64
  headingPath : List Text
  (startLine endLine : Option UInt32)
  (excerptHash actorId : Option Text)

inductive MemoryOrigin where
  | explicitAgent
  | explicitAdmin
  | import

def MemoryOrigin.sourceType : MemoryOrigin → Text
  | .explicitAgent => "explicit_agent".toList
  | .explicitAdmin => "explicit_admin".toList
  | .import => "import".toList

/-- A request to remember. -/
structure RememberInput where
  content : Text
  memoryType : Option MemoryType
  (importance confidence : Option Double)
  (validFrom validTo : Option Int64)
  (tags entities : List Text)
  sources : List (SourceInput env.N)
  idempotencyKey : Option Text
  origin : MemoryOrigin
  extraction : env.Json

/-- Absent keeps the value, inner absent clears it. -/
structure MemoryUpdateInput where
  content : Option Text
  memoryType : Option (Option MemoryType)
  (importance confidence : Option (Option Double))
  (validFrom validTo : Option (Option Int64))
  (tags entities : Option (List Text))

/-! ## Validation -/

def check (bad : Bool) (message : String) : Except MemoryError Unit :=
  if bad then .error (.invalidInput message) else .ok ()

def isAllowedControl (c : Char) : Bool := c = '\n' || c = '\r' || c = '\t'

def validateContent (content : Text) : Except MemoryError Unit :=
  check (content.all env.isWhitespace || decide (maxContentBytes < byteLen content) ||
    decide (Char.ofNat 0 ∈ content) || content.any fun c => isControl c && !isAllowedControl c)
    "memory content is invalid"

def validateScore (value : Double) : Except MemoryError Unit :=
  check (!value.inUnit) "memory score is invalid"

def validateOptional (value : Option Double) : Except MemoryError Unit :=
  value.elim (.ok ()) validateScore

def validateTagsEntities (tags entities : List Text) : Except MemoryError Unit := do
  check (decide (64 < tags.length ∨ 64 < entities.length)) "memory metadata is too large"
  check ((tags ++ entities).any fun value =>
    value.isEmpty || decide (512 < byteLen value) || value.any isControl)
    "memory tag/entity is invalid"

/-- `validate_remember_input`. -/
def validateRememberInput (input : RememberInput env) : Except MemoryError Unit := do
  validateContent env input.content
  validateOptional input.importance
  validateOptional input.confidence
  check (!validRange input.validFrom input.validTo) "memory validity range is invalid"
  validateTagsEntities input.tags input.entities
  check (decide (32 < input.sources.length)) "memory metadata is too large"
  check (input.idempotencyKey.any fun key =>
    key.isEmpty || decide (256 < byteLen key) || key.any isControl) "memory idempotency key is invalid"

/-! ## Sources -/

def note : Text := "note".toList

section

variable (files : Files env.N) (s : SourceInput env.N)

/-- The file that a note source names. -/
def namedFile :
    Except MemoryError (Option (FileRecord env.N)) :=
  match s.noteFileId, s.notePath with
  | some id, _ => .ok (files.getById id)
  | none, some path => .ok (files.getActive path)
  | none, none => .error (.invalidInput "note provenance has no source")

/-- One round of `normalize_source_inputs`. -/
def normalizeSource :
    Except MemoryError (SourceInput env.N) :=
  if s.sourceType ≠ note then .ok s
  else if s.notePath.any fun p => env.policy.isReserved env.F p.1 then
    .error (.invalidInput "memory provenance cannot reference managed files")
  else do
    let file ← namedFile env files s
    match file with
    | none => .error .conflict
    | some file =>
      if s.noteFileId.any (· ≠ file.id) || s.notePath.any (· ≠ file.path) ||
          s.noteRevision.any (· ≠ file.currentRevision) then .error .conflict
      else .ok { s with
        noteFileId := some file.id
        notePath := some file.path
        noteRevision := some file.currentRevision }

/-- The file whose current version a source records. -/
def sourceFile : Option (FileRecord env.N) :=
  (s.noteFileId.bind files.getById).filter (·.active)

end

def recordedType (sourceType defaultType : Text) : Text :=
  if sourceType = note then note else defaultType

/-- One round of `current_sources_from_inputs`. -/
def currentSource (files : Files env.N) (memoryId : Nat) (defaultType : Text)
    (defaultActor : Option ActorId) (createdAt : Int64) (id : Nat) (input : SourceInput env.N) :
    Except MemoryError (UnitSourceRecord env.N) :=
  let sourceType := recordedType input.sourceType defaultType
  let file := sourceFile env files input
  if sourceType = note ∧ file.isNone then .error .conflict
  else .ok {
    sourceType
    noteFileId := file.map (·.id)
    notePath := (file.map (·.path)).or input.notePath
    noteRevision := (file.map (·.currentRevision)).or input.noteRevision
    sourceContentHash := file.bind (·.contentHash)
    headingPath := input.headingPath
    startLine := input.startLine
    endLine := input.endLine
    excerptHash := input.excerptHash
    actorId := input.actorId.or (defaultActor.map (·.text))
    id, memoryId, createdAt }

/-- One source at least: the caller itself. -/
def currentSourcesFromInputs (files : Files env.N) (memoryId : Nat) (inputs : List (SourceInput env.N))
    (defaultType : Text) (defaultActor : Option ActorId) (createdAt : Int64) (freshId : Nat → Nat) :
    Except MemoryError (List (UnitSourceRecord env.N)) :=
  if inputs.isEmpty then
    .ok [{ sourceType := defaultType
           noteFileId := none
           notePath := none
           noteRevision := none
           sourceContentHash := none
           headingPath := []
           startLine := none
           endLine := none
           excerptHash := none
           actorId := defaultActor.map (·.text)
           id := freshId 0, memoryId, createdAt }]
  else
    inputs.zipIdx.mapM fun input =>
      currentSource env files memoryId defaultType defaultActor createdAt (freshId input.2) input.1

/-! ## Remember -/

/-- `deduplicate_strings`, ignoring case. -/
def deduplicateLoop (seen : List Text) : List Text → List Text
  | [] => []
  | value :: rest =>
    if env.toLowercase value ∈ seen then deduplicateLoop seen rest
    else value :: deduplicateLoop (env.toLowercase value :: seen) rest

def deduplicateStrings (values : List Text) : List Text := deduplicateLoop env [] values

/-- `VaultPath::parse` with the error of the caller. -/
def explicitPath (id : Nat) : Except MemoryError (CheckedPath env.N) :=
  match checkPath env.N ("memory-v3/explicit/".toList ++ env.U.text id ++ ".md".toList) with
  | none => .error (.invalidInput "memory canonical path is invalid")
  | some below =>
    match h : env.policy.reservedRoot.join env.N below.1 with
    | .ok p => .ok ⟨p, (ReservedPath.join_startsWith env.policy.valid below.2 h).1⟩
    | .error _ => .error (.invalidInput "memory canonical path is invalid")

/-- `remember_as` down to the bundle. -/
def remember (files : Files env.N) (actor : Option ActorId) (memoryId : Nat) (freshId : Nat → Nat)
    (now : Int64) (input : RememberInput env) : Except MemoryError (Bundle env) := do
  validateRememberInput env input
  let inputs ← input.sources.mapM (normalizeSource env files)
  let path ← explicitPath env memoryId
  let sources ← currentSourcesFromInputs env files memoryId inputs input.origin.sourceType actor now freshId
  .ok ⟨{ id := memoryId
         kind := input.memoryType.map MemoryType.asStr
         content := input.content
         importance := input.importance
         confidence := input.confidence
         origin := input.origin.sourceType
         revision := 1
         canonicalPath := some path
         validFrom := input.validFrom
         validTo := input.validTo
         tags := deduplicateStrings env input.tags
         entities := deduplicateStrings env input.entities
         metadata := env.redactJsonStrings input.extraction
         createdAt := now
         updatedAt := now }, sources⟩

/-! ## Publishing and updating -/

/-- What `publish_explicit` stores: `as_i64` converts. -/
def publish (b : Bundle env) : Except MemoryError (Bundle env) :=
  if b.memory.revision.toNat < 2 ^ 63 ∧ Readable b then .ok b else .error .state

/-- `ORDER BY s.created_at, s.id`. -/
def sourceBefore (a c : UnitSourceRecord env.N) : Bool :=
  decide (a.createdAt < c.createdAt) ||
    decide (a.createdAt = c.createdAt ∧ env.U.text a.id ≤ env.U.text c.id)

/-- `COALESCE(f.path, s.note_path)`. -/
def currentPath (files : Files env.N) (s : UnitSourceRecord env.N) : UnitSourceRecord env.N :=
  { s with notePath := (((s.noteFileId.bind files.getById).filter (·.active)).map (·.path)).or s.notePath }

/-- The bundle as `get_unchecked` reads it. -/
def stored (files : Files env.N) (b : Bundle env) : Bundle env :=
  ⟨b.memory, (b.sources.map (currentPath env files)).mergeSort (sourceBefore env)⟩

/-- `Revision::next`. -/
def nextRevision (r : UInt64) : Except MemoryError UInt64 :=
  if r.toNat + 1 < 2 ^ 64 then .ok (r + 1) else .error (.invalidInput "memory revision overflow")

/-- `update_as`, for a stored memory. -/
def update (files : Files env.N) (expectedRevision : UInt64) (patch : MemoryUpdateInput) (now : Int64)
    (b : Bundle env) : Except MemoryError (Bundle env) := do
  let b := stored env files b
  if b.memory.revision ≠ expectedRevision then .error .conflict
  else do
    patch.tags.elim (.ok ()) fun tags => validateTagsEntities tags []
    patch.entities.elim (.ok ()) fun entities => validateTagsEntities [] entities
    patch.content.elim (.ok ()) (validateContent env)
    patch.importance.elim (.ok ()) validateOptional
    patch.confidence.elim (.ok ()) validateOptional
    let validFrom := patch.validFrom.getD b.memory.validFrom
    let validTo := patch.validTo.getD b.memory.validTo
    check (!validRange validFrom validTo) "memory validity range is invalid"
    let revision ← nextRevision expectedRevision
    publish env ⟨{ b.memory with
      content := patch.content.getD b.memory.content
      kind := (patch.memoryType.map fun k => k.map MemoryType.asStr).getD b.memory.kind
      importance := patch.importance.getD b.memory.importance
      confidence := patch.confidence.getD b.memory.confidence
      validFrom, validTo
      tags := (patch.tags.map (deduplicateStrings env)).getD b.memory.tags
      entities := (patch.entities.map (deduplicateStrings env)).getD b.memory.entities
      revision
      updatedAt := now }, b.sources⟩

/-- A request and any accepted updates. -/
inductive Run (files : Files env.N) (actor : Option ActorId) (input : RememberInput env) :
    Bundle env → Prop where
  | remembered {memoryId : Nat} {freshId : Nat → Nat} {now : Int64} {b : Bundle env}
      (h : remember env files actor memoryId freshId now input = .ok b) : Run files actor input b
  | updated {later : Files env.N} {expectedRevision : UInt64} {patch : MemoryUpdateInput} {now : Int64}
      {b b' : Bundle env} (h : Run files actor input b) (hpublished : publish env b = .ok b)
      (hupdate : update env later expectedRevision patch now b = .ok b') : Run files actor input b'

/-! ## What a run keeps -/

section Checks

variable {env}

theorem check_ok {bad : Bool} {message : String} : check bad message = .ok () ↔ bad = false := by
  cases bad with
  | false => exact ⟨fun _ => rfl, fun _ => rfl⟩
  | true => exact ⟨nofun, nofun⟩

theorem validateContent_ok {content : Text} (h : validateContent env content = .ok ()) :
    content ≠ [] ∧ byteLen content ≤ maxContentBytes := by
  have hbad := check_ok.mp h
  simp only [Bool.or_eq_false_iff, decide_eq_false_iff_not] at hbad
  refine ⟨?_, Nat.not_lt.mp hbad.1.1.2⟩
  rintro rfl
  cases hbad.1.1.1

theorem validateScore_ok {x : Double} (h : validateScore x = .ok ()) : x.inUnit := by
  have hbad := check_ok.mp h
  rwa [Bool.not_eq_false'] at hbad

theorem validateOptional_ok {o : Option Double} (h : validateOptional o = .ok ()) :
    ∀ x ∈ o, x.inUnit :=
  fun x hx => validateScore_ok (elim_ok_iff.mp h x hx)

theorem validateTagsEntities_ok {tags entities : List Text}
    (h : validateTagsEntities tags entities = .ok ()) :
    (∀ t ∈ tags, OneLine t) ∧ ∀ t ∈ entities, OneLine t := by
  obtain ⟨_, _, h⟩ := bind_ok_iff.mp h
  have hall : ∀ t ∈ tags ++ entities, OneLine t := by
    intro t ht
    have hvalue := any_eq_false.mp (check_ok.mp h) t ht
    refine oneLine_of_controlFree fun c hc => ?_
    simp only [Bool.or_eq_true, not_or, any_eq_true, not_exists, not_and] at hvalue
    exact Bool.eq_false_iff.mpr (hvalue.2 c hc)
  exact ⟨fun t ht => hall t (mem_append_left _ ht), fun t ht => hall t (mem_append_right _ ht)⟩

variable {values : List Text} {id : Nat}

theorem mem_deduplicateLoop {seen : List Text} {t : Text}
    (h : t ∈ deduplicateLoop env seen values) : t ∈ values := by
  induction values generalizing seen with
  | nil => exact h
  | cons value rest ih =>
    unfold deduplicateLoop at h
    split_ifs at h with hseen
    · exact mem_cons_of_mem value (ih h)
    · rcases mem_cons.mp h with rfl | h
      · exact mem_cons_self
      · exact mem_cons_of_mem value (ih h)

theorem deduplicated_oneLine (h : ∀ t ∈ values, OneLine t) :
    ∀ t ∈ deduplicateStrings env values, OneLine t :=
  fun t ht => h t (mem_deduplicateLoop ht)

theorem uuid_ascii (U : Uuid) (id : Nat) : ∀ c ∈ U.text id, c.toNat < 0x80 ∧ c ≠ '/' := by
  intro c hc
  rcases U.hex id c hc with hdigit | ⟨hlow, hhigh⟩ | rfl
  · have hrange : 48 ≤ c.toNat ∧ c.toNat ≤ 57 := by
      simpa [Char.isDigit, UInt32.le_iff_toNat_le] using hdigit
    refine ⟨by omega, ?_⟩
    rintro rfl
    exact absurd hdigit (by decide)
  · have hle : c.toNat ≤ 'f'.toNat := hhigh
    refine ⟨Nat.lt_of_le_of_lt hle (by decide), ?_⟩
    rintro rfl
    exact absurd hlow (by decide)
  · decide

/-- The segments of the path below the managed root. -/
def explicitSegments (env : Env) (id : Nat) : List Text :=
  ["memory-v3".toList, "explicit".toList, env.U.text id ++ ".md".toList]

theorem explicitSegments_slashless (id : Nat) : ∀ s ∈ explicitSegments env id, '/' ∉ s := by
  have hlast : '/' ∉ env.U.text id ++ ".md".toList := by
    intro hmem
    rcases mem_append.mp hmem with hmem | hmem
    · exact (uuid_ascii env.U id _ hmem).2 rfl
    · exact absurd hmem (by decide)
  intro s hs
  simp only [explicitSegments, mem_cons, not_mem_nil, or_false] at hs
  rcases hs with rfl | rfl | rfl
  · decide
  · decide
  · exact hlast

/-- The relative path is the one that was asked for. -/
theorem explicit_below {below : CheckedPath env.N}
    (h : checkPath env.N ("memory-v3/explicit/".toList ++ env.U.text id ++ ".md".toList) = some below) :
    below.1.segments = explicitSegments env id := by
  have htext : "memory-v3/explicit/".toList ++ env.U.text id ++ ".md".toList =
      joined (explicitSegments env id) := by
    unfold explicitSegments
    rw [joined_cons (cons_ne_nil _ _), joined_cons (cons_ne_nil _ _)]
    simp
  have hascii : ∀ c ∈ "memory-v3/explicit/".toList ++ env.U.text id ++ ".md".toList, c.toNat < 0x80 := by
    have hstart : "memory-v3/explicit/".toList.all (fun c => c.toNat < 0x80) := by decide
    have hend : ".md".toList.all (fun c => c.toNat < 0x80) := by decide
    intro c hc
    rcases mem_append.mp hc with hc | hc
    · rcases mem_append.mp hc with hc | hc
      · exact of_decide_eq_true (all_eq_true.mp hstart c hc)
      · exact (uuid_ascii env.U id c hc).1
    · exact of_decide_eq_true (all_eq_true.mp hend c hc)
  have hne : "memory-v3/explicit/".toList ++ env.U.text id ++ ".md".toList ≠ [] := by simp
  have hparse : LogicalPath.parse env.N
      ("memory-v3/explicit/".toList ++ env.U.text id ++ ".md".toList) = .ok below.1 := by
    unfold checkPath at h
    split at h
    next q hq => exact Option.some.inj h ▸ hq
    next => cases h
  have hbelow : below.1 = ⟨joined (explicitSegments env id)⟩ := by
    rw [ReservedPath.path_of_parse hne hparse, env.nfc_ascii _ hascii, htext]
  have hsplit : (joined (explicitSegments env id)).splitOn '/' = explicitSegments env id :=
    LogicalPath.splitOn_joined (cons_ne_nil _ _) (explicitSegments_slashless id)
  rw [hbelow]
  show ((joined (explicitSegments env id)).splitOn '/').filter _ = _
  rw [hsplit, filter_eq_self]
  intro s hs
  simp only [explicitSegments, mem_cons, not_mem_nil, or_false] at hs
  rcases hs with rfl | rfl | rfl
  · rfl
  · rfl
  · simp

/-- The name of the file is the id of the memory. -/
theorem explicitPath_filename {p : CheckedPath env.N} (h : explicitPath env id = .ok p) :
    filenameId env.U p.1 = some id := by
  unfold explicitPath at h
  split at h
  · cases h
  next below hbelow =>
    split at h
    next q hjoin =>
      obtain rfl := Except.ok.inj h
      obtain ⟨segs, hroot, hrootEq⟩ := route_of_parse env.policy.valid
      obtain ⟨more, hmore, hmoreEq⟩ := route_of_parse below.2
      have hsegments : more = explicitSegments env id := by
        rw [← explicit_below hbelow, hmoreEq, hmore.segments_eq]
      rw [hrootEq, hmoreEq, hroot.join_eq hmore] at hjoin
      split_ifs at hjoin with hlength hdepth
      have hroute : LogicalPath.IsRoute env.N (segs ++ more) := by
        refine ⟨fun s hs => ?_, Nat.not_lt.mp hdepth, Nat.not_lt.mp hlength⟩
        rcases mem_append.mp hs with hs | hs
        · exact hroot.segment s hs
        · exact hmore.segment s hs
      have hlast : (VaultPath.segments q).getLast? = some (env.U.text id ++ ".md".toList) := by
        rw [← Except.ok.inj hjoin, hroute.segments_eq, hsegments]
        simp [explicitSegments]
      show ((VaultPath.segments q).getLast?.bind _) = _
      rw [hlast]
      show (stripSuffix (env.U.text id ++ ".md".toList) ".md".toList).bind _ = _
      rw [stripSuffix_append]
      exact env.U.parse_text id
    next => cases h

end Checks

section Sources

variable {env} {files : Files env.N} {s s' : SourceInput env.N} {r : UnitSourceRecord env.N}

variable (env) in
/-- No unchecked break; a revision within `i64`. -/
structure SourceInput.Clean (files : Files env.N) (s : SourceInput env.N) : Prop where
  headings : ∀ h ∈ s.headingPath, OneLine h
  excerpt : ∀ e ∈ s.excerptHash, OneLine e
  actor : ∀ a ∈ s.actorId, OneLine a
  revision : s.sourceType ≠ note → sourceFile env files s = none →
    ∀ r ∈ s.noteRevision, r.toNat < 2 ^ 63

theorem normalizeSource_ok (h : normalizeSource env files s = .ok s') :
    s.sourceType ≠ note ∧ s' = s ∨ s.sourceType = note ∧ ∃ file : FileRecord env.N,
      s' = { s with
        noteFileId := some file.id
        notePath := some file.path
        noteRevision := some file.currentRevision } := by
  unfold normalizeSource at h
  split_ifs at h with htype hmanaged
  · exact .inl ⟨htype, (Except.ok.inj h).symm⟩
  · obtain ⟨file, _, h⟩ := bind_ok_iff.mp h
    cases file with
    | none => cases h
    | some file =>
      simp only at h
      split_ifs at h
      exact .inr ⟨not_not.mp htype, file, (Except.ok.inj h).symm⟩

theorem sourceType_known (origin : MemoryOrigin) :
    origin.sourceType ∈ sourceTypes ∧ origin.sourceType ∈ origins ∧ origin.sourceType ≠ note := by
  cases origin <;> decide

theorem digest_oneLine (file : FileRecord env.N) : ∀ h ∈ file.contentHash, OneLine h := by
  intro h hh
  exact oneLine_of_breakless (fun hmem => absurd (file.digest h hh _ hmem) (by decide))
    fun hmem => absurd (file.digest h hh _ hmem) (by decide)

theorem actor_oneLine (actor : Option ActorId) : ∀ a ∈ actor.map (·.text), OneLine a := by
  intro a ha
  obtain ⟨actor, _, rfl⟩ := Option.map_eq_some_iff.mp ha
  exact oneLine_of_controlFree actor.clean

theorem or_oneLine {o d : Option Text} (hd : ∀ a ∈ d, OneLine a) :
    (∀ a ∈ o.or d, OneLine a) ↔ ∀ a ∈ o, OneLine a := by
  cases o with
  | none => exact ⟨nofun, fun _ => hd⟩
  | some a => exact Iff.rfl

variable {createdAt : Int64} {origin : MemoryOrigin} {memoryId : Nat} {actor : Option ActorId}

/-- What is recorded for a source of the request. -/
theorem recorded_source {id : Nat} (hnormal : normalizeSource env files s = .ok s')
    (hcurrent : currentSource env files memoryId origin.sourceType actor createdAt id s' = .ok r) :
    r.toProvenance.Checked ∧ (r.toProvenance.Clean ↔ s.Clean env files) := by
  obtain ⟨hknown, _, horigin⟩ := sourceType_known origin
  have hsame : s'.headingPath = s.headingPath ∧ s'.excerptHash = s.excerptHash ∧
      s'.actorId = s.actorId ∧ s'.sourceType = s.sourceType := by
    rcases normalizeSource_ok hnormal with ⟨_, rfl⟩ | ⟨_, file, rfl⟩
    · exact ⟨rfl, rfl, rfl, rfl⟩
    · exact ⟨rfl, rfl, rfl, rfl⟩
  unfold currentSource at hcurrent
  simp only at hcurrent
  split_ifs at hcurrent with hmissing
  obtain rfl := Except.ok.inj hcurrent
  have hrevision : (∀ n ∈ ((sourceFile env files s').map (·.currentRevision)).or s'.noteRevision,
      n.toNat < 2 ^ 63) ↔ (s.sourceType ≠ note → sourceFile env files s = none →
        ∀ n ∈ s.noteRevision, n.toNat < 2 ^ 63) := by
    cases hfile : sourceFile env files s' with
    | some file =>
      refine ⟨fun _ htype hnone => ?_, fun _ n hn => Option.some.inj hn ▸ file.stored⟩
      rcases normalizeSource_ok hnormal with ⟨_, rfl⟩ | ⟨hnote, _⟩
      · cases hnone.symm.trans hfile
      · exact absurd hnote htype
    | none =>
      rcases normalizeSource_ok hnormal with ⟨htype, rfl⟩ | ⟨hnote, _⟩
      · exact ⟨fun h _ _ => h, fun h => h htype hfile⟩
      · refine absurd ?_ hmissing
        rw [hfile, hsame.2.2.2]
        exact ⟨if_pos hnote, rfl⟩
  constructor
  · constructor
    · show recordedType s'.sourceType origin.sourceType ∈ sourceTypes
      unfold recordedType
      split_ifs
      · decide
      · exact hknown
    · intro h hh
      obtain ⟨file, _, hfile⟩ := Option.bind_eq_some_iff.mp hh
      exact digest_oneLine file h hfile
  · constructor
    · rintro ⟨hheading, hexcerpt, hactor, hfits⟩
      exact ⟨hsame.1 ▸ hheading, hsame.2.1 ▸ hexcerpt,
        hsame.2.2.1 ▸ (or_oneLine (actor_oneLine actor)).mp hactor, hrevision.mp hfits⟩
    · rintro ⟨hheading, hexcerpt, hactor, hfits⟩
      exact ⟨hsame.1.symm ▸ hheading, hsame.2.1.symm ▸ hexcerpt,
        (or_oneLine (actor_oneLine actor)).mpr (hsame.2.2.1.symm ▸ hactor), hrevision.mpr hfits⟩

theorem recorded_sources {freshId : Nat → Nat} {inputs normalized : List (SourceInput env.N)}
    {sources : List (UnitSourceRecord env.N)}
    (hnormal : inputs.mapM (normalizeSource env files) = .ok normalized)
    (hcurrent : currentSourcesFromInputs env files memoryId normalized origin.sourceType actor createdAt
      freshId = .ok sources) :
    sources ≠ [] ∧ sources.length ≤ inputs.length + 1 ∧ (∀ r ∈ sources, r.toProvenance.Checked) ∧
      ((∀ r ∈ sources, r.toProvenance.Clean) ↔ ∀ s ∈ inputs, s.Clean env files) := by
  have hpairs := mapM_ok_iff.mp hnormal
  unfold currentSourcesFromInputs at hcurrent
  split_ifs at hcurrent with hempty
  · -- no source: the memory itself is its own
    obtain rfl := Except.ok.inj hcurrent
    obtain rfl := List.isEmpty_iff.mp hempty
    obtain rfl : inputs = [] := by
      cases hpairs
      rfl
    have hclean : (⟨origin.sourceType, none, none, none, none, [], none, none, none,
        actor.map (·.text)⟩ : Provenance env.N).Clean :=
      ⟨nofun, nofun, actor_oneLine actor, nofun⟩
    refine ⟨cons_ne_nil _ _, Nat.le_refl 1, ?_, ?_⟩
    · intro r hr
      obtain rfl := mem_singleton.mp hr
      exact ⟨(sourceType_known origin).1, nofun⟩
    · refine ⟨nofun, fun _ r hr => ?_⟩
      obtain rfl := mem_singleton.mp hr
      exact hclean
  · have hrows : List.Forall₂ (fun s' r => ∃ id, currentSource env files memoryId origin.sourceType actor
        createdAt id s' = .ok r) normalized sources := by
      have hzip := mapM_ok_iff.mp hcurrent
      have hmap : normalized = normalized.zipIdx.map (·.1) := (zipIdx_map_fst 0 normalized).symm
      rw [hmap, forall₂_map_left_iff]
      exact hzip.imp fun _ _ h => ⟨_, h⟩
    have hall := Fallible.forall₂_comp hpairs hrows
      (R := fun s r => r.toProvenance.Checked ∧ (r.toProvenance.Clean ↔ s.Clean env files))
      fun s s' r hs ⟨id, hr⟩ => recorded_source hs hr
    have hlength : inputs.length = sources.length := hall.length_eq
    refine ⟨?_, by omega, ?_, ?_⟩
    · rintro rfl
      cases hrows
      exact hempty rfl
    · have htriv := (Fallible.forall_congr_of_forall₂ hall (p := fun _ => True)
        (q := fun r => r.toProvenance.Checked) fun _ _ h => ⟨fun _ => h.1, fun _ => trivial⟩)
      exact htriv.mp fun _ _ => trivial
    · exact (Fallible.forall_congr_of_forall₂ hall fun _ _ h => h.2.symm).symm

end Sources

section Runs

variable {env} {files later : Files env.N} {actor : Option ActorId} {input : RememberInput env}
  {b b' : Bundle env}

/-- All checks but those on the client's texts. -/
theorem remember_valid {memoryId : Nat} {freshId : Nat → Nat} {now : Int64}
    (h : remember env files actor memoryId freshId now input = .ok b) :
    Valid env b ∧ ((∀ s ∈ b.sources, s.toProvenance.Clean) ↔ ∀ s ∈ input.sources, s.Clean env files) ∧
      b.memory.metadata = env.redactJsonStrings input.extraction := by
  obtain ⟨_, hvalidate, h⟩ := bind_ok_iff.mp h
  obtain ⟨normalized, hnormal, h⟩ := bind_ok_iff.mp h
  obtain ⟨path, hpath, h⟩ := bind_ok_iff.mp h
  obtain ⟨sources, hsources, h⟩ := bind_ok_iff.mp h
  obtain rfl := Except.ok.inj h
  obtain ⟨_, hcontent, hvalidate⟩ := bind_ok_iff.mp hvalidate
  obtain ⟨_, himportance, hvalidate⟩ := bind_ok_iff.mp hvalidate
  obtain ⟨_, hconfidence, hvalidate⟩ := bind_ok_iff.mp hvalidate
  obtain ⟨_, hrange, hvalidate⟩ := bind_ok_iff.mp hvalidate
  obtain ⟨_, htags, hvalidate⟩ := bind_ok_iff.mp hvalidate
  obtain ⟨_, hcount, _⟩ := bind_ok_iff.mp hvalidate
  obtain ⟨hne, hlength, hchecked, hclean⟩ := recorded_sources hnormal hsources
  have hcount : input.sources.length ≤ 32 := by
    have hnot := check_ok.mp hcount
    rw [decide_eq_false_iff_not] at hnot
    omega
  refine ⟨?_, hclean, rfl⟩
  exact
    { content := validateContent_ok hcontent
      kind := by
        intro k hk
        obtain ⟨t, _, rfl⟩ := Option.map_eq_some_iff.mp hk
        exact ⟨t, rfl⟩
      importance := validateOptional_ok himportance
      confidence := validateOptional_ok hconfidence
      origin := (sourceType_known input.origin).2.1
      revision := ⟨(by decide : 0 < (1 : UInt64).toNat), (by decide : (1 : UInt64).toNat < 2 ^ 63)⟩
      range := by
        have hok := check_ok.mp hrange
        rwa [Bool.not_eq_false'] at hok
      tags := deduplicated_oneLine (validateTagsEntities_ok htags).1
      entities := deduplicated_oneLine (validateTagsEntities_ok htags).2
      path := ⟨path, rfl, explicitPath_filename hpath⟩
      sources := ⟨hne, by show sources.length ≤ 128; omega⟩
      checked := hchecked }

/-- Reading back moves sources, renews paths. -/
theorem stored_sources {p : Provenance env.N → Prop}
    (hp : ∀ (q : Provenance env.N) path, p { q with notePath := path } ↔ p q) :
    (∀ s ∈ (stored env later b).sources, p s.toProvenance) ↔ ∀ s ∈ b.sources, p s.toProvenance := by
  have hperm : ((b.sources.map (currentPath env later)).mergeSort (sourceBefore env)).Perm
      (b.sources.map (currentPath env later)) := mergeSort_perm _ _
  constructor
  · intro h s hs
    have hmem : currentPath env later s ∈ (stored env later b).sources :=
      hperm.mem_iff.mpr (mem_map_of_mem hs)
    exact (hp s.toProvenance _).mp (h (currentPath env later s) hmem)
  · intro h s hs
    obtain ⟨s₀, hs₀, rfl⟩ := mem_map.mp (hperm.mem_iff.mp hs)
    exact (hp s₀.toProvenance _).mpr (h s₀ hs₀)

theorem stored_clean : (∀ s ∈ (stored env later b).sources, s.toProvenance.Clean) ↔
    ∀ s ∈ b.sources, s.toProvenance.Clean :=
  stored_sources fun _ _ => ⟨fun h => ⟨h.1, h.2, h.3, h.4⟩, fun h => ⟨h.1, h.2, h.3, h.4⟩⟩

theorem stored_checked : (∀ s ∈ (stored env later b).sources, s.toProvenance.Checked) ↔
    ∀ s ∈ b.sources, s.toProvenance.Checked :=
  stored_sources fun _ _ => ⟨fun h => ⟨h.1, h.2⟩, fun h => ⟨h.1, h.2⟩⟩

theorem stored_length : (stored env later b).sources.length = b.sources.length := by
  show ((b.sources.map _).mergeSort _).length = _
  rw [length_mergeSort, length_map]

/-- A field that a patch replaces or leaves alone. -/
theorem patched {α : Type} {p : α → Prop} {o : Option α} {d : α} (ho : ∀ a ∈ o, p a) (hd : p d) :
    p (o.getD d) := by
  cases o with
  | none => exact hd
  | some a => exact ho a rfl

theorem update_valid {expectedRevision : UInt64} {patch : MemoryUpdateInput} {now : Int64}
    (hvalid : Valid env b) (h : update env later expectedRevision patch now b = .ok b') :
    Valid env b' ∧ b'.sources = (stored env later b).sources ∧
      b'.memory.metadata = b.memory.metadata := by
  unfold update at h
  simp only at h
  split_ifs at h with hconflict
  simp only [bind_ok_iff] at h
  obtain ⟨_, htags, _, hentities, _, hcontent, _, himportance, _, hconfidence, _, hrange,
    revision, hnext, h⟩ := h
  unfold publish at h
  split_ifs at h with hstored
  obtain rfl := Except.ok.inj h
  have hpos : 0 < revision.toNat := by
    unfold nextRevision at hnext
    split_ifs at hnext with hsmall
    rw [← Except.ok.inj hnext, UInt64.toNat_add, UInt64.toNat_one, Nat.mod_eq_of_lt hsmall]
    exact Nat.succ_pos _
  refine ⟨?_, rfl, rfl⟩
  exact
    { content := patched (fun t ht => validateContent_ok (elim_ok_iff.mp hcontent t ht)) hvalid.content
      kind := by
        refine patched (p := fun o : Option Text => ∀ k ∈ o, ∃ t : MemoryType, k = t.asStr) ?_ hvalid.kind
        intro o ho k hk
        obtain ⟨o, _, rfl⟩ := Option.map_eq_some_iff.mp ho
        obtain ⟨t, _, rfl⟩ := Option.map_eq_some_iff.mp hk
        exact ⟨t, rfl⟩
      importance := patched
        (fun o ho => validateOptional_ok (elim_ok_iff.mp himportance o ho)) hvalid.importance
      confidence := patched
        (fun o ho => validateOptional_ok (elim_ok_iff.mp hconfidence o ho)) hvalid.confidence
      origin := hvalid.origin
      revision := ⟨hpos, hstored.1⟩
      range := by
        have hok := check_ok.mp hrange
        rwa [Bool.not_eq_false'] at hok
      tags := by
        refine patched (p := fun ts : List Text => ∀ t ∈ ts, OneLine t) ?_ hvalid.tags
        intro ts hts
        obtain ⟨values, hvalues, rfl⟩ := Option.map_eq_some_iff.mp hts
        exact deduplicated_oneLine
          (validateTagsEntities_ok (elim_ok_iff.mp htags values hvalues)).1
      entities := by
        refine patched (p := fun ts : List Text => ∀ t ∈ ts, OneLine t) ?_ hvalid.entities
        intro ts hts
        obtain ⟨values, hvalues, rfl⟩ := Option.map_eq_some_iff.mp hts
        exact deduplicated_oneLine
          (validateTagsEntities_ok (elim_ok_iff.mp hentities values hvalues)).2
      path := hvalid.path
      sources := by
        have hlength : (stored env later b).sources.length = b.sources.length := stored_length
        have hcount := hvalid.sources.2
        refine ⟨fun hnil => hvalid.sources.1 ?_, by show (stored env later b).sources.length ≤ 128; omega⟩
        rw [show (stored env later b).sources = [] from hnil] at hlength
        exact eq_nil_of_length_eq_zero hlength.symm
      checked := stored_checked.mpr hvalid.checked }

/-- Every bundle of a run is valid. -/
theorem Run.valid (h : Run env files actor input b) :
    Valid env b ∧ ((∀ s ∈ b.sources, s.toProvenance.Clean) ↔ ∀ s ∈ input.sources, s.Clean env files) ∧
      b.memory.metadata = env.redactJsonStrings input.extraction := by
  induction h with
  | remembered h => exact remember_valid h
  | updated _ _ hupdate ih =>
    obtain ⟨hvalid, hclean, hmetadata⟩ := ih
    obtain ⟨hvalid', hsources, hsame⟩ := update_valid hvalid hupdate
    refine ⟨hvalid', ?_, hsame.trans hmetadata⟩
    rw [hsources, stored_clean]
    exact hclean

/-- **EXPLICIT MEMORIES SURVIVE A REBUILD** exactly if sources are on one line and within `i64`,
    JSON gives the metadata back, and the file is at most 256 KiB. -/
theorem explicit_survives_iff (h : Run env files actor input b) :
    RoundTrips env b ↔ (∀ s ∈ input.sources, s.Clean env files) ∧
      env.Exact (env.redactJsonStrings input.extraction) ∧
      fileSize (frontMatter env b) b.memory.content ≤ maxExplicitBytes := by
  obtain ⟨hvalid, hclean, hmetadata⟩ := h.valid
  rw [roundTrips_iff hvalid, ← hmetadata]
  constructor
  · intro hfits
    exact ⟨hclean.mp hfits.clean, hfits.exact, hfits.size⟩
  · rintro ⟨hsources, hexact, hsize⟩
    exact ⟨hclean.mpr hsources, hexact, hsize⟩

end Runs

/-! ## A request whose heading has a line break -/

def exactRounding : Rounding where
  nearest := fun q => q
  near := by
    intro q _ _
    rw [sub_self, abs_zero]
    norm_num
  inUnit := fun _ hzero hone => ⟨hzero, hone⟩

/-- The metadata of a request, and none. -/
inductive Extraction where
  | empty
  | fixture

def Extraction.text : Extraction → Text
  | empty => "\x7b\x7d".toList
  | fixture => "\x7b\"fixture\":\"x\"\x7d".toList

def sampleEnv (yaml : YamlBlock.Reader) : Env where
  N := plain
  U := decimalIds
  R := exactRounding
  yaml
  F := ReservedPath.asciiFolding
  policy := ReservedPath.managedPolicy
  isWhitespace := fun c => c = ' '
  toLowercase := fun t => t.map Char.toLower
  Json := Extraction
  writeJson := Extraction.text
  readJson := fun t => [Extraction.empty, .fixture].find? (·.text = t)
  json_oneLine := fun v => by cases v <;> decide
  emptyObject := .empty
  redactJsonStrings := fun j => j
  nfc_ascii := fun _ _ => rfl

def notePath : CheckedPath plain := ⟨⟨['a', '.', 'm', 'd']⟩, by decide⟩

def noteFile : FileRecord plain where
  id := 7
  path := notePath
  currentRevision := 3
  contentHash := some ['0', 'a']
  active := true
  stored := by decide
  digest := by
    intro h hh
    obtain rfl : ['0', 'a'] = h := Option.some.inj hh
    simp

def oneFile : Files plain where
  getById := fun id => if id = 7 then some noteFile else none
  getActive := fun p => if p = notePath then some noteFile else none

def noteSource (heading : Text) : SourceInput plain where
  sourceType := note
  noteFileId := some 7
  notePath := none
  noteRevision := none
  headingPath := [heading]
  startLine := some 1
  endLine := none
  excerptHash := none
  actorId := none

def noteRequest (yaml : YamlBlock.Reader) (heading : Text) : RememberInput (sampleEnv yaml) where
  content := ['x']
  memoryType := some .decision
  importance := some (.finite (1 / 2))
  confidence := none
  validFrom := none
  validTo := none
  tags := [['t']]
  entities := []
  sources := [noteSource heading]
  idempotencyKey := none
  origin := .explicitAgent
  extraction := .fixture

def memoryPath : CheckedPath plain :=
  ⟨⟨"_mcp-vault/memory-v3/explicit/5.md".toList⟩, by decide⟩

/-- What is recorded for the request. -/
def noteBundle (yaml : YamlBlock.Reader) (heading : Text) : Bundle (sampleEnv yaml) where
  memory :=
    { id := 5
      kind := some "decision".toList
      content := ['x']
      importance := some (.finite (1 / 2))
      confidence := none
      origin := "explicit_agent".toList
      revision := 1
      canonicalPath := some memoryPath
      validFrom := none
      validTo := none
      tags := [['t']]
      entities := []
      metadata := .fixture
      createdAt := 0
      updatedAt := 0 }
  sources :=
    [{ sourceType := note
       noteFileId := some 7
       notePath := some notePath
       noteRevision := some 3
       sourceContentHash := some ['0', 'a']
       headingPath := [heading]
       startLine := some 1
       endLine := none
       excerptHash := none
       actorId := none
       id := 0
       memoryId := 5
       createdAt := 0 }]

theorem noteRequest_remembered (yaml : YamlBlock.Reader) (heading : Text) :
    remember (sampleEnv yaml) oneFile none 5 id 0 (noteRequest yaml heading) =
      .ok (noteBundle yaml heading) := by
  have hscore : validateScore (.finite (1 / 2)) = .ok () :=
    check_ok.mpr (by rw [Bool.not_eq_false']; exact decide_eq_true (by norm_num))
  have hvalid : validateRememberInput (sampleEnv yaml) (noteRequest yaml heading) = .ok () :=
    bind_ok_iff.mpr ⟨(), rfl, bind_ok_iff.mpr ⟨(), hscore, rfl⟩⟩
  have hpath : explicitPath (sampleEnv yaml) 5 = .ok memoryPath := by rfl
  exact bind_ok_iff.mpr ⟨(), hvalid, bind_ok_iff.mpr ⟨_, rfl,
    bind_ok_iff.mpr ⟨_, hpath, bind_ok_iff.mpr ⟨_, rfl, rfl⟩⟩⟩⟩

/-- A heading with a line break is accepted, and no reader brings it back. -/
theorem heading_break_lost : ¬ ∃ yaml, ∀ b,
    remember (sampleEnv yaml) oneFile none 5 id 0 (noteRequest yaml ['a', '\n', 'b']) = .ok b →
      RoundTrips (sampleEnv yaml) b := by
  rintro ⟨yaml, hback⟩
  have hb := noteRequest_remembered yaml ['a', '\n', 'b']
  have hfits := (roundTrips_iff (remember_valid hb).1).mp (hback _ hb)
  have hheading : OneLine ['a', '\n', 'b'] :=
    (hfits.clean _ mem_cons_self).headings _ mem_cons_self
  exact absurd hheading (by decide)

/-- A heading on one line comes back. -/
theorem explicit_survives_heading : ∃ yaml b,
    remember (sampleEnv yaml) oneFile none 5 id 0 (noteRequest yaml ['a']) = .ok b ∧
      RoundTrips (sampleEnv yaml) b := by
  have hb := noteRequest_remembered strictReader ['a']
  refine ⟨strictReader, _, hb, (explicit_survives_iff (.remembered hb)).mpr ⟨?_, ?_, ?_⟩⟩
  · intro s hs
    obtain rfl := mem_singleton.mp hs
    have hheading : OneLine ['a'] := by decide
    exact ⟨forall_mem_singleton.mpr hheading, nofun, nofun,
      fun htype => absurd rfl htype⟩
  · rfl
  · decide +kernel

end ExplicitMemory
