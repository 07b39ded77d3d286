import McpVault.CanonicalProofs
import McpVault.ReservedPathProofs

/-! # Explicit memories — remembered, updated, written and read back

Each version of a memory is written as canonical Markdown, which the rebuild reads.  Every string
was checked for control characters, apart from headings, excerpt hashes and actor ids of the
sources. -/

namespace ExplicitMemory

open List
open LogicalPath (byteLen bytesOf VaultPath Normalizer)
open PlainText (Text isControl)
open ReservedPath (CaseFolding VaultPathPolicy)
open YamlBlock (Document Entry Field OneLine Reader Record Scalar Table Value dash deeperDash fold inI64 indent intText isBreak isKeyChar mapTable present valueOf)
open MemoryFormat
open Option (elim_map map_id' map_some some.inj)
open YamlBlock (fold_eq_iff present_map)
open Double (fixed6)
open Int64 (ofInt)
open Field (mapText strings)

/-! ## Records -/

/-- Where a memory comes from. -/
structure Provenance (N : Normalizer) where
  sourceType : Text
  noteFileId : Option Nat
  notePath : Option (CheckedPath N)
  noteRevision : Option UInt64
  sourceContentHash : Option Text
  headingPath : List Text
  (startLine endLine : Option UInt32)
  (excerptHash actorId : Option Text)

structure UnitSourceRecord (N : Normalizer) extends Provenance N where
  (id memoryId : Nat)
  createdAt : Int64

/-- The current row of an explicit memory. -/
structure UnitRecord (N : Normalizer) (Json : Type) where
  id : Nat
  kind : Option Text
  content : Text
  (importance confidence : Option Double)
  origin : Text
  revision : UInt64
  canonicalPath : Option (CheckedPath N)
  (validFrom validTo : Option Int64)
  (tags entities : List Text)
  metadata : Json
  (createdAt updatedAt : Int64)

structure UnitBundle (N : Normalizer) (Json : Type) where
  memory : UnitRecord N Json
  sources : List (UnitSourceRecord N)

/-- What the memory service gets from elsewhere. -/
structure Env where
  N : Normalizer
  U : Uuid
  R : Rounding
  yaml : Reader
  F : CaseFolding
  policy : VaultPathPolicy N
  isWhitespace : Char → Bool
  toLowercase : Text → Text
  Json : Type
  writeJson : Json → Text
  readJson : Text → Option Json
  /-- JSON escapes control characters. -/
  json_oneLine : ∀ v, OneLine (writeJson v)
  emptyObject : Json
  redactJsonStrings : Json → Json
  /-- ASCII texts are their own normal form. -/
  nfc_ascii : ∀ t : Text, (∀ c ∈ t, c.toNat < 0x80) → N.nfc t = t

/-- The reader gives the value back, which `serde_json` may fail to do for a float. -/
def Env.Exact (env : Env) (v : env.Json) : Prop := env.readJson (env.writeJson v) = some v

variable (env : Env)

abbrev Bundle := UnitBundle env.N env.Json

/-! ## Rendering -/

def renderHeadings (headings : List Text) : Text :=
  if headings.isEmpty then []
  else "    heading:\n".toList ++ headings.flatMap fun h => "      - ".toList ++ quote h ++ ['\n']

/-- One source, as an element of the list. -/
def renderSource (s : Provenance env.N) : Text :=
  "  - ".toList ++ line "source_type" (quote s.sourceType) ++
  indentedLine "file_id" s.noteFileId (fun id => quote (env.U.text id)) ++
  indentedLine "path" s.notePath (fun p => quote p.1.text) ++
  indentedLine "revision" s.noteRevision (fun r => Nat.toDigits 10 r.toNat) ++
  indentedLine "content_hash" s.sourceContentHash quote ++
  renderHeadings s.headingPath ++
  indentedLine "start_line" s.startLine (fun n => Nat.toDigits 10 n.toNat) ++
  indentedLine "end_line" s.endLine (fun n => Nat.toDigits 10 n.toNat) ++
  indentedLine "excerpt_hash" s.excerptHash quote ++
  indentedLine "actor_id" s.actorId quote

/-- `render_explicit`: front matter and content. -/
def renderExplicit (b : Bundle env) : Text :=
  let m := b.memory
  "---\n".toList ++
  line "schema" (quote "mcp-vault-memory-unit/v3".toList) ++
  line "ownership" (quote "explicit".toList) ++
  line "id" (quote (env.U.text m.id)) ++
  optionalLine "kind" m.kind quote ++
  optionalLine "importance" m.importance fixed6 ++
  optionalLine "confidence" m.confidence fixed6 ++
  line "origin" (quote m.origin) ++
  line "revision" (Nat.toDigits 10 m.revision.toNat) ++
  line "created_at" (intText m.createdAt.toInt) ++
  optionalLine "valid_from" m.validFrom (fun t => intText t.toInt) ++
  optionalLine "valid_to" m.validTo (fun t => intText t.toInt) ++
  writeStringList "tags" m.tags ++
  writeStringList "entities" m.entities ++
  "sources:\n".toList ++
  b.sources.flatMap (fun s => renderSource env s.toProvenance) ++
  line "metadata" (quote (env.writeJson m.metadata)) ++
  "---\n\n".toList ++ m.content

/-! ## Parsing -/

def maxExplicitBytes : Nat := 256 * 1024

def maxContentBytes : Nat := 64 * 1024

def sourceTypes : List Text :=
  ["note", "explicit_agent", "explicit_admin", "import"].map String.toList

def origins : List Text := ["explicit_agent", "explicit_admin", "import"].map String.toList

def require (ok : Bool) : Except MemoryError Unit := if ok then .ok () else .error .markdown

/-- `parse(..).map_err(|_| MemoryError::Markdown)`. -/
def parsed {α : Type} (parse : Text → Option α) (t : Text) : Except MemoryError α :=
  match parse t with
  | some v => .ok v
  | none => .error .markdown

def optionalParsed {α : Type} (parse : Text → Option α) (value : Option Text) :
    Except MemoryError (Option α) :=
  match value with
  | none => .ok none
  | some t => (parsed parse t).map some

/-- `u64::try_from` or `u32::try_from`. -/
def optionalUnsigned {α : Type} (limit : Nat) (make : Nat → α) (value : Option Int) :
    Except MemoryError (Option α) :=
  match value with
  | none => .ok none
  | some n => if n < 0 ∨ (limit : Int) ≤ n then .error .markdown else .ok (some (make n.toNat))

/-- One source of the list. -/
def parseSource (value : Value) : Except MemoryError (Provenance env.N) := do
  let sourceType ← requiredString value "source_type"
  require (decide (sourceType ∈ sourceTypes))
  let noteFileId ← optionalParsed env.U.parse (optionalString value "file_id")
  let notePath ← optionalParsed (checkPath env.N) (optionalString value "path")
  let revision ← optionalInteger value "revision"
  let noteRevision ← optionalUnsigned (2 ^ 64) UInt64.ofNat revision
  let start ← optionalInteger value "start_line"
  let startLine ← optionalUnsigned (2 ^ 32) UInt32.ofNat start
  let stop ← optionalInteger value "end_line"
  let endLine ← optionalUnsigned (2 ^ 32) UInt32.ofNat stop
  let headingPath ← stringList value "heading"
  .ok { sourceType, noteFileId, notePath, noteRevision,
        sourceContentHash := optionalString value "content_hash"
        headingPath, startLine, endLine
        excerptHash := optionalString value "excerpt_hash"
        actorId := optionalString value "actor_id" }

/-- Sources get ids and the time of the memory. -/
def parseSources (freshId : Nat → Nat) (root : Value) (memoryId : Nat) (createdAt : Int64) :
    Except MemoryError (List (UnitSourceRecord env.N)) :=
  match field root "sources" with
  | some (.list values) =>
    if 128 < values.length then .error .markdown
    else do
      let parsed ← values.mapM (parseSource env)
      .ok (parsed.mapIdx fun i p => ⟨p, freshId i, memoryId, createdAt⟩)
  | _ => .error .markdown

def validRange (from_ to_ : Option Int64) : Bool :=
  match from_, to_ with
  | some f, some t => decide (f < t)
  | _, _ => true

/-- `parse_explicit` behind `parse_document`. -/
def readExplicit (freshId : Nat → Nat) (path : CheckedPath env.N) (root : Value) (body : Text) :
    Except MemoryError (Bundle env) := do
  let schema ← requiredString root "schema"
  require (decide (schema = "mcp-vault-memory-unit/v3".toList))
  let ownership ← requiredString root "ownership"
  require (decide (ownership = "explicit".toList))
  require (decide (body ≠ [] ∧ byteLen body ≤ maxContentBytes))
  let idText ← requiredString root "id"
  let id ← parsed env.U.parse idText
  require (decide (filenameId env.U path.1 = some id))
  let kind := optionalString root "kind"
  require (kind.all fun k => (MemoryType.tryFrom k).isSome)
  let importance ← optionalFloat env.R root "importance"
  let confidence ← optionalFloat env.R root "confidence"
  validateOptionalScore importance
  validateOptionalScore confidence
  let origin ← requiredString root "origin"
  require (decide (origin ∈ origins))
  let revision ← requiredRevision root "revision"
  let created ← requiredInteger root "created_at"
  let updated ← optionalInteger root "updated_at"
  let validFrom ← optionalInteger root "valid_from"
  let validTo ← optionalInteger root "valid_to"
  require (validRange (validFrom.map ofInt) (validTo.map ofInt))
  let tags ← stringList root "tags"
  let entities ← stringList root "entities"
  let metadata ← optionalParsed env.readJson (optionalString root "metadata")
  let createdAt := ofInt created
  let sources ← parseSources env freshId root id createdAt
  require (!sources.isEmpty)
  .ok ⟨{ id, kind, content := body, importance, confidence, origin, revision,
         canonicalPath := some path
         validFrom := validFrom.map ofInt
         validTo := validTo.map ofInt
         tags, entities
         metadata := metadata.getD env.emptyObject
         createdAt
         updatedAt := (updated.map ofInt).getD createdAt }, sources⟩

def parseExplicit (freshId : Nat → Nat) (path : CheckedPath env.N) (bytes : List UInt8) :
    Except MemoryError (Bundle env) := do
  let (root, body) ← parseDocument env.yaml bytes maxExplicitBytes
  readExplicit env freshId path root body

/-! ## The front matter as a document -/

def sourceTable (s : Provenance env.N) : Table Field :=
  [("source_type", some (quoted s.sourceType)),
   ("file_id", s.noteFileId.map fun id => quoted (env.U.text id)),
   ("path", s.notePath.map fun p => quoted p.1.text),
   ("revision", s.noteRevision.map fun r => number r.toNat),
   ("content_hash", s.sourceContentHash.map quoted),
   ("heading", if s.headingPath.isEmpty then none else some (.strings s.headingPath)),
   ("start_line", s.startLine.map fun n => number n.toNat),
   ("end_line", s.endLine.map fun n => number n.toNat),
   ("excerpt_hash", s.excerptHash.map quoted),
   ("actor_id", s.actorId.map quoted)]

/-- The fields of the front matter, in order. -/
def explicitTable (b : Bundle env) : Table Entry :=
  let m := b.memory
  [("schema", some (.field (quoted "mcp-vault-memory-unit/v3".toList))),
   ("ownership", some (.field (quoted "explicit".toList))),
   ("id", some (.field (quoted (env.U.text m.id)))),
   ("kind", m.kind.map fun k => .field (quoted k)),
   ("importance", m.importance.map fun x => .field (.scalar (.real x.fixed6))),
   ("confidence", m.confidence.map fun x => .field (.scalar (.real x.fixed6))),
   ("origin", some (.field (quoted m.origin))),
   ("revision", some (.field (number m.revision.toNat))),
   ("created_at", some (.field (number m.createdAt.toInt))),
   ("valid_from", m.validFrom.map fun t => .field (number t.toInt)),
   ("valid_to", m.validTo.map fun t => .field (number t.toInt)),
   ("tags", some (.field (.strings m.tags))),
   ("entities", some (.field (.strings m.entities))),
   ("sources", some (.records (b.sources.map fun s => present (sourceTable env s.toProvenance)))),
   ("metadata", some (.field (quoted (env.writeJson m.metadata))))]

/-- What stands between the fences. -/
def frontMatter (b : Bundle env) : Document := present (explicitTable env b)

section Writing

variable {env}

theorem write_heading (ss : List Text) :
    (if ss.isEmpty then none else some (strings ss)).elim [] (fun v =>
      writeLines (v.lines indent deeperDash "heading".toList)) =
      renderHeadings ss := by
  cases ss with
  | nil => rfl
  | cons s ss =>
    show "    heading:\n".toList ++
      writeLines (YamlBlock.itemLines deeperDash (s :: ss)) = _
    rw [write_items]
    rfl

theorem write_source (s : Provenance env.N) :
    writeLines (Record.lines (present (sourceTable env s))) = renderSource env s := by
  unfold sourceTable renderSource indentedLine
  rw [write_record]
  simp only [flatMap_cons, flatMap_nil, elim_map, Function.comp_def, write_quoted,
    write_number, write_heading, append_assoc, append_nil]
  rfl

/-- The writer of the source writes the document. -/
theorem renderExplicit_eq (b : Bundle env) :
    renderExplicit env b = fileText (frontMatter env b) b.memory.content := by
  have hsources : writeLines ((Entry.records (b.sources.map fun s =>
      present (sourceTable env s.toProvenance))).lines "sources".toList) =
      "sources:\n".toList ++ b.sources.flatMap fun s => renderSource env s.toProvenance := by
    show "sources:\n".toList ++ writeLines ((b.sources.map fun s =>
      present (sourceTable env s.toProvenance)).flatMap Record.lines) = _
    rw [writeLines_flatMap, flatMap_map]
    simp only [write_source]
  have hfield : ∀ (key : String) (v : Field),
      writeLines ((Entry.field v).lines key.toList) = writeLines (v.lines [] dash key.toList) :=
    fun _ _ => rfl
  unfold fileText frontMatter explicitTable renderExplicit optionalLine
  rw [write_document]
  simp only [flatMap_cons, flatMap_nil, elim_map, Option.elim_some,
    Function.comp_def, write_strings, hfield, write_quoted, write_number, write_real, hsources,
    intText_natCast, nil_append, append_assoc]

end Writing

/-! ## What the checks guarantee -/

/-- The part of a source that comes from the server. -/
structure Provenance.Checked {N : Normalizer} (s : Provenance N) : Prop where
  sourceType : s.sourceType ∈ sourceTypes
  contentHash : ∀ h ∈ s.sourceContentHash, OneLine h

/-- The client's part, as far as a file can hold it. -/
structure Provenance.Clean {N : Normalizer} (s : Provenance N) : Prop where
  headings : ∀ h ∈ s.headingPath, OneLine h
  excerpt : ∀ e ∈ s.excerptHash, OneLine e
  actor : ∀ a ∈ s.actorId, OneLine a
  revision : ∀ r ∈ s.noteRevision, r.toNat < 2 ^ 63

/-- A bundle that has passed the checks of the service. -/
structure Valid (b : Bundle env) : Prop where
  content : b.memory.content ≠ [] ∧ byteLen b.memory.content ≤ maxContentBytes
  kind : ∀ k ∈ b.memory.kind, ∃ t : MemoryType, k = t.asStr
  importance : ∀ x ∈ b.memory.importance, x.inUnit
  confidence : ∀ x ∈ b.memory.confidence, x.inUnit
  origin : b.memory.origin ∈ origins
  revision : 0 < b.memory.revision.toNat ∧ b.memory.revision.toNat < 2 ^ 63
  range : validRange b.memory.validFrom b.memory.validTo
  tags : ∀ t ∈ b.memory.tags, OneLine t
  entities : ∀ t ∈ b.memory.entities, OneLine t
  path : ∃ p, b.memory.canonicalPath = some p ∧ filenameId env.U p.1 = some b.memory.id
  sources : b.sources ≠ [] ∧ b.sources.length ≤ 128
  checked : ∀ s ∈ b.sources, s.toProvenance.Checked

/-- The same memory: what the rebuild has to restore. -/
structure Same (b b' : Bundle env) : Prop where
  id : b'.memory.id = b.memory.id
  kind : b'.memory.kind = b.memory.kind
  content : b'.memory.content = b.memory.content
  importance : b'.memory.importance.map fixed6 = b.memory.importance.map fixed6
  confidence : b'.memory.confidence.map fixed6 = b.memory.confidence.map fixed6
  origin : b'.memory.origin = b.memory.origin
  revision : b'.memory.revision = b.memory.revision
  createdAt : b'.memory.createdAt = b.memory.createdAt
  validity : b'.memory.validFrom = b.memory.validFrom ∧ b'.memory.validTo = b.memory.validTo
  tags : b'.memory.tags = b.memory.tags
  entities : b'.memory.entities = b.memory.entities
  metadata : b'.memory.metadata = b.memory.metadata
  sources : b'.sources.map (·.toProvenance) = b.sources.map (·.toProvenance)

section Reading

variable {env} {s : Provenance env.N} {b : Bundle env}

-- of the one revision only: there is also an instance that runs through all of them
instance decidableFits (o : Option UInt64) : Decidable (∀ r ∈ o, r.toNat < 2 ^ 63) :=
  Option.decidableForallMem o

theorem sourceTable_keys : ((sourceTable env s).map (·.1)).Nodup := by
  show ["source_type", "file_id", "path", "revision", "content_hash", "heading", "start_line",
    "end_line", "excerpt_hash", "actor_id"].Nodup
  simp

variable {n : Int} {N : Normalizer} {o : Option Text} {key : String} {t : Text}

theorem number_value (h : inI64 n) : (number n).value = .int n := if_pos h

theorem entry_value (h : inI64 n) : (Entry.field (number n)).value = .int n :=
  number_value h

theorem number_value_large (h : ¬ inI64 n) :
    (number n).value = .real (intText n) := if_neg h

theorem inI64_nat {n : Nat} : inI64 n ↔ n < 2 ^ 63 := by
  unfold inI64
  rw [decide_eq_true_iff]
  omega

/-- An unsigned number that was read as an integer. -/
theorem optionalUnsigned_map {α : Type} {limit : Nat} {make : Nat → α} {toNat : α → Nat}
    (hmake : ∀ a, make (toNat a) = a) (hlimit : ∀ a, toNat a < limit) (o : Option α) :
    optionalUnsigned limit make (o.map fun a => (toNat a : Int)) = .ok o := by
  cases o with
  | none => rfl
  | some a =>
    have ha := hlimit a
    have hin : ¬ ((toNat a : Int) < 0 ∨ (limit : Int) ≤ toNat a) := by omega
    show (if (toNat a : Int) < 0 ∨ (limit : Int) ≤ toNat a then _ else
      Except.ok (some (make (toNat a : Int).toNat))) = _
    rw [if_neg hin, Int.toNat_natCast, hmake]

theorem optionalParsed_map {α : Type} {parse : Text → Option α} {write : α → Text}
    (h : ∀ a, parse (write a) = some a) (o : Option α) :
    optionalParsed parse (o.map write) = .ok o := by
  cases o with
  | none => rfl
  | some a =>
    show (parsed parse (write a)).map some = _
    unfold parsed
    rw [h]
    rfl

theorem require_true {c : Bool} (h : c) : require c = .ok () := if_pos h

/-- The mapping that a source is read from. -/
def sourceValue (s : Provenance env.N) : Value := tableValue Field.value (sourceTable env s)

theorem optionalString_source (h : valueOf (sourceTable env s) key = o.map quoted) :
    optionalString (sourceValue s) key = o :=
  (optionalString_table sourceTable_keys h fun _ => rfl).trans map_id'

theorem optionalInteger_line {o : Option UInt32}
    (h : valueOf (sourceTable env s) key = o.map fun n => number n.toNat) :
    optionalInteger (sourceValue s) key = .ok (o.map fun n => (n.toNat : Int)) :=
  optionalInteger_table sourceTable_keys h fun n _ => number_value (inI64_nat.mpr (Nat.lt_trans n.toNat_lt (by decide)))

theorem optionalInteger_revision : optionalInteger (sourceValue s) "revision" =
    if ∀ r ∈ s.noteRevision, r.toNat < 2 ^ 63 then .ok (s.noteRevision.map fun r => (r.toNat : Int))
    else .error .markdown := by
  split_ifs with hfits
  · exact optionalInteger_table sourceTable_keys rfl fun r hr => number_value (inI64_nat.mpr (hfits r hr))
  · push Not at hfits
    obtain ⟨r, hr, hlarge⟩ := hfits
    have hvalue : field (sourceValue s) "revision" = some (.real (intText r.toNat)) := by
      refine (field_table sourceTable_keys).trans ?_
      have hkey : valueOf (sourceTable env s) "revision" = s.noteRevision.map fun r => number r.toNat := rfl
      rw [hkey, hr]
      exact congrArg some (number_value_large fun hin => Nat.not_lt.mpr hlarge (inI64_nat.mp hin))
    unfold optionalInteger
    rw [hvalue]
    rfl

theorem stringList_heading : stringList (sourceValue s) "heading" = .ok s.headingPath := by
  refine stringList_table sourceTable_keys ?_
  have hvalue : valueOf (sourceTable env s) "heading" =
      if s.headingPath.isEmpty then none else some (.strings s.headingPath) := rfl
  rw [hvalue]
  cases s.headingPath with
  | nil => exact .inr ⟨rfl, rfl⟩
  | cons t ts => exact .inl rfl

/-- A source comes back if `as_i64` reads its revision. -/
theorem parseSource_eq (h : s.Checked) : parseSource env (sourceValue s) =
    if ∀ r ∈ s.noteRevision, r.toNat < 2 ^ 63 then .ok s else .error .markdown := by
  have htype : requiredString (sourceValue s) "source_type" = .ok s.sourceType :=
    requiredString_table sourceTable_keys rfl rfl
  have hid : optionalString (sourceValue s) "file_id" = s.noteFileId.map env.U.text :=
    optionalString_table sourceTable_keys rfl fun _ => rfl
  have hpath : optionalString (sourceValue s) "path" = s.notePath.map fun p => p.1.text :=
    optionalString_table sourceTable_keys rfl fun _ => rfl
  have hstart : optionalInteger (sourceValue s) "start_line" =
      .ok (s.startLine.map fun n => (n.toNat : Int)) := optionalInteger_line rfl
  have hend : optionalInteger (sourceValue s) "end_line" =
      .ok (s.endLine.map fun n => (n.toNat : Int)) := optionalInteger_line rfl
  have hhash : optionalString (sourceValue s) "content_hash" = s.sourceContentHash :=
    optionalString_source rfl
  have hexcerpt : optionalString (sourceValue s) "excerpt_hash" = s.excerptHash :=
    optionalString_source rfl
  have hactor : optionalString (sourceValue s) "actor_id" = s.actorId := optionalString_source rfl
  have hlines : ∀ o : Option UInt32,
      optionalUnsigned (2 ^ 32) UInt32.ofNat (o.map fun n => (n.toNat : Int)) = .ok o :=
    optionalUnsigned_map (fun _ => UInt32.ofNat_toNat) fun n => n.toNat_lt
  have hrevision : optionalUnsigned (2 ^ 64) UInt64.ofNat
      (s.noteRevision.map fun r => (r.toNat : Int)) = .ok s.noteRevision :=
    optionalUnsigned_map (fun _ => UInt64.ofNat_toNat) (fun r => r.toNat_lt) _
  unfold parseSource
  rw [htype, hid, hpath, optionalInteger_revision, hstart, hend, stringList_heading, hhash, hexcerpt,
    hactor]
  simp only [bind, Except.bind, require_true (decide_eq_true h.sourceType),
    optionalParsed_map env.U.parse_text, optionalParsed_map (checkPath_text)]
  split_ifs with hfits
  · simp only [hrevision, hlines]
  · rfl

theorem explicitTable_keys : ((explicitTable env b).map (·.1)).Nodup := by
  show ["schema", "ownership", "id", "kind", "importance", "confidence", "origin", "revision",
    "created_at", "valid_from", "valid_to", "tags", "entities", "sources", "metadata"].Nodup
  simp

/-- The mapping that a memory is read from. -/
def explicitValue (b : Bundle env) : Value := tableValue Entry.value (explicitTable env b)

/-- Revisions that can be read back. -/
def Readable (b : Bundle env) : Prop := ∀ s ∈ b.sources, ∀ r ∈ s.noteRevision, r.toNat < 2 ^ 63

instance (b : Bundle env) : Decidable (Readable b) :=
  inferInstanceAs (Decidable (∀ s ∈ b.sources, ∀ r ∈ s.noteRevision, r.toNat < 2 ^ 63))

theorem parseSources_eq {freshId : Nat → Nat} {id : Nat} {createdAt : Int64} (h : Valid env b) :
    parseSources env freshId (explicitValue b) id createdAt =
      if Readable b then .ok ((b.sources.map (·.toProvenance)).mapIdx fun i p =>
        ⟨p, freshId i, id, createdAt⟩) else .error .markdown := by
  have hfield : field (explicitValue b) "sources" =
      some (.list (b.sources.map fun s => sourceValue s.toProvenance)) := by
    refine (field_table explicitTable_keys).trans ?_
    show some (Value.list ((b.sources.map fun s => present (sourceTable env s.toProvenance)).map
      Record.value)) = _
    rw [map_map]
    rfl
  have hparse : (b.sources.map fun s => sourceValue s.toProvenance).mapM (parseSource env) =
      if Readable b then .ok (b.sources.map (·.toProvenance)) else .error .markdown := by
    rw [mapM_map]
    exact Fallible.mapM_if fun s hs => parseSource_eq (h.checked s hs)
  unfold parseSources
  rw [hfield]
  simp only [length_map, if_neg (Nat.not_lt.mpr h.sources.2), hparse]
  split_ifs with hfits
  · rfl
  · rfl

theorem optionalFloat_score (key : String) {o : Option Double} (hunit : ∀ x ∈ o, x.inUnit)
    (h : valueOf (explicitTable env b) key = o.map fun x => .field (.scalar (.real x.fixed6))) :
    ∃ o', optionalFloat env.R (explicitValue b) key = .ok o' ∧
      validateOptionalScore o' = .ok () ∧ o'.map fixed6 = o.map fixed6 := by
  have hfield : field (explicitValue b) key = o.map fun x => .real x.fixed6 := by
    refine (field_table explicitTable_keys).trans ?_
    rw [h, Option.map_map]
    rfl
  unfold optionalFloat
  rw [hfield]
  cases o with
  | none => exact ⟨none, rfl, rfl, rfl⟩
  | some x =>
    cases x with
    | infinite | nan => cases hunit _ rfl
    | finite q =>
      obtain ⟨r, hread, hr, hsame⟩ := env.R.fixed6 (hunit _ rfl)
      refine ⟨some (.finite r), ?_, ?_, congrArg some hsame⟩
      · simp only [map_some, hread]
      · unfold validateOptionalScore
        rw [if_neg (by simp [hr])]

theorem inI64_toInt (t : Int64) : inI64 t.toInt := by
  exact decide_eq_true ⟨t.le_toInt, t.toInt_lt⟩

theorem map_ofInt (o : Option Int64) : (o.map fun t => t.toInt).map ofInt = o := by
  rw [Option.map_map]
  exact (congrFun (congrArg Option.map (funext fun t => Int64.ofInt_toInt t)) o).trans map_id'

theorem optionalString_metadata : optionalString (explicitValue b) "metadata" =
    some (env.writeJson b.memory.metadata) :=
  optionalString_table (o := some b.memory.metadata)
    (g := fun j => .field (quoted (env.writeJson j))) explicitTable_keys rfl fun _ => rfl

/-- What is read has the metadata that the JSON reader makes of their text. -/
theorem readExplicit_metadata {freshId : Nat → Nat} {p : CheckedPath env.N} {body : Text}
    {b' : Bundle env} (h : readExplicit env freshId p (explicitValue b) body = .ok b') :
    env.readJson (env.writeJson b.memory.metadata) = some b'.memory.metadata := by
  unfold readExplicit at h
  -- all that is read before the metadata
  iterate 23 obtain ⟨_, -, h⟩ := Fallible.bind_ok_iff.mp h
  obtain ⟨metadata, hmetadata, h⟩ := Fallible.bind_ok_iff.mp h
  obtain ⟨_, -, h⟩ := Fallible.bind_ok_iff.mp h
  obtain ⟨_, -, h⟩ := Fallible.bind_ok_iff.mp h
  obtain rfl := Except.ok.inj h
  rw [optionalString_metadata] at hmetadata
  cases hread : env.readJson (env.writeJson b.memory.metadata) with
  | none =>
    rw [optionalParsed, parsed, hread] at hmetadata
    cases hmetadata
  | some v =>
    rw [optionalParsed, parsed, hread] at hmetadata
    cases hmetadata
    rfl

/-- The reader restores it if it reads the revisions. -/
theorem readExplicit_eq (freshId : Nat → Nat) {p : CheckedPath env.N} (h : Valid env b)
    (hexact : env.Exact b.memory.metadata) (hpath : b.memory.canonicalPath = some p) :
    ∃ b', Same env b b' ∧ readExplicit env freshId p (explicitValue b) b.memory.content =
      if Readable b then .ok b' else .error .markdown := by
  obtain ⟨importance, himportance, hvalidImportance, hsameImportance⟩ :=
    optionalFloat_score "importance" h.importance rfl
  obtain ⟨confidence, hconfidence, hvalidConfidence, hsameConfidence⟩ :=
    optionalFloat_score "confidence" h.confidence rfl
  have hstr : ∀ (key : String) {t : Text},
      valueOf (explicitTable env b) key = some (.field (quoted t)) →
      requiredString (explicitValue b) key = .ok t :=
    fun _ _ hkey => requiredString_table explicitTable_keys hkey rfl
  have hkind : optionalString (explicitValue b) "kind" = b.memory.kind :=
    (optionalString_table explicitTable_keys rfl fun _ => rfl).trans map_id'
  have hrevision : requiredRevision (explicitValue b) "revision" = .ok b.memory.revision := by
    have hin : inI64 (b.memory.revision.toNat : Int) := inI64_nat.mpr h.revision.2
    have hread : requiredInteger (explicitValue b) "revision" = .ok (b.memory.revision.toNat : Int) :=
      requiredInteger_table explicitTable_keys rfl (entry_value hin)
    unfold requiredRevision
    rw [hread]
    show (if (b.memory.revision.toNat : Int) < 0 ∨ (b.memory.revision.toNat : Int) = 0 then _ else
      Except.ok (UInt64.ofNat (b.memory.revision.toNat : Int).toNat)) = _
    have hpos := h.revision.1
    rw [if_neg (by omega), Int.toNat_natCast, UInt64.ofNat_toNat]
  have hcreated : requiredInteger (explicitValue b) "created_at" = .ok b.memory.createdAt.toInt :=
    requiredInteger_table explicitTable_keys rfl (entry_value (inI64_toInt _))
  have hupdated : optionalInteger (explicitValue b) "updated_at" = .ok none := by
    unfold optionalInteger
    rw [show field (explicitValue b) "updated_at" = none from field_table explicitTable_keys]
  have hfrom : optionalInteger (explicitValue b) "valid_from" =
      .ok (b.memory.validFrom.map fun t => t.toInt) :=
    optionalInteger_table explicitTable_keys rfl fun t _ => entry_value (inI64_toInt t)
  have hto : optionalInteger (explicitValue b) "valid_to" =
      .ok (b.memory.validTo.map fun t => t.toInt) :=
    optionalInteger_table explicitTable_keys rfl fun t _ => entry_value (inI64_toInt t)
  have htags : stringList (explicitValue b) "tags" = .ok b.memory.tags :=
    stringList_table explicitTable_keys (.inl rfl)
  have hentities : stringList (explicitValue b) "entities" = .ok b.memory.entities :=
    stringList_table explicitTable_keys (.inl rfl)
  have hname : filenameId env.U p.1 = some b.memory.id := by
    obtain ⟨q, hq, hname⟩ := h.path
    rwa [some.inj (hpath.symm.trans hq)]
  have hknown : b.memory.kind.all (fun k => (MemoryType.tryFrom k).isSome) := by
    rw [Option.all_eq_true]
    intro k hk
    obtain ⟨t, rfl⟩ := h.kind k hk
    cases t <;> decide
  have hjson : optionalParsed env.readJson (some (env.writeJson b.memory.metadata)) =
      .ok (some b.memory.metadata) := by
    rw [optionalParsed, parsed, hexact]
    rfl
  have hparsed : parsed env.U.parse (env.U.text b.memory.id) = .ok b.memory.id := by
    unfold parsed
    rw [env.U.parse_text]
  have hnonempty : (!((b.sources.map (·.toProvenance)).mapIdx fun i q =>
      (⟨q, freshId i, b.memory.id, b.memory.createdAt⟩ : UnitSourceRecord env.N)).isEmpty) := by
    simpa using h.sources.1
  refine ⟨⟨{ b.memory with
      importance, confidence, canonicalPath := some p, updatedAt := b.memory.createdAt },
    (b.sources.map (·.toProvenance)).mapIdx fun i q =>
      ⟨q, freshId i, b.memory.id, b.memory.createdAt⟩⟩, ?same, ?read⟩
  case same =>
    refine ⟨rfl, rfl, rfl, hsameImportance, hsameConfidence, rfl, rfl, rfl, ⟨rfl, rfl⟩, rfl, rfl, rfl, ?_⟩
    refine ext_getElem? fun i => ?_
    simp only [List.getElem?_map, List.getElem?_mapIdx, Option.map_map]
    rfl
  case read =>
    unfold readExplicit
    rw [hstr "schema" rfl, hstr "id" rfl, hstr "origin" rfl, hkind, himportance,
      hconfidence, hrevision, hcreated, hupdated, hfrom, hto, htags, hentities, optionalString_metadata]
    simp only [bind, Except.bind, hparsed, hname, hvalidImportance, hvalidConfidence, hjson,
      map_ofInt, Int64.ofInt_toInt, parseSources_eq h, require_true (decide_eq_true h.content),
      require_true hknown, require_true (decide_eq_true h.origin), require_true h.range]
    split_ifs with hfits
    · simp only [require_true hnonempty]
      rfl
    · rfl

/-! ## What folding the scalars does -/

/-- The source with the client's breaks folded. -/
def Provenance.folded {N : Normalizer} (s : Provenance N) : Provenance N :=
  { s with
    headingPath := s.headingPath.map fold
    excerptHash := s.excerptHash.map fold
    actorId := s.actorId.map fold }

def UnitSourceRecord.folded {N : Normalizer} (s : UnitSourceRecord N) : UnitSourceRecord N :=
  ⟨s.toProvenance.folded, s.id, s.memoryId, s.createdAt⟩

def folded (b : Bundle env) : Bundle env := ⟨b.memory, b.sources.map UnitSourceRecord.folded⟩

theorem oneLine_of_breakless (hline : '\n' ∉ t) (hreturn : '\r' ∉ t) : OneLine t := by
  intro c hc
  have hne : c ≠ '\n' ∧ c ≠ '\r' := ⟨fun heq => hline (heq ▸ hc), fun heq => hreturn (heq ▸ hc)⟩
  unfold isBreak
  rw [decide_eq_false hne.1, decide_eq_false hne.2]
  rfl

theorem oneLine_of_controlFree (h : ∀ c ∈ t, isControl c = false) : OneLine t :=
  oneLine_of_breakless (fun hmem => absurd (h _ hmem) (by decide))
    fun hmem => absurd (h _ hmem) (by decide)

theorem path_oneLine (p : CheckedPath N) : OneLine p.1.text := by
  obtain ⟨segs, hroute, hp⟩ := LogicalPath.route_of_parse p.2
  rw [hp]
  refine oneLine_of_controlFree fun c hc => ?_
  rcases LogicalPath.mem_joined hc with rfl | ⟨s, hs, hc⟩
  · rfl
  · exact (hroute.segment s hs).clean c hc

theorem uuid_oneLine (U : Uuid) (id : Nat) : OneLine (U.text id) :=
  oneLine_of_breakless (fun hmem => absurd (U.hex id _ hmem) (by decide))
    fun hmem => absurd (U.hex id _ hmem) (by decide)

theorem sourceType_oneLine (h : t ∈ sourceTypes) : OneLine t := by
  have hall : ∀ t ∈ sourceTypes, OneLine t := by decide
  exact hall t h

theorem origin_oneLine (h : t ∈ origins) : OneLine t := by
  have hall : ∀ t ∈ origins, OneLine t := by decide
  exact hall t h

/-- An optional text that has no line break. -/
theorem fold_optional {α β : Type} {o : Option α} {g : α → Text} {make : Text → β} {m : β → β}
    (hmake : ∀ t, m (make t) = make (fold t)) (h : ∀ x ∈ o, OneLine (g x)) :
    (o.map fun x => make (g x)).map m = o.map fun x => make (g x) := by
  cases o with
  | none => rfl
  | some x =>
    rw [map_some, map_some, hmake, fold_eq_iff.mpr (h x rfl)]

/-- An optional value without a text. -/
theorem fold_bare {α β : Type} {o : Option α} {g : α → β} {m : β → β} (h : ∀ x, m (g x) = g x) :
    (o.map g).map m = o.map g := by
  cases o with
  | none => rfl
  | some x => exact congrArg some (h x)

theorem fold_strings {ss : List Text} (h : ∀ s ∈ ss, OneLine s) :
    (strings ss).mapText fold = .strings ss := by
  refine congrArg strings ((map_congr_left fun s hs => ?_).trans (map_id ss))
  exact fold_eq_iff.mpr (h s hs)

theorem sourceTable_fold (h : s.Checked) :
    mapTable (mapText fold) (sourceTable env s) =
      sourceTable env s.folded := by
  have hquoted : ∀ t, (quoted t).mapText fold = quoted (fold t) := fun _ => rfl
  have hsome : ∀ {o : Option Text}, (o.map quoted).map (mapText fold) =
      (o.map fold).map quoted := by
    intro o
    rw [Option.map_map, Option.map_map]
    rfl
  unfold sourceTable mapTable
  simp only [map_cons, map_nil, List.cons.injEq, Prod.mk.injEq, true_and, and_true]
  refine ⟨?type, ?id, ?path, ?revision, ?hash, ?heading, ?start, ?stop, hsome, hsome⟩
  case type =>
    show some (quoted (fold s.sourceType)) = _
    rw [fold_eq_iff.mpr (sourceType_oneLine h.sourceType)]
    rfl
  case id => exact fold_optional hquoted fun id _ => uuid_oneLine env.U id
  case path => exact fold_optional hquoted fun p _ => path_oneLine p
  case revision => exact fold_bare fun _ => rfl
  case hash => exact fold_optional hquoted h.contentHash
  case heading =>
    show (if s.headingPath.isEmpty then none else some (strings s.headingPath)).map _ =
      if (s.headingPath.map fold).isEmpty then none else
        some (strings (s.headingPath.map fold))
    cases s.headingPath with
    | nil | cons t ts => rfl
  case start => exact fold_bare fun _ => rfl
  case stop => exact fold_bare fun _ => rfl

/-- Folding reaches the texts of the sources only. -/
theorem frontMatter_fold (h : Valid env b) :
    (frontMatter env b).mapText fold = frontMatter env (folded b) := by
  have hquoted : ∀ t, (Entry.field (quoted t)).mapText fold =
      .field (quoted (fold t)) := fun _ => rfl
  have hfixed : ∀ {t : Text}, OneLine t →
      (some (Entry.field (quoted t))).map (Entry.mapText fold) =
        some (.field (quoted t)) := by
    intro t ht
    rw [map_some, hquoted, fold_eq_iff.mpr ht]
  refine (present_map _).trans (congrArg present ?_)
  unfold explicitTable mapTable
  simp only [map_cons, map_nil, List.cons.injEq, Prod.mk.injEq, true_and, and_true]
  refine ⟨hfixed (by decide), hfixed (by decide), hfixed (uuid_oneLine _ _), ?kind, fold_bare fun _ => rfl,
    fold_bare fun _ => rfl, hfixed (origin_oneLine h.origin), rfl, rfl, fold_bare fun _ => rfl,
    fold_bare fun _ => rfl, ?tags, ?entities, ?sources, hfixed (env.json_oneLine _)⟩
  case kind =>
    refine fold_optional hquoted fun k hk => ?_
    obtain ⟨t, rfl⟩ := h.kind k hk
    cases t <;> decide
  case tags => exact congrArg (fun v => some (Entry.field v)) (fold_strings h.tags)
  case entities => exact congrArg (fun v => some (Entry.field v)) (fold_strings h.entities)
  case sources =>
    refine congrArg (fun rs => some (Entry.records rs)) ?_
    show (b.sources.map fun s => present (sourceTable env s.toProvenance)).map
      (Record.mapText fold) = (b.sources.map UnitSourceRecord.folded).map
        fun s => present (sourceTable env s.toProvenance)
    rw [map_map, map_map]
    refine map_congr_left fun s hs => ?_
    exact (present_map _).trans (congrArg present (sourceTable_fold (h.checked s hs)))

theorem sourceTable_good (s : Provenance env.N) : Record.Good (present (sourceTable env s)) := by
  have hsome : ∀ {v : Field}, v.Good → ∀ w ∈ some v, w.Good := fun h _ hw => some.inj hw ▸ h
  have hmap : ∀ {α : Type} {o : Option α} {g : α → Field}, (∀ x ∈ o, (g x).Good) →
      ∀ w ∈ o.map g, w.Good := fun h => Option.forall_mem_map.mpr h
  refine YamlBlock.record_good (cons_ne_nil _ _) sourceTable_keys ?_ ?_
  · have hall : ∀ k ∈ ["source_type", "file_id", "path", "revision", "content_hash", "heading", "start_line",
        "end_line", "excerpt_hash", "actor_id"], k.toList ≠ [] ∧ k.toList.all isKeyChar := by
      decide
    exact fun k hk => ⟨(hall k hk).1, all_eq_true.mp (hall k hk).2⟩
  · unfold sourceTable
    simp only [forall_mem_cons]
    refine ⟨hsome trivial, hmap fun _ _ => trivial, hmap fun _ _ => trivial, hmap fun _ _ => trivial,
      hmap fun _ _ => trivial, ?_, hmap fun _ _ => trivial, hmap fun _ _ => trivial,
      hmap fun _ _ => trivial, hmap fun _ _ => trivial, nofun⟩
    intro v hv
    split_ifs at hv
    · cases hv
    · exact some.inj hv ▸ trivial

theorem frontMatter_wellFormed (h : Valid env b) : (frontMatter env b).WellFormed := by
  refine YamlBlock.document_wellFormed (cons_ne_nil _ _) explicitTable_keys ?_ ?_
  · have hall : ∀ k ∈ ["schema", "ownership", "id", "kind", "importance", "confidence", "origin", "revision",
        "created_at", "valid_from", "valid_to", "tags", "entities", "sources", "metadata"],
        k.toList ≠ [] ∧ k.toList.all isKeyChar := by
      decide
    exact fun k hk => ⟨(hall k hk).1, all_eq_true.mp (hall k hk).2⟩
  · have hsome : ∀ {v : Entry}, v.Good → ∀ w ∈ some v, w.Good := fun h _ hw => some.inj hw ▸ h
    have hmap : ∀ {α : Type} {o : Option α} {g : α → Entry}, (∀ x ∈ o, (g x).Good) →
        ∀ w ∈ o.map g, w.Good := fun h => Option.forall_mem_map.mpr h
    unfold explicitTable
    simp only [forall_mem_cons]
    refine ⟨hsome trivial, hsome trivial, hsome trivial, hmap fun _ _ => trivial,
      hmap fun x hx => fixed6_good (h.importance x hx), hmap fun x hx => fixed6_good (h.confidence x hx),
      hsome trivial, hsome trivial, hsome trivial, hmap fun _ _ => trivial, hmap fun _ _ => trivial,
      hsome trivial, hsome trivial, hsome ⟨?_, ?_⟩, hsome trivial, nofun⟩
    · exact fun hnil => h.sources.1 (map_eq_nil_iff.mp hnil)
    · intro r hr
      obtain ⟨s, _, rfl⟩ := mem_map.mp hr
      exact sourceTable_good s.toProvenance

/-! ## The round trip of one file -/

theorem folded_valid (h : Valid env b) : Valid env (folded b) where
  content := h.content
  kind := h.kind
  importance := h.importance
  confidence := h.confidence
  origin := h.origin
  revision := h.revision
  range := h.range
  tags := h.tags
  entities := h.entities
  path := h.path
  sources := by
    refine ⟨fun hnil => h.sources.1 (map_eq_nil_iff.mp hnil), ?_⟩
    show (b.sources.map _).length ≤ 128
    rw [length_map]
    exact h.sources.2
  checked := by
    intro s hs
    obtain ⟨s₀, hs₀, rfl⟩ := mem_map.mp hs
    exact ⟨(h.checked s₀ hs₀).sourceType, (h.checked s₀ hs₀).contentHash⟩

theorem folded_readable : Readable (folded b) ↔ Readable b := by
  constructor
  · intro h s hs
    have hmem : s.folded ∈ (folded b).sources := mem_map_of_mem hs
    exact h s.folded hmem
  · intro h s hs
    obtain ⟨s₀, hs₀, rfl⟩ := mem_map.mp hs
    exact h s₀ hs₀

theorem map_fold_iff {ts : List Text} : ts.map fold = ts ↔ ∀ t ∈ ts, OneLine t := by
  constructor
  · intro h t ht
    have hall : ts.map fold = ts.map id := h.trans (map_id ts).symm
    exact fold_eq_iff.mp (map_inj_left.mp hall t ht)
  · intro h
    exact (map_congr_left fun t ht => fold_eq_iff.mpr (h t ht)).trans (map_id ts)

theorem optional_fold_iff : o.map fold = o ↔ ∀ t ∈ o, OneLine t := by
  cases o with
  | none => exact ⟨nofun, fun _ => rfl⟩
  | some t =>
    constructor
    · intro h u hu
      exact some.inj hu ▸ fold_eq_iff.mp (some.inj h)
    · intro h
      exact congrArg some (fold_eq_iff.mpr (h t rfl))

/-- The client's texts are on one line each. -/
theorem Provenance.folded_eq_iff {s : Provenance N} : s.folded = s ↔
    (∀ h ∈ s.headingPath, OneLine h) ∧ (∀ e ∈ s.excerptHash, OneLine e) ∧
      ∀ a ∈ s.actorId, OneLine a := by
  rw [← map_fold_iff, ← optional_fold_iff, ← optional_fold_iff]
  constructor
  · intro h
    exact ⟨congrArg Provenance.headingPath h, congrArg Provenance.excerptHash h,
      congrArg Provenance.actorId h⟩
  · rintro ⟨hheading, hexcerpt, hactor⟩
    obtain ⟨_, _, _, _, _, _, _, _, _, _⟩ := s
    simp only [Provenance.folded, Provenance.mk.injEq, true_and]
    exact ⟨hheading, hexcerpt, hactor⟩

variable (env) in
/-- The rebuild reads the file as the memory. -/
def RoundTrips (b : Bundle env) : Prop := ∀ freshId : Nat → Nat, ∃ p b',
  b.memory.canonicalPath = some p ∧
    parseExplicit env freshId p (bytesOf (renderExplicit env b)) = .ok b' ∧ Same env b b'

variable (env) in
/-- Clean sources, and a file not too large. -/
structure Fits (b : Bundle env) : Prop where
  clean : ∀ s ∈ b.sources, s.toProvenance.Clean
  exact : env.Exact b.memory.metadata
  size : fileSize (frontMatter env b) b.memory.content ≤ maxExplicitBytes

theorem Fits.folded_eq (h : Fits env b) : folded b = b := by
  have hsources : b.sources.map UnitSourceRecord.folded = b.sources := by
    refine (map_congr_left fun s hs => ?_).trans (map_id b.sources)
    have hclean := h.clean s hs
    have hfold : s.toProvenance.folded = s.toProvenance :=
      Provenance.folded_eq_iff.mpr ⟨hclean.headings, hclean.excerpt, hclean.actor⟩
    unfold UnitSourceRecord.folded
    rw [hfold]
    rfl
  exact congrArg (UnitBundle.mk b.memory) hsources

theorem Fits.readable (h : Fits env b) : Readable b := fun s hs => (h.clean s hs).revision

theorem Same.trans_sources {b' : Bundle env} (h : Same env (folded b) b')
    (hsources : b'.sources.map (·.toProvenance) = b.sources.map (·.toProvenance)) :
    ∀ s ∈ b.sources, s.toProvenance.folded = s.toProvenance := by
  have hall : b.sources.map (fun s => s.toProvenance.folded) = b.sources.map (·.toProvenance) := by
    rw [← hsources, h.sources]
    show _ = (b.sources.map UnitSourceRecord.folded).map (·.toProvenance)
    rw [map_map]
    rfl
  exact fun s hs => map_inj_left.mp hall s hs

/-- **A VALID BUNDLE SURVIVES EXACTLY IF IT FITS.** -/
theorem roundTrips_iff (h : Valid env b) : RoundTrips env b ↔ Fits env b := by
  have hwell := frontMatter_wellFormed h
  constructor
  · intro htrip
    obtain ⟨p, b', hp, hparse, hsame⟩ := htrip id
    unfold parseExplicit at hparse
    rw [renderExplicit_eq] at hparse
    cases hdoc : parseDocument env.yaml (bytesOf (fileText (frontMatter env b) b.memory.content))
        maxExplicitBytes with
    | error e =>
      rw [hdoc] at hparse
      cases hparse
    | ok x =>
      obtain ⟨hsize, rfl⟩ := parseDocument_ok hwell hdoc
      rw [hdoc, frontMatter_fold h] at hparse
      have hexact : env.Exact b.memory.metadata :=
        (readExplicit_metadata (b := folded b) hparse).trans (congrArg some hsame.metadata)
      -- the reader has seen the folded sources
      obtain ⟨b₂, hfolded, hread⟩ := readExplicit_eq id (folded_valid h) hexact hp
      have hresult : (if Readable (folded b) then .ok b₂ else .error MemoryError.markdown) = Except.ok b' :=
        hread.symm.trans hparse
      split_ifs at hresult with hreadable
      obtain rfl := Except.ok.inj hresult
      have hfold := hfolded.trans_sources hsame.sources
      refine ⟨fun s hs => ?_, hexact, byteLen_fileText _ _ ▸ hsize⟩
      obtain ⟨hheading, hexcerpt, hactor⟩ := Provenance.folded_eq_iff.mp (hfold s hs)
      exact ⟨hheading, hexcerpt, hactor, folded_readable.mp hreadable s hs⟩
  · intro hfits freshId
    obtain ⟨p, hp, _⟩ := h.path
    obtain ⟨b', hsame, hread⟩ := readExplicit_eq freshId h hfits.exact hp
    have hline : (frontMatter env b).OneLine := by
      refine YamlBlock.Document.oneLine_of_fold ?_
      rw [frontMatter_fold h, hfits.folded_eq]
    refine ⟨p, b', hp, ?_, hsame⟩
    unfold parseExplicit
    rw [renderExplicit_eq, parseDocument_oneLine hwell hline ((byteLen_fileText _ _).symm ▸ hfits.size)]
    exact hread.trans (if_pos hfits.readable)

end Reading

end ExplicitMemory
