import McpVault.JsonProofs
import McpVault.PathProofs
import McpVault.SortedMapProofs

/-! # The taxonomy — reading the topic tree of a Vault

A bounded conversion makes a JSON value of the YAML text, and topics are read from it with the
identifiers seen so far.  The YAML loader is a parameter.  `parseTaxonomy_chains` is what the
index takes from this file: topics have different chains of identifiers from the top. -/

namespace KnowledgeIndex

open List
open LogicalPath (byteLen joined joined_singleton joined_cons)
open PlainText (Text isControl)
open Fallible (bind_ok_iff of_check)

inductive IndexError where
  | yaml
  | tooLarge
  | invalidInput (message : String)
  deriving DecidableEq

def maxYamlBytes : Nat := 256 * 1024

def maxYamlDepth : Nat := 16

def maxYamlNodes : Nat := 4096

/-! ## From YAML to JSON -/

inductive Yaml where
  | null
  | badValue
  | boolean (value : Bool)
  | integer (value : Int)
  | real (value : Text)
  | string (value : Text)
  | array (values : List Yaml)
  | hash (entries : List (Yaml × Yaml))
  | alias (anchor : Nat)

/-- A real stays the text that was read. -/
abbrev Json := JsonValue.Json Text Text

/-- The YAML loader, doubles, white space. -/
structure YamlEnv where
  load : Text → Option (List Yaml)
  isFinite : Text → Bool
  isWhitespace : Char → Bool

section Conversion

variable (env : YamlEnv)

/-- `Map::insert`. -/
def insertKey (key : Text) (value : Json) (object : List (Text × Json)) : List (Text × Json) :=
  SortedMap.upsert key value (fun _ => value) object

mutual

/-- `yaml_to_json`, counting nodes. -/
def yamlToJson (depth : Nat) : Yaml → Nat → Except IndexError (Json × Nat)
  | yaml, nodes =>
    if maxYamlDepth < depth ∨ maxYamlNodes ≤ nodes then .error .yaml
    else
      match yaml with
      | .null | .badValue => .ok (.null, nodes + 1)
      | .boolean value => .ok (.boolean value, nodes + 1)
      | .integer value => .ok (.number (.integer value), nodes + 1)
      | .real value =>
        if env.isFinite value then .ok (.number (.double value), nodes + 1) else .error .yaml
      | .string value =>
        if maxYamlBytes < byteLen value then .error .yaml
        else .ok (.string value, nodes + 1)
      | .array values => do
        let read ← yamlToJsonList (depth + 1) values (nodes + 1)
        .ok (.array read.1, read.2)
      | .hash entries => do
        let read ← yamlToJsonEntries (depth + 1) entries [] (nodes + 1)
        .ok (.object read.1, read.2)
      | .alias _ => .error .yaml

def yamlToJsonList (depth : Nat) : List Yaml → Nat → Except IndexError (List Json × Nat)
  | [], nodes => .ok ([], nodes)
  | yaml :: rest, nodes => do
    let value ← yamlToJson depth yaml nodes
    let values ← yamlToJsonList depth rest value.2
    .ok (value.1 :: values.1, values.2)

/-- A key that is not a string drops its entry. -/
def yamlToJsonEntries (depth : Nat) : List (Yaml × Yaml) → List (Text × Json) → Nat →
    Except IndexError (List (Text × Json) × Nat)
  | [], object, nodes => .ok (object, nodes)
  | (key, yaml) :: rest, object, nodes => do
    let name ← yamlToJson depth key nodes
    match name.1 with
    | .string text => do
      let value ← yamlToJson depth yaml name.2
      yamlToJsonEntries depth rest (insertKey text value.1 object) value.2
    | _ => yamlToJsonEntries depth rest object name.2

end

/-! ## Topics -/

structure Topic where
  (id title : Text)
  description : Option Text
  (includes excludes pinned aliases : List Text)
  children : List Topic

def trim (t : Text) : Text :=
  ((t.dropWhile env.isWhitespace).reverse.dropWhile env.isWhitespace).reverse

/-- Trimmed, with hyphens for blanks. -/
def normalizeTopicId (value : Text) : Except IndexError Text :=
  let value := trim env value
  let normalized := value.map fun c => if env.isWhitespace c then '-' else c
  if value = [] ∨ 128 < byteLen value ∨ value.any isControl then
    .error (.invalidInput "taxonomy topic id is invalid")
  else if normalized = ['.'] ∨ ['.', '.'] <:+: normalized then
    .error (.invalidInput "taxonomy topic id is invalid")
  else .ok normalized

def validateTaxonomyText (field : String) (value : Text) : Except IndexError Unit :=
  if value = [] ∨ maxYamlBytes < byteLen value ∨ value.any isControl then
    .error (.invalidInput field)
  else .ok ()

def textValue (field : String) (value : Json) : Except IndexError Text :=
  value.asStr.elim (.error (.invalidInput field)) .ok

def taxonomyTextList (value : Option Json) (field : String) : Except IndexError (List Text) := do
  let values ← match value with
    | none => .ok []
    | some (.string value) => .ok [value]
    | some (.array values) => values.mapM (textValue field)
    | some _ => .error (.invalidInput field)
  values.forM (validateTaxonomyText field)
  .ok values

def unsafeGlob (pattern : Text) : Bool :=
  decide (pattern.head? = some '/' ∨ '\\' ∈ pattern ∨ Char.ofNat 0 ∈ pattern ∨
    ['.', '.'] ∈ pattern.splitOn '/')

def taxonomyPatterns (value : Option Json) : Except IndexError (List Text) := do
  let values ← taxonomyTextList value "taxonomy glob"
  if values.any unsafeGlob then .error (.invalidInput "taxonomy glob is unsafe") else .ok values

/-- `map.get`. -/
def field (map : List (Text × Json)) (name : String) : Option Json := map.lookup name.toList

/-- The first of three fields, if a string. -/
def explicitId (map : List (Text × Json)) : Option Text :=
  ((field map "id").or ((field map "slug").or (field map "title"))).bind JsonValue.Json.asStr

/-- The topic without its children. -/
def topicFields (map : List (Text × Json)) (hint : Option Text) (seen : List Text) :
    Except IndexError Topic := do
  let name ← (hint.or (explicitId map)).elim
    (.error (.invalidInput "taxonomy topic needs an id or title")) .ok
  let id ← normalizeTopicId env name
  if id ∈ seen then .error (.invalidInput "taxonomy topic ids must be unique") else do
  let title := ((field map "title").bind JsonValue.Json.asStr).getD id
  validateTaxonomyText "taxonomy topic title" title
  let description := (field map "description").bind JsonValue.Json.asStr
  description.elim (.ok ()) (validateTaxonomyText "taxonomy topic description")
  let includes ← taxonomyPatterns (field map "include")
  let excludes ← taxonomyPatterns (field map "exclude")
  let pinned ← taxonomyPatterns (field map "pinned")
  let aliases ← taxonomyTextList (field map "aliases") "taxonomy aliases"
  .ok ⟨id, title, description, includes, excludes, pinned, aliases, []⟩

/-- Topics read, and the identifiers seen. -/
abbrev TopicReader := List Text → Except IndexError (List Topic × List Text)

def childTopics (readers : List (Text × TopicReader)) : TopicReader := fun seen =>
  ((readers.lookup "topics".toList).or (readers.lookup "children".toList)).elim
    (.ok ([], seen)) fun read => read seen

mutual

def parseTopicCollection : Json → Option Text → TopicReader
  | .array values, hint, seen => parseTopicList values hint seen
  | .object entries, _, seen => parseTopicEntries entries seen
  | _, _, _ => .error (.invalidInput "taxonomy topics must be a list or mapping")

def parseTopicList : List Json → Option Text → TopicReader
  | [], _, seen => .ok ([], seen)
  | value :: rest, hint, seen => do
    let topic ← parseTopic value hint seen
    let topics ← parseTopicList rest hint topic.2
    .ok (topic.1 :: topics.1, topics.2)

def parseTopicEntries : List (Text × Json) → TopicReader
  | [], seen => .ok ([], seen)
  | (key, value) :: rest, seen => do
    let topic ← parseTopic value (some key) seen
    let topics ← parseTopicEntries rest topic.2
    .ok (topic.1 :: topics.1, topics.2)

/-- One topic and those below it. -/
def parseTopic : Json → Option Text → List Text → Except IndexError (Topic × List Text)
  | .object map, hint, seen => do
    let topic ← topicFields env map hint seen
    -- every field has its reader, and the one of `topics` or `children` is run
    let children ← childTopics (topicReaders map) (topic.id :: seen)
    .ok ({ topic with children := children.1 }, children.2)
  | _, _, _ => .error (.invalidInput "taxonomy topic must be a mapping")

def topicReaders : List (Text × Json) → List (Text × TopicReader)
  | [] => []
  | (key, value) :: rest => (key, parseTopicCollection value none) :: topicReaders rest

end

/-- The topics of the converted document. -/
def documentTopics : Json → Except IndexError (List Topic)
  | .object root =>
    (field root "topics").elim (.ok []) fun value => do
      let read ← parseTopicCollection env value none []
      .ok read.1
  | _ => .error (.invalidInput "taxonomy root must be a mapping")

/-- `parse_taxonomy`: one document at most. -/
def parseTaxonomy (source : Text) : Except IndexError (List Topic) :=
  if maxYamlBytes < byteLen source then .error .tooLarge
  else
    match env.load source with
    | none => .error .yaml
    | some documents =>
      if 1 < documents.length then
        .error (.invalidInput "taxonomy must contain exactly one YAML document")
      else
        match documents with
        | [] => .ok []
        | document :: _ => do
          let value ← yamlToJson env 0 document 0
          documentTopics env value.1

end Conversion

/-! ## Identifiers and chains -/

mutual

/-- The identifiers of a topic and below. -/
def Topic.ids : Topic → List Text
  | ⟨id, _, _, _, _, _, _, children⟩ => id :: forestIds children

def forestIds : List Topic → List Text
  | [] => []
  | topic :: rest => topic.ids ++ forestIds rest

end

mutual

/-- Identifiers from a topic down to each below. -/
def Topic.chains : Topic → List (List Text)
  | ⟨id, _, _, _, _, _, _, children⟩ => [id] :: (chains children).map (id :: ·)

/-- The chains of identifiers from the top to each topic. -/
def chains : List Topic → List (List Text)
  | [] => []
  | topic :: rest => topic.chains ++ chains rest

end

/-- A topic goes with those below and after it. -/
@[elab_as_elim]
theorem forest_induction {motive : List Topic → Prop} (nil : motive [])
    (cons : ∀ id title description includes excludes pinned aliases children rest,
      motive children → motive rest →
        motive (⟨id, title, description, includes, excludes, pinned, aliases, children⟩ :: rest)) :
    ∀ topics, motive topics
  | [] => nil
  | ⟨_, _, _, _, _, _, _, children⟩ :: rest =>
    cons _ _ _ _ _ _ _ _ _ (forest_induction nil cons children) (forest_induction nil cons rest)

theorem chains_ne_nil (topics : List Topic) : ∀ c ∈ chains topics, c ≠ [] := by
  induction topics using forest_induction with
  | nil => exact nofun
  | cons id _ _ _ _ _ _ children rest _ hrest =>
    intro c hc
    rw [chains, Topic.chains, mem_append, mem_cons] at hc
    rcases hc with (rfl | hc) | hc
    · exact cons_ne_nil _ _
    · obtain ⟨d, -, rfl⟩ := mem_map.mp hc
      exact cons_ne_nil _ _
    · exact hrest c hc

theorem map_getLast?_cons (id : Text) {cs : List (List Text)} (h : ∀ c ∈ cs, c ≠ []) :
    (cs.map (id :: ·)).map List.getLast? = cs.map List.getLast? := by
  rw [map_map]
  refine map_congr_left fun c hc => ?_
  show (id :: c).getLast? = c.getLast?
  rw [List.getLast?_cons, List.getLast?_eq_some_getLast (h c hc)]
  rfl

/-- Each chain ends in the identifier of its topic. -/
theorem chains_last (topics : List Topic) :
    (chains topics).map List.getLast? = (forestIds topics).map some := by
  induction topics using forest_induction with
  | nil => rfl
  | cons id _ _ _ _ _ _ children rest hchildren hrest =>
    rw [chains, forestIds, map_append, map_append, hrest, Topic.chains, Topic.ids, map_cons,
      map_cons, map_getLast?_cons id (chains_ne_nil children), hchildren]
    rfl

/-- Where no identifier is given twice, no chain is. -/
theorem chains_nodup {topics : List Topic} (h : (forestIds topics).Nodup) :
    (chains topics).Nodup := by
  refine List.Nodup.of_map List.getLast? ?_
  rw [chains_last]
  exact h.map fun _ _ heq => Option.some.inj heq

/-! ## What the parser has seen -/

section Seen

variable {env : YamlEnv} {map : List (Text × Json)} {hint : Option Text} {seen after : List Text}
  {topic : Topic} {topics : List Topic}

theorem topicFields_ok (h : topicFields env map hint seen = .ok topic) :
    topic.id ∉ seen ∧ topic.children = [] := by
  obtain ⟨name, -, h⟩ := bind_ok_iff.mp h
  obtain ⟨id, -, h⟩ := bind_ok_iff.mp h
  obtain ⟨hfresh, h⟩ := of_check h
  simp only [bind_ok_iff] at h
  obtain ⟨_, -, _, -, _, -, _, -, _, -, _, -, h⟩ := h
  cases h
  exact ⟨hfresh, rfl⟩

/-- The identifiers of the topics are new, each once. -/
def Sees (ids seen after : List Text) : Prop :=
  after.Perm (ids ++ seen) ∧ (seen.Nodup → after.Nodup)

theorem Sees.nil : Sees [] seen seen := ⟨List.Perm.refl _, id⟩

theorem Sees.append {ids more middle : List Text} (h : Sees ids seen middle)
    (hmore : Sees more middle after) : Sees (ids ++ more) seen after := by
  refine ⟨?_, fun hseen => hmore.2 (h.2 hseen)⟩
  refine (hmore.1.trans (h.1.append_left more)).trans ?_
  rw [← append_assoc]
  exact perm_append_comm.append_right seen

theorem Sees.single {id : Text} (h : id ∉ seen) : Sees [id] seen (id :: seen) :=
  ⟨List.Perm.refl _, fun hseen => nodup_cons.mpr ⟨h, hseen⟩⟩

/-- A reader that sees what it reads. -/
def Honest (read : TopicReader) : Prop :=
  ∀ seen topics after, read seen = .ok (topics, after) → Sees (forestIds topics) seen after

theorem childTopics_honest {readers : List (Text × TopicReader)}
    (h : ∀ r ∈ readers, Honest r.2) : Honest (childTopics readers) := by
  intro seen topics after hread
  unfold childTopics at hread
  cases hfound : (readers.lookup "topics".toList).or (readers.lookup "children".toList) with
  | none =>
    rw [hfound] at hread
    cases hread
    exact Sees.nil
  | some read =>
    rw [hfound] at hread
    obtain ⟨key, hl⟩ : ∃ key, readers.lookup key = some read :=
      (Option.or_eq_some_iff.mp hfound).elim (fun hl => ⟨_, hl⟩) fun hl => ⟨_, hl.2⟩
    obtain ⟨before, rest, rfl, -⟩ := lookup_eq_some_iff.mp hl
    exact h (key, read) (mem_append_right _ mem_cons_self) seen topics after hread

mutual

theorem parseTopicCollection_honest (env : YamlEnv) :
    ∀ (value : Json) (hint : Option Text), Honest (parseTopicCollection env value hint)
  | .array values, hint => by
    intro seen topics after h
    exact parseTopicList_honest env values hint seen topics after h
  | .object entries, _ => by
    intro seen topics after h
    exact parseTopicEntries_honest env entries seen topics after h
  | .null, _ | .boolean _, _ | .number _, _ | .string _, _ => by
    intro seen topics after h
    cases h

theorem parseTopicList_honest (env : YamlEnv) :
    ∀ (values : List Json) (hint : Option Text), Honest (parseTopicList env values hint)
  | [], _ => by
    intro seen topics after h
    cases h
    exact Sees.nil
  | value :: rest, hint => by
    intro seen topics after h
    rw [parseTopicList] at h
    simp only [bind_ok_iff] at h
    obtain ⟨topic, htopic, more, hmore, h⟩ := h
    cases h
    exact (parseTopic_sees env value hint htopic).append
      (parseTopicList_honest env rest hint _ _ _ hmore)

theorem parseTopicEntries_honest (env : YamlEnv) :
    ∀ entries : List (Text × Json), Honest (parseTopicEntries env entries)
  | [] => by
    intro seen topics after h
    cases h
    exact Sees.nil
  | (key, value) :: rest => by
    intro seen topics after h
    rw [parseTopicEntries] at h
    simp only [bind_ok_iff] at h
    obtain ⟨topic, htopic, more, hmore, h⟩ := h
    cases h
    exact (parseTopic_sees env value (some key) htopic).append
      (parseTopicEntries_honest env rest _ _ _ hmore)

theorem parseTopic_sees (env : YamlEnv) : ∀ (value : Json) (hint : Option Text)
    {seen : List Text} {read : Topic × List Text},
    parseTopic env value hint seen = .ok read → Sees read.1.ids seen read.2
  | .object map, hint, seen, read, h => by
    rw [parseTopic] at h
    simp only [bind_ok_iff] at h
    obtain ⟨topic, htopic, children, hchildren, h⟩ := h
    cases h
    have hbelow := childTopics_honest (topicReaders_honest env map) _ _ _ hchildren
    exact (Sees.single (topicFields_ok htopic).1).append hbelow
  | .null, _, _, _, h | .boolean _, _, _, _, h | .number _, _, _, _, h | .string _, _, _, _, h
  | .array _, _, _, _, h => nomatch h

theorem topicReaders_honest (env : YamlEnv) :
    ∀ (map : List (Text × Json)), ∀ r ∈ topicReaders env map, Honest r.2
  | [] => by
    intro r hr
    cases hr
  | (key, value) :: rest => by
    intro r hr
    rw [topicReaders, mem_cons] at hr
    rcases hr with rfl | hr
    · exact parseTopicCollection_honest env value none
    · exact topicReaders_honest env rest r hr

end

theorem documentTopics_ids {value : Json} (h : documentTopics env value = .ok topics) :
    (forestIds topics).Nodup := by
  cases value with
  | object root =>
    rw [documentTopics] at h
    cases hfield : field root "topics" with
    | none =>
      rw [hfield] at h
      cases h
      exact nodup_nil
    | some value =>
      rw [hfield] at h
      obtain ⟨read, hread, h⟩ := bind_ok_iff.mp h
      cases h
      obtain ⟨hperm, hnodup⟩ := parseTopicCollection_honest env value none _ _ _ hread
      rw [append_nil] at hperm
      exact hperm.nodup_iff.mp (hnodup nodup_nil)
  | null | boolean | number | string | array => cases h

/-- No two accepted topics have one chain. -/
theorem parseTaxonomy_chains {source : Text} (h : parseTaxonomy env source = .ok topics) :
    (chains topics).Nodup := by
  obtain ⟨-, h⟩ := of_check h
  cases hload : env.load source with
  | none =>
    rw [hload] at h
    cases h
  | some documents =>
    rw [hload] at h
    obtain ⟨-, h⟩ := of_check h
    cases documents with
    | nil =>
      cases h
      exact nodup_nil
    | cons document rest =>
      obtain ⟨value, -, h⟩ := bind_ok_iff.mp h
      exact chains_nodup (documentTopics_ids h)

end Seen

end KnowledgeIndex
