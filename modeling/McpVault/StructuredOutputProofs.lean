import McpVault.FallibleProofs
import McpVault.JsonProofs
import McpVault.SortedMapProofs

/-! # Structured output — what a schema accepts

The validator looks at some keywords of a schema only beside another one. For schemas that give
both it decides the meaning of all keywords. -/

namespace StructuredOutput

open List Fallible
open JsonValue (Json)

/-- `serde_json::Value`. -/
abbrev Value := Json String ℚ

/-- The schema is closed: other members are refused. -/
def Value.isClosed (schema : Value) : Bool :=
  schema.get "additionalProperties" matches some (.boolean false)

/-! ## The validator -/

structure SchemaError where
  (issue path : String)
  deriving DecidableEq

def valueMatchesSchemaType (value : Value) : String → Bool
  | "object" => (value matches .object _)
  | "array" => (value matches .array _)
  | "string" => (value matches .string _)
  | "number" => (value matches .number _)
  | "integer" => (value matches .number (.integer _))
  | "boolean" => (value matches .boolean _)
  | "null" => (value matches .null)
  | _ => false

def schemaTypeMatches (value : Value) : Value → Bool
  | .string schemaType => valueMatchesSchemaType value schemaType
  | .array types => !types.isEmpty && types.all (·.asStr.isSome) &&
      types.any fun schemaType => schemaType.asStr.any (valueMatchesSchemaType value)
  | _ => false

/-- Fail where a check found something. -/
def check (bad : Bool) (issue path : String) : Except SchemaError Unit :=
  if bad then .error ⟨issue, path⟩ else .ok ()

/-- The keywords that the validator knows. -/
def validateJsonSchemaAt (value schema : Value) (path : String) : Except SchemaError Unit := do
  check ((schema.get "type").any (!schemaTypeMatches value ·)) "type_mismatch" path
  check ((schema.getArray "enum").any (value ∉ ·)) "enum_mismatch" path
  (match schema.getObject "properties", value.asObject with
  | some properties, some object => do
    ((schema.getArray "required").getD []).forM fun key =>
      match key.asStr with
      | none => .error ⟨"schema_invalid", path⟩
      | some key => check (object.lookup key).isNone "required_property_missing" s!"{path}.{key}"
    check (schema.isClosed && object.any fun m => (properties.lookup m.1).isNone)
      "unexpected_property" path
    properties.forM fun p =>
      match h : value.get p.1 with
      | none => .ok ()
      | some child => validateJsonSchemaAt child p.2 s!"{path}.{p.1}"
  | _, _ => .ok ())
  (match schema.get "items", h : value.asArray with
  | some items, some array => do
    check ((schema.getU64 "maxItems").any (· < array.length)) "array_too_long" path
    check ((schema.getU64 "minItems").any (array.length < ·)) "array_too_short" path
    (finRange array.length).forM fun i => validateJsonSchemaAt array[i] items s!"{path}[{i}]"
  | _, _ => .ok ())
termination_by sizeOf value
decreasing_by
  · exact Json.sizeOf_get h
  · exact Json.sizeOf_item h (getElem_mem i.2)

def validateJsonSchema (value schema : Value) : Except SchemaError Unit :=
  validateJsonSchemaAt value schema "$"

/-! ## The meaning of a schema -/

/-- The types a value has. -/
def Value.types : Value → List String
  | .null => ["null"]
  | .boolean _ => ["boolean"]
  | .number (.integer _) => ["number", "integer"]
  | .number (.double _) => ["number"]
  | .string _ => ["string"]
  | .array _ => ["array"]
  | .object _ => ["object"]

/-- Each keyword speaks for itself. -/
@[mk_iff]
inductive Satisfies : Value → Value → Prop
  | intro {value schema : Value}
    (type : ∀ t ∈ schema.get "type", ∃ name ∈ value.types,
      t = .string name ∨ ∃ ts ∈ t.asArray, .string name ∈ ts)
    (enum : ∀ es ∈ schema.getArray "enum", value ∈ es)
    (object : ∀ ms ∈ value.asObject,
      (∀ ks ∈ schema.getArray "required", ∀ k, .string k ∈ ks → (ms.lookup k).isSome) ∧
      (schema.isClosed → ∀ m ∈ ms, (((schema.getObject "properties").getD []).lookup m.1).isSome))
    (array : ∀ vs ∈ value.asArray, (∀ n ∈ schema.getU64 "maxItems", vs.length ≤ n) ∧
      ∀ n ∈ schema.getU64 "minItems", n ≤ vs.length)
    (properties : ∀ ps ∈ schema.getObject "properties", ∀ p ∈ ps, ∀ v ∈ value.get p.1,
      Satisfies v p.2)
    (items : ∀ s ∈ schema.get "items", ∀ vs ∈ value.asArray, ∀ v ∈ vs, Satisfies v s) :
    Satisfies value schema

/-- Names are strings; keywords stand together. -/
inductive Guarded : Value → Prop
  | intro {schema : Value}
    (names : ∀ key ∈ ["type", "required"], ∀ ts ∈ schema.getArray key, ∃ ns, ts = map Json.string ns)
    (object : schema.getObject "properties" = none →
      schema.getArray "required" = none ∧ schema.isClosed = false)
    (array : schema.get "items" = none →
      schema.getU64 "maxItems" = none ∧ schema.getU64 "minItems" = none)
    (properties : ∀ ps ∈ schema.getObject "properties", ∀ p ∈ ps, Guarded p.2)
    (items : ∀ s ∈ schema.get "items", Guarded s) : Guarded schema

section Meaning

variable {value schema : Value}

theorem check_ok_iff {bad : Bool} {issue path : String} :
    check bad issue path = .ok () ↔ bad = false := by
  cases bad <;> simp [check]

theorem seq_ok_iff {x y : Except SchemaError Unit} :
    (x >>= fun _ => y) = .ok () ↔ x = .ok () ∧ y = .ok () :=
  bind_ok_iff.trans ⟨fun ⟨_, h⟩ => h, fun h => ⟨(), h⟩⟩

/-- What the validator looks at. -/
theorem validateJsonSchemaAt_ok_iff {path : String} :
    validateJsonSchemaAt value schema path = .ok () ↔
      (∀ t ∈ schema.get "type", schemaTypeMatches value t) ∧
      (∀ es ∈ schema.getArray "enum", value ∈ es) ∧
      (∀ ps ∈ schema.getObject "properties", ∀ ms ∈ value.asObject,
        (∀ ks ∈ schema.getArray "required",
          ∀ k ∈ ks, ∃ name, k = .string name ∧ (ms.lookup name).isSome) ∧
        (schema.isClosed → ∀ m ∈ ms, (ps.lookup m.1).isSome) ∧
        ∀ p ∈ ps, ∀ v ∈ value.get p.1, validateJsonSchemaAt v p.2 s!"{path}.{p.1}" = .ok ()) ∧
      ∀ s ∈ schema.get "items", ∀ vs ∈ value.asArray,
        (∀ n ∈ schema.getU64 "maxItems", vs.length ≤ n) ∧
        (∀ n ∈ schema.getU64 "minItems", n ≤ vs.length) ∧
        ∀ i : Fin vs.length, validateJsonSchemaAt (vs.get i) s s!"{path}[{i}]" = .ok () := by
  rw [validateJsonSchemaAt]
  simp only [seq_ok_iff, check_ok_iff]
  refine and_congr ?_ (and_congr ?_ (and_congr ?_ ?_))
  · cases schema.get "type" <;> simp
  · cases schema.getArray "enum" <;> simp
  · cases schema.getObject "properties" with
    | none => simp
    | some ps =>
      cases value.asObject with
      | none => simp
      | some ms =>
        simp only [seq_ok_iff, check_ok_iff, forM_ok_iff, Option.mem_some_iff, forall_eq']
        refine and_congr ?_ (and_congr (by simp) (forall₂_congr fun p _ => ?_))
        · cases schema.getArray "required" with
          | none => simp
          | some ks =>
            simp only [Option.mem_some_iff, forall_eq']
            refine forall₂_congr fun k _ => ?_
            cases k <;> simp [Json.asStr, check_ok_iff]
        · split <;> simp_all
  · split
    next s vs hs hvs =>
      simp only [hs, hvs, seq_ok_iff, check_ok_iff, forM_ok_iff, Option.mem_some_iff, forall_eq']
      refine and_congr ?_ (and_congr ?_ (by simp))
      · cases schema.getU64 "maxItems" <;> simp
      · cases schema.getU64 "minItems" <;> simp
    next h => exact ⟨fun _ s hs vs hvs => (h s vs hs hvs).elim, fun _ => rfl⟩

theorem valueMatchesSchemaType_iff {name : String} :
    valueMatchesSchemaType value name ↔ name ∈ value.types := by
  unfold valueMatchesSchemaType
  rcases value with - | - | (i | q) | - | - | - <;>
  · rw [Value.types]
    split <;> simp_all

theorem schemaTypeMatches_iff {t : Value} (hnames : ∀ ts ∈ t.asArray, ∃ ns, ts = map Json.string ns) :
    schemaTypeMatches value t ↔ ∃ name ∈ value.types,
      t = .string name ∨ ∃ ts ∈ t.asArray, .string name ∈ ts := by
  cases t with
  | array ts =>
    obtain ⟨ns, rfl⟩ := hnames ts rfl
    have hne : ∀ name ∈ ns, name ∈ value.types → ns ≠ [] := fun _ h _ => ne_nil_of_mem h
    simpa [schemaTypeMatches, valueMatchesSchemaType_iff, Json.asStr, Json.asArray, and_comm] using hne
  | _ => simp [schemaTypeMatches, valueMatchesSchemaType_iff, Json.asArray]

/-- With both keywords, the validator decides. -/
theorem validateJsonSchemaAt_iff {value schema : Value} {path : String} (hguarded : Guarded schema) :
    validateJsonSchemaAt value schema path = .ok () ↔ Satisfies value schema := by
  obtain ⟨names, object, array, properties, items⟩ := hguarded
  have htype : ∀ t ∈ schema.get "type", (schemaTypeMatches value t ↔ _) := fun t ht =>
    schemaTypeMatches_iff fun ts hts => names _ mem_cons_self ts (Option.bind_eq_some_iff.mpr ⟨t, ht, hts⟩)
  have hproperty : ∀ ps ∈ schema.getObject "properties", ∀ p ∈ ps, ∀ v ∈ value.get p.1, ∀ path,
      (validateJsonSchemaAt v p.2 path = .ok () ↔ Satisfies v p.2) := by
    intro ps hps p hp v hv path
    have hlt := Json.sizeOf_get hv
    exact validateJsonSchemaAt_iff (properties ps hps p hp)
  have hitem : ∀ s ∈ schema.get "items", ∀ vs ∈ value.asArray, ∀ v ∈ vs, ∀ path,
      (validateJsonSchemaAt v s path = .ok () ↔ Satisfies v s) := by
    intro s hs vs hvs v hv path
    have hlt := Json.sizeOf_item hvs hv
    exact validateJsonSchemaAt_iff (items s hs)
  rw [validateJsonSchemaAt_ok_iff, satisfies_iff]
  refine and_congr (forall₂_congr htype) (and_congr_right fun _ => ?_)
  constructor
  · rintro ⟨hobject, harray⟩
    refine ⟨fun ms hms => ?_, fun vs hvs => ?_, ?_, ?_⟩
    · cases hps : schema.getObject "properties" with
      | none => simp [object hps]
      | some ps =>
        obtain ⟨hrequired, hclosed, -⟩ := hobject ps hps ms hms
        refine ⟨fun ks hks k hk => ?_, hclosed⟩
        obtain ⟨name, heq, h⟩ := hrequired ks hks _ hk
        rwa [Json.string.inj heq]
    · cases hs : schema.get "items" with
      | none => simp [array hs]
      | some s => exact ⟨(harray s hs vs hvs).1, (harray s hs vs hvs).2.1⟩
    · intro ps hps p hp v hv
      obtain ⟨ms, hms⟩ : ∃ ms, value.asObject = some ms := by
        cases value with
        | object ms => exact ⟨ms, rfl⟩
        | _ => cases hv
      exact (hproperty ps hps p hp v hv _).mp ((hobject ps hps ms hms).2.2 p hp v hv)
    · intro s hs vs hvs v hv
      obtain ⟨i, hi, rfl⟩ := getElem_of_mem hv
      exact (hitem s hs vs hvs _ hv _).mp ((harray s hs vs hvs).2.2 ⟨i, hi⟩)
  · rintro ⟨hobject, harray, hproperties, hitems⟩
    constructor
    · intro ps hps ms hms
      obtain ⟨hrequired, hclosed⟩ := hobject ms hms
      rw [hps] at hclosed
      refine ⟨?_, hclosed, fun p hp v hv =>
        (hproperty ps hps p hp v hv _).mpr (hproperties ps hps p hp v hv)⟩
      intro ks hks k hk
      obtain ⟨ns, rfl⟩ := names _ (by simp) ks hks
      obtain ⟨name, -, rfl⟩ := mem_map.mp hk
      exact ⟨name, rfl, hrequired _ hks name hk⟩
    · intro s hs vs hvs
      exact ⟨(harray vs hvs).1, (harray vs hvs).2, fun i =>
        (hitem s hs vs hvs _ (getElem_mem i.2) _).mpr (hitems s hs vs hvs _ (getElem_mem i.2))⟩
termination_by sizeOf value

/-- **THE VALIDATOR DECIDES** where it looks at all keywords. -/
theorem validateJsonSchema_iff (hguarded : Guarded schema) :
    validateJsonSchema value schema = .ok () ↔ Satisfies value schema :=
  validateJsonSchemaAt_iff hguarded

end Meaning

/-- At most one text or null. -/
def bounded : Value := .object [("items", .object [("type", .array [.string "string", .string "null"])]),
  ("maxItems", .number (.integer 1)), ("type", .string "array")]

theorem validateJsonSchema_iff_bounded : Guarded bounded ∧
    (validateJsonSchema (.array [.null]) bounded = .ok () ↔ Satisfies (.array [.null]) bounded) := by
  have hitems : Guarded (.object [("type", .array [.string "string", .string "null"])]) := by
    refine ⟨?_, fun _ => ⟨rfl, rfl⟩, fun _ => ⟨rfl, rfl⟩, nofun, nofun⟩
    simp only [forall_mem_cons]
    refine ⟨?_, nofun, nofun⟩
    rintro _ ⟨⟩
    exact ⟨["string", "null"], rfl⟩
  have hguarded : Guarded bounded := by
    refine ⟨?_, fun _ => ⟨rfl, rfl⟩, nofun, nofun, ?_⟩
    · simp only [forall_mem_cons]
      exact ⟨nofun, nofun, nofun⟩
    · rintro _ ⟨⟩
      exact hitems
  exact ⟨hguarded, validateJsonSchema_iff hguarded⟩

/-- Without `properties` no key is required. -/
theorem required_alone_unread :
    validateJsonSchema (.object []) (.object [("required", .array [.string "a"])]) = .ok () ∧
      ¬ Satisfies (.object []) (.object [("required", .array [.string "a"])]) := by
  constructor
  · decide +kernel
  · rintro ⟨-, -, object, -, -, -⟩
    cases (object [] rfl).1 _ rfl "a" mem_cons_self

/-! ## Repairs -/

structure MissingRequiredStringFallback where
  (target source : String)

/-- A missing text is copied from another. -/
def normalizeMissingRequiredString (properties : List (String × Value)) (required : List Value)
    (object : List (String × Value)) (fallback : MissingRequiredStringFallback) :
    List (String × Value) :=
  let isString key := (properties.lookup key).bind (·.getStr "type") == some "string"
  if (object.lookup fallback.target).isSome ∨ .string fallback.target ∉ required ∨
      .string fallback.source ∉ required ∨ !isString fallback.target ∨ !isString fallback.source then
    object
  else
    match (object.lookup fallback.source).bind Json.asStr with
    | none => object
    | some source => SortedMap.upsert fallback.target (.string source) (fun _ => .string source) object

/-- A new member is required and copies a text. -/
structure Completed (required : List Value) (ms ms' : List (String × Value)) : Prop where
  kept : ∀ e ∈ ms, e ∈ ms'
  added : ∀ e ∈ ms', e ∈ ms ∨ e.1 ∉ ms.map (·.1) ∧ .string e.1 ∈ required ∧
    ∃ source text, source ≠ e.1 ∧ e.2 = .string text ∧ (source, .string text) ∈ ms'

section Repairs

variable {value schema : Value} {properties ms ms' : List (String × Value)} {required : List Value}
  {fallbacks : List MissingRequiredStringFallback} {key : String} {item : Value}

theorem Completed.step (h : Completed required ms ms') (f : MissingRequiredStringFallback) :
    Completed required ms (normalizeMissingRequiredString properties required ms' f) := by
  rw [normalizeMissingRequiredString]
  split_ifs with hskip
  · exact h
  split
  · exact h
  next text htext =>
    obtain ⟨v, hv, hstr⟩ := Option.bind_eq_some_iff.mp htext
    obtain rfl : v = .string text := by cases v <;> cases hstr; rfl
    obtain ⟨l, r, heq, -⟩ := lookup_eq_some_iff.mp hv
    have hsource : (f.source, Json.string text) ∈ ms' := by simp [heq]
    simp only [not_or, not_not, Option.not_isSome_iff_eq_none] at hskip
    have habsent : ∀ e ∈ ms', e.1 ≠ f.target := fun e he =>
      Ne.symm (bne_iff_ne.mp (lookup_eq_none_iff.mp hskip.1 e he))
    have hkept : ∀ e ∈ ms', e ∈ SortedMap.upsert f.target (.string text) (fun _ => .string text) ms' :=
      fun e he => (SortedMap.mem_upsert_of_mem he).resolve_right fun h => habsent e he h.1
    have hnew : f.target ∉ ms.map (·.1) := by
      intro hmem
      obtain ⟨e, he, hkey⟩ := mem_map.mp hmem
      exact habsent e (h.kept e he) hkey
    refine ⟨fun e he => hkept e (h.kept e he), fun e he => ?_⟩
    rcases SortedMap.forall_upsert (P := fun e => e ∈ ms' ∨ e = (f.target, .string text))
      (.inr rfl) (fun _ _ => .inr rfl) (fun _ h => .inl h) e he with he | rfl
    · refine (h.added e he).imp_right fun ⟨hnew, hreq, source, text, hne, htext, hmem⟩ => ?_
      exact ⟨hnew, hreq, source, text, hne, htext, hkept _ hmem⟩
    · exact .inr ⟨hnew, hskip.2.1, f.source, text, habsent _ hsource, rfl, hkept _ hsource⟩

end Repairs

end StructuredOutput
