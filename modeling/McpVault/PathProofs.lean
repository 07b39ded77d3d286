import McpVault.DomainProofs

/-! # Logical paths — parsing, joining, and the URL form

The parser looks at the bytes of its input for percent-encoded components, and at the segments of
the normalized text for everything else.  The operations on paths stay among the accepted texts.
Unicode normalization and lowercase mapping are parameters with laws. -/

namespace LogicalPath

open List
open Fallible (of_check)
open PlainText (Text isControl)
open UInt8 (ofFin)

instance lawfulText : LawfulBEq Text := inferInstance

/-- Why a path is refused. -/
inductive PathError where
  | absolute
  | backslash
  | nul
  | controlCharacter
  | encodedUnsafeComponent
  | tooLong
  | tooDeep
  | emptySegment
  | traversal
  | segmentTooLong
  | trailingSpaceOrPeriod
  | invalidPlatformCharacter
  | reservedPlatformName
  | invalidPercentEncoding
  | invalidUtf8
  deriving DecidableEq

/-! ## Text and bytes -/

def bytesOf (t : Text) : List UInt8 := t.flatMap String.utf8EncodeChar

/-- `str::len`. -/
def byteLen (t : Text) : Nat := (bytesOf t).length

def decodeUtf8 (bytes : List UInt8) : Option Text :=
  (String.fromUTF8? bytes.toByteArray).map String.toList

def percent : UInt8 := 0x25

def hexValue (b : UInt8) : Option UInt8 :=
  if 0x30 ≤ b ∧ b ≤ 0x39 then some (b - 0x30)
  else if 0x61 ≤ b ∧ b ≤ 0x66 then some (b - 0x61 + 10)
  else if 0x41 ≤ b ∧ b ≤ 0x46 then some (b - 0x41 + 10)
  else none

def hexPair (first second : UInt8) : Option UInt8 := do
  let high ← hexValue first
  let low ← hexValue second
  some (high * 16 + low)

/-- NUL, the period, the slash and the backslash. -/
def unsafeByte (value : UInt8) : Bool :=
  decide (value = 0x00 ∨ value = 0x2e ∨ value = 0x2f ∨ value = 0x5c)

/-- An unsafe byte behind a percent sign. -/
def encodedUnsafe (first second : UInt8) (rest : List UInt8) : Bool :=
  match hexPair first second with
  | none => false
  | some value => unsafeByte value || (decide (value = percent) &&
      match rest with
      | third :: fourth :: _ => (hexPair third fourth).any unsafeByte
      | _ => false)

/-- `reject_encoded_unsafe_components`. -/
def rejectEncodedUnsafe : List UInt8 → Bool
  | byte :: first :: second :: rest =>
    decide (byte = percent) && encodedUnsafe first second rest ||
      rejectEncodedUnsafe (first :: second :: rest)
  | _ => false

/-- `validate_percent_encoding`: each sign starts a triple. -/
def validPercentEncoding : List UInt8 → Bool
  | [] => true
  | byte :: rest =>
    if byte = percent then
      match rest with
      | first :: second :: rest =>
        (hexValue first).isSome && (hexValue second).isSome && validPercentEncoding rest
      | _ => false
    else validPercentEncoding rest

def isAlphanumeric (b : UInt8) : Bool :=
  decide (0x30 ≤ b ∧ b ≤ 0x39 ∨ 0x41 ≤ b ∧ b ≤ 0x5a ∨ 0x61 ≤ b ∧ b ≤ 0x7a)

def upperHexDigit (n : UInt8) : Char :=
  if n < 10 then Char.ofNat (0x30 + n.toNat) else Char.ofNat (0x41 + (n.toNat - 10))

/-- How a byte is spelled out. -/
def triple (b : UInt8) : Text := ['%', upperHexDigit (b / 16), upperHexDigit (b % 16)]

/-- `percent_decode_str`, and `utf8_percent_encode` with `NON_ALPHANUMERIC` for one byte. -/
structure PercentCoding where
  decode : List UInt8 → List UInt8
  decode_nil : decode [] = []
  decode_plain : ∀ b rest, b ≠ percent → decode (b :: rest) = b :: decode rest
  decode_triple : ∀ first second b rest, hexPair first second = some b →
    decode (percent :: first :: second :: rest) = b :: decode rest
  encodeByte : UInt8 → Text
  encode_plain : ∀ b, isAlphanumeric b → encodeByte b = [Char.ofNat b.toNat]
  encode_triple : ∀ b, isAlphanumeric b = false → encodeByte b = triple b

/-! ## Paths -/

def maxPathBytes : Nat := 4096

def maxSegments : Nat := 64

def maxSegmentBytes : Nat := 255

/-- The text of a path; the empty text is the Vault root. -/
structure VaultPath where
  text : Text
  deriving DecidableEq

def root : VaultPath := ⟨[]⟩

def VaultPath.isRoot (p : VaultPath) : Bool := p.text.isEmpty

def asciiUppercase (c : Char) : Char := if 'a' ≤ c ∧ c ≤ 'z' then c.toUpper else c

def windowsReservedNames : List Text :=
  ["CON", "PRN", "AUX", "NUL", "COM1", "COM2", "COM3", "COM4", "COM5", "COM6", "COM7",
    "COM8", "COM9", "LPT1", "LPT2", "LPT3", "LPT4", "LPT5", "LPT6", "LPT7", "LPT8",
    "LPT9"].map String.toList

def isWindowsReservedName (segment : Text) : Bool :=
  decide (((segment.splitOn '.').headD segment).map asciiUppercase ∈ windowsReservedNames)

/-- `validate_segment`. -/
def validateSegment (segment : Text) : Except PathError Unit :=
  if segment = ['.'] ∨ segment = ['.', '.'] then .error .traversal
  else if maxSegmentBytes < byteLen segment then .error .segmentTooLong
  else if segment.getLast? = some ' ' ∨ segment.getLast? = some '.' then
    .error .trailingSpaceOrPeriod
  else if segment.any fun c => decide (c ∈ [':', '*', '?', '"', '<', '>', '|']) then
    .error .invalidPlatformCharacter
  else if isWindowsReservedName segment then .error .reservedPlatformName
  else .ok ()

/-- Separators of segments, and the percent sign. -/
def isMarker (c : Char) : Bool :=
  decide (c = '/' ∨ c = '\\' ∨ c = '%' ∨ '0' ≤ c ∧ c ≤ '9' ∨ 'a' ≤ c ∧ c ≤ 'f' ∨ 'A' ≤ c ∧ c ≤ 'F')

/-- What the parser needs of Unicode normalization. -/
structure Normalizer where
  nfc : Text → Text
  idempotent : ∀ t, nfc (nfc t) = nfc t
  controlFree : ∀ t, (∀ c ∈ t, isControl c = false) → ∀ c ∈ nfc t, isControl c = false
  /-- No run of markers is created. -/
  markers : ∀ t run, (∀ c ∈ run, isMarker c) → run <:+: nfc t → run <:+: t
  splits : ∀ t, (nfc t).splitOn '/' = (t.splitOn '/').map nfc

/-- The checks of the normalized text. -/
def parseNormalized (normalized : Text) : Except PathError VaultPath := do
  if maxPathBytes < byteLen normalized then .error .tooLong
  else if maxSegments < (normalized.splitOn '/').length then .error .tooDeep
  else if (normalized.splitOn '/').any (·.isEmpty) then .error .emptySegment
  else do
    (normalized.splitOn '/').forM validateSegment
    .ok ⟨normalized⟩

/-- `VaultPath::parse`. -/
def parse (N : Normalizer) (input : Text) : Except PathError VaultPath :=
  if input = [] then .ok root
  else if rejectEncodedUnsafe (bytesOf input) then .error .encodedUnsafeComponent
  else if input.head? = some '/' then .error .absolute
  else if '\\' ∈ input then .error .backslash
  else if Char.ofNat 0 ∈ input then .error .nul
  else if input.any isControl then .error .controlCharacter
  else parseNormalized (N.nfc input)

/-- `from_url_path`: one layer, an optional slash. -/
def fromUrlPath (N : Normalizer) (P : PercentCoding) (input : Text) : Except PathError VaultPath :=
  let path := if input.head? = some '/' then input.tail else input
  if validPercentEncoding (bytesOf path) then
    match decodeUtf8 (P.decode (bytesOf path)) with
    | some decoded => parse N decoded
    | none => .error .invalidUtf8
  else .error .invalidPercentEncoding

def VaultPath.segments (p : VaultPath) : List Text :=
  (p.text.splitOn '/').filter fun segment => !segment.isEmpty

def VaultPath.depth (p : VaultPath) : Nat :=
  if p.isRoot then 0 else (p.text.splitOn '/').length

/-- What stands before the last slash. -/
def beforeLastSlash (t : Text) : Option Text :=
  if '/' ∈ t then some ((t.reverse.dropWhile (· ≠ '/')).drop 1).reverse else none

/-- `parent`; the root has none. -/
def VaultPath.parent (p : VaultPath) : Option VaultPath :=
  if p.isRoot then none
  else
    match beforeLastSlash p.text with
    | some parent => some ⟨parent⟩
    | none => some root

def VaultPath.join (N : Normalizer) (p child : VaultPath) : Except PathError VaultPath :=
  if p.isRoot then .ok child
  else if child.isRoot then .ok p
  else parse N (p.text ++ '/' :: child.text)

def stripPrefix (whole start : Text) : Option Text :=
  if start.isPrefixOf whole then some (whole.drop start.length) else none

/-- The text itself, or a text that goes on with a slash. -/
def beneath (whole start : Text) : Bool :=
  decide (whole = start) || (stripPrefix whole start).any fun rest => decide (rest.head? = some '/')

def VaultPath.startsWith (p ancestor : VaultPath) : Bool :=
  ancestor.isRoot || beneath p.text ancestor.text

/-! ## The URI writer -/

section

variable (P : PercentCoding)

def percentEncode (segment : Text) : Text := (bytesOf segment).flatMap P.encodeByte

/-- The path of the URI, without its leading slash. -/
def encodedPath (p : VaultPath) : Text := ['/'].intercalate (p.segments.map (percentEncode P))

def noteResourceUri (p : VaultPath) : Text := "vault://note/".toList ++ encodedPath P p

end

/-! ## Bytes -/

section Bytes

variable {t u : Text} {bytes rest : List UInt8}

@[simp] theorem bytesOf_nil : bytesOf [] = [] := rfl

@[simp] theorem bytesOf_cons (c : Char) (t : Text) :
    bytesOf (c :: t) = String.utf8EncodeChar c ++ bytesOf t := rfl

@[simp] theorem bytesOf_append (t u : Text) : bytesOf (t ++ u) = bytesOf t ++ bytesOf u :=
  flatMap_append

@[simp] theorem byteLen_append (t u : Text) : byteLen (t ++ u) = byteLen t + byteLen u := by
  simp [byteLen]

variable {c : Char} {w : Text} {b : UInt8}

theorem encode_ascii (h : c.toNat < 0x80) :
    String.utf8EncodeChar c = [UInt8.ofNat c.toNat] := by
  have hle : c.val.toNat ≤ 127 := Nat.le_of_lt_succ h
  rw [String.utf8EncodeChar, if_pos hle]
  rfl

/-- ASCII text has one byte for each character. -/
theorem byteLen_ascii (h : ∀ c ∈ t, c.toNat < 0x80) : byteLen t = t.length := by
  induction t with
  | nil => rfl
  | cons c t ih =>
    obtain ⟨hc, ht⟩ := forall_mem_cons.mp h
    show (String.utf8EncodeChar c ++ bytesOf t).length = _
    rw [encode_ascii hc, singleton_append, length_cons, length_cons]
    exact congrArg Nat.succ (ih ht)

/-- Bytes outside ASCII do not look like it. -/
theorem le_of_mem_encode (h : 0x80 ≤ c.toNat) (hb : b ∈ String.utf8EncodeChar c) :
    0x80 ≤ b.toNat := by
  have hlt : ¬ c.val.toNat ≤ 127 := Nat.not_le.mpr h
  rw [String.utf8EncodeChar, if_neg hlt] at hb
  split at hb
  next =>
    simp only [mem_cons, not_mem_nil, or_false] at hb
    rcases hb with rfl | rfl <;> simp <;> omega
  next =>
    split at hb
    next =>
      simp only [mem_cons, not_mem_nil, or_false] at hb
      rcases hb with rfl | rfl | rfl <;> simp <;> omega
    next =>
      simp only [mem_cons, not_mem_nil, or_false] at hb
      rcases hb with rfl | rfl | rfl | rfl <;> simp <;> omega

theorem decodeUtf8_bytesOf (t : Text) : decodeUtf8 (bytesOf t) = some t := by
  have hbytes : (bytesOf t).toByteArray = (String.ofList t).toByteArray := by
    rfl
  have hvalid : (bytesOf t).toByteArray.IsValidUTF8 := hbytes ▸ (String.ofList t).isValidUTF8
  have hsame : String.fromUTF8 (bytesOf t).toByteArray hvalid = String.ofList t :=
    String.toByteArray_inj.mp hbytes
  rw [decodeUtf8, String.fromUTF8?, dif_pos hvalid, hsame, Option.map_some, String.toList_ofList]

theorem bytesOf_of_decodeUtf8 (h : decodeUtf8 bytes = some t) : bytesOf t = bytes := by
  unfold decodeUtf8 String.fromUTF8? at h
  split_ifs at h with hvalid
  · obtain rfl := Option.some.inj h
    refine toByteArray_inj.mp ?_
    show List.utf8Encode _ = _
    rw [← String.toByteArray_ofList, String.ofList_toList]
    rfl
  · cases h

/-- What starts the bytes of a text starts the text. -/
theorem prefix_of_bytes (h : bytesOf w <+: bytesOf t) : w <+: t := by
  obtain ⟨rest, hrest⟩ := h
  refine isPrefix_of_utf8Encode_append_eq_utf8Encode rest.toByteArray ?_
  show (bytesOf w).toByteArray ++ rest.toByteArray = (bytesOf t).toByteArray
  rw [← toByteArray_append, hrest]

/-- An ASCII byte starts a character. -/
theorem suffix_of_bytes (hb : b.toNat < 0x80) (h : b :: rest <:+ bytesOf t) :
    ∃ u, u <:+ t ∧ b :: rest = bytesOf u := by
  induction t with
  | nil => simp at h
  | cons d t ih =>
    obtain ⟨before, hbefore⟩ := h
    rw [bytesOf_cons] at hbefore
    rcases append_eq_append_iff.mp hbefore with ⟨more, hd, hmore⟩ | ⟨more, _, hmore⟩
    · cases more with
      | nil =>
        obtain ⟨u, hu, hbytes⟩ := ih ⟨[], by simpa using hmore⟩
        exact ⟨u, hu.trans (suffix_cons d t), hbytes⟩
      | cons x more =>
        obtain ⟨rfl, hrest⟩ := List.cons.inj (hmore : b :: rest = x :: (more ++ bytesOf t))
        have hascii : d.toNat < 0x80 := by
          by_contra hd'
          have hle := le_of_mem_encode (Nat.not_lt.mp hd')
            (hd ▸ mem_append_right before mem_cons_self)
          omega
        rw [encode_ascii hascii] at hd
        have hlen := congrArg List.length hd
        simp only [length_append, length_cons, length_nil] at hlen
        have hbefore : before = [] := eq_nil_of_length_eq_zero (by omega)
        refine ⟨d :: t, suffix_rfl, ?_⟩
        rw [bytesOf_cons, encode_ascii hascii, hd, hbefore, nil_append, hmore]
    · obtain ⟨u, hu, hbytes⟩ := ih ⟨more, hmore.symm⟩
      exact ⟨u, hu.trans (suffix_cons d t), hbytes⟩

theorem infix_of_bytes (hw : ∀ c ∈ w, c.toNat < 0x80) (h : bytesOf w <:+: bytesOf t) :
    w <:+: t := by
  cases w with
  | nil => exact nil_infix
  | cons c w =>
    have hc := hw c mem_cons_self
    obtain ⟨before, after, hsplit⟩ := h
    have hsuffix : UInt8.ofNat c.toNat :: (bytesOf w ++ after) <:+ bytesOf t :=
      ⟨before, by rw [← hsplit, bytesOf_cons, encode_ascii hc]; simp⟩
    obtain ⟨u, hu, hbytes⟩ := suffix_of_bytes (by simp; omega) hsuffix
    have hprefix : c :: w <+: u := by
      refine prefix_of_bytes ⟨after, ?_⟩
      rw [← hbytes, bytesOf_cons, encode_ascii hc]
      rfl
    exact hprefix.isInfix.trans hu.isInfix

end Bytes

/-! ## Encoded words

The scan before normalization looks for a short ASCII word anywhere in the bytes.  Such a word
has no slash in it, so it stands within one segment. -/

section Words

variable {bytes rest word : List UInt8} {b : UInt8} {t : Text}

/-- The words the scan rejects. -/
inductive UnsafeWord : List UInt8 → Prop
  | plain {first second value} (hpair : hexPair first second = some value)
      (hvalue : unsafeByte value) : UnsafeWord [percent, first, second]
  | nested {first second third fourth value} (hpercent : hexPair first second = some percent)
      (hpair : hexPair third fourth = some value) (hvalue : unsafeByte value) :
      UnsafeWord [percent, first, second, third, fourth]

theorem UnsafeWord.of_encodedUnsafe {first second : UInt8}
    (h : encodedUnsafe first second rest) :
    ∃ word, UnsafeWord word ∧ word <+: percent :: first :: second :: rest := by
  unfold encodedUnsafe at h
  cases hpair : hexPair first second with
  | none => simp [hpair] at h
  | some value =>
    rw [hpair] at h
    rcases Bool.or_eq_true_iff.mp h with hplain | hnested
    · exact ⟨_, .plain hpair hplain, rest, rfl⟩
    · obtain ⟨hpercent, hrest⟩ := Bool.and_eq_true_iff.mp hnested
      obtain rfl : value = percent := of_decide_eq_true hpercent
      match rest, hrest with
      | third :: fourth :: more, hrest =>
        cases hinner : hexPair third fourth with
        | none => simp [hinner] at hrest
        | some inner =>
          have hrest : (hexPair third fourth).any unsafeByte := hrest
          rw [hinner] at hrest
          exact ⟨_, .nested hpair hinner hrest, more, rfl⟩

theorem UnsafeWord.rejected (hword : UnsafeWord word) (h : word <+: bytes) :
    rejectEncodedUnsafe bytes := by
  obtain ⟨more, rfl⟩ := h
  cases hword with
  | plain hpair hvalue => simp [rejectEncodedUnsafe, encodedUnsafe, hpair, hvalue]
  | nested hpercent hpair hvalue =>
    simp [rejectEncodedUnsafe, encodedUnsafe, hpercent, hpair, hvalue]

theorem rejectEncodedUnsafe_cons (h : rejectEncodedUnsafe rest) :
    rejectEncodedUnsafe (b :: rest) := by
  match rest, h with
  | first :: second :: more, h =>
    rw [rejectEncodedUnsafe, h, Bool.or_true]

/-- The scan finds exactly the unsafe words. -/
theorem rejectEncodedUnsafe_iff :
    rejectEncodedUnsafe bytes ↔ ∃ word, UnsafeWord word ∧ word <:+: bytes := by
  constructor
  · intro h
    induction bytes with
    | nil => exact absurd h Bool.false_ne_true
    | cons byte rest ih =>
      match rest, h with
      | first :: second :: rest, h =>
        rcases Bool.or_eq_true_iff.mp h with hhere | hlater
        · obtain ⟨hpercent, hencoded⟩ := Bool.and_eq_true_iff.mp hhere
          obtain rfl : byte = percent := of_decide_eq_true hpercent
          obtain ⟨word, hword, hprefix⟩ := UnsafeWord.of_encodedUnsafe hencoded
          exact ⟨word, hword, hprefix.isInfix⟩
        · obtain ⟨word, hword, hwithin⟩ := ih hlater
          exact ⟨word, hword, hwithin.trans (infix_cons infix_rfl)⟩
  · rintro ⟨word, hword, before, after, rfl⟩
    induction before with
    | nil => exact hword.rejected (prefix_append word after)
    | cons b before ih => exact rejectEncodedUnsafe_cons ih

/-- The character of an ASCII byte. -/
def charOf (b : UInt8) : Char := Char.ofNat b.toNat

theorem charOf_toNat (h : b.toNat < 0x80) : (charOf b).toNat = b.toNat := by
  have hvalid : b.toNat.isValidChar := .inl (by omega)
  rw [charOf, Char.ofNat, dif_pos hvalid]
  rfl

theorem bytesOf_charOf (h : b.toNat < 0x80) : bytesOf [charOf b] = [b] := by
  have hascii : (charOf b).toNat < 0x80 := charOf_toNat h ▸ h
  rw [bytesOf_cons, bytesOf_nil, append_nil, encode_ascii hascii, charOf_toNat h, UInt8.ofNat_toNat]

theorem bytesOf_map_charOf (h : ∀ b ∈ word, b.toNat < 0x80) : bytesOf (word.map charOf) = word := by
  induction word with
  | nil => rfl
  | cons b word ih =>
    have hrest := ih fun x hx => h x (mem_cons_of_mem b hx)
    rw [map_cons, ← singleton_append, bytesOf_append, hrest,
      bytesOf_charOf (h b mem_cons_self), singleton_append]

theorem hexValue_facts (b : UInt8) : (hexValue b).isSome →
    isMarker (charOf b) ∧ b.toNat < 0x80 ∧ b ≠ 0x2f := by
  have hall : ∀ n : Fin 256, (hexValue (ofFin n)).isSome →
      isMarker (charOf (ofFin n)) ∧ (ofFin n).toNat < 0x80 ∧
        ofFin n ≠ 0x2f := by decide +kernel
  exact hall b.toFin

theorem hexPair_some {first second value : UInt8} (h : hexPair first second = some value) :
    (hexValue first).isSome ∧ (hexValue second).isSome := by
  unfold hexPair at h
  cases hfirst : hexValue first with
  | none => simp [hfirst] at h
  | some high =>
    cases hsecond : hexValue second with
    | none => simp [hsecond] at h
    | some low => exact ⟨rfl, rfl⟩

/-- Unsafe words are markers but the slash. -/
theorem UnsafeWord.markers (hword : UnsafeWord word) : ∀ b ∈ word,
    isMarker (charOf b) ∧ b.toNat < 0x80 ∧ b ≠ 0x2f := by
  have hpercent : isMarker (charOf percent) ∧ percent.toNat < 0x80 ∧ percent ≠ 0x2f := by
    decide
  cases hword with
  | plain hpair _ =>
    obtain ⟨hfirst, hsecond⟩ := hexPair_some hpair
    simpa [hpercent] using And.intro (hexValue_facts _ hfirst) (hexValue_facts _ hsecond)
  | nested hpair hinner _ =>
    obtain ⟨hfirst, hsecond⟩ := hexPair_some hpair
    obtain ⟨hthird, hfourth⟩ := hexPair_some hinner
    simpa [hpercent] using And.intro (hexValue_facts _ hfirst)
      ⟨hexValue_facts _ hsecond, hexValue_facts _ hthird, hexValue_facts _ hfourth⟩

/-- Normalization makes no unsafe word. -/
theorem Normalizer.nfc_rejected (N : Normalizer)
    (h : rejectEncodedUnsafe (bytesOf (N.nfc t))) :
    rejectEncodedUnsafe (bytesOf t) := by
  obtain ⟨word, hword, hwithin⟩ := rejectEncodedUnsafe_iff.mp h
  have hmarkers := hword.markers
  have hbytes : bytesOf (word.map charOf) = word :=
    bytesOf_map_charOf fun b hb => (hmarkers b hb).2.1
  have hascii : ∀ c ∈ word.map charOf, c.toNat < 0x80 := by
    intro c hc
    obtain ⟨b, hb, rfl⟩ := mem_map.mp hc
    rw [charOf_toNat (hmarkers b hb).2.1]
    exact (hmarkers b hb).2.1
  have hrun : word.map charOf <:+: t := by
    refine N.markers t _ (fun c hc => ?_) (infix_of_bytes hascii (hbytes.symm ▸ hwithin))
    obtain ⟨b, hb, rfl⟩ := mem_map.mp hc
    exact (hmarkers b hb).1
  refine rejectEncodedUnsafe_iff.mpr ⟨word, hword, ?_⟩
  obtain ⟨before, after, rfl⟩ := hrun
  rw [bytesOf_append, bytesOf_append, hbytes]
  exact ⟨_, _, rfl⟩

/-- A run without the separator stands on one side of it. -/
theorem infix_append_cons {α : Type} {a : α} {run xs ys : List α} (ha : a ∉ run) :
    run <:+: xs ++ a :: ys ↔ run <:+: xs ∨ run <:+: ys := by
  constructor
  · rintro ⟨before, after, h⟩
    rcases append_eq_append_iff.mp h with ⟨more, hxs, _⟩ | ⟨more, hrun, hys⟩
    · exact .inl ⟨before, more, hxs.symm⟩
    · cases more with
      | nil => exact .inl ⟨before, [], by simpa using hrun⟩
      | cons x more =>
        obtain ⟨rfl, rfl⟩ := List.cons.inj (hys : a :: ys = x :: (more ++ after))
        rcases append_eq_append_iff.mp hrun with ⟨k, _, hk⟩ | ⟨k, _, hk⟩
        · exact absurd (hk ▸ mem_append_right k mem_cons_self) ha
        · cases k with
          | nil => exact absurd (hk ▸ mem_cons_self : a ∈ [] ++ run) ha
          | cons x k =>
            obtain ⟨_, rfl⟩ := List.cons.inj (hk : a :: more = x :: (k ++ run))
            exact .inr ⟨k, after, rfl⟩
  · rintro (h | h)
    · exact h.trans ⟨[], a :: ys, by simp⟩
    · exact h.trans ⟨xs ++ [a], [], by simp⟩

end Words

/-! ## Segments

What a path is for: a list of segments, each checked on its own, within two limits.  A text is
such a list joined by slashes, and the parser accepts exactly these texts. -/

section Segments

variable {N : Normalizer} {segs more : List Text} {s t : Text} {p : VaultPath}

def joined (segs : List Text) : Text := ['/'].intercalate segs

/-- A segment that may stand in a path. -/
structure IsSegment (N : Normalizer) (s : Text) : Prop where
  nonempty : s ≠ []
  slashless : '/' ∉ s
  backslashless : '\\' ∉ s
  clean : ∀ c ∈ s, isControl c = false
  decoded : rejectEncodedUnsafe (bytesOf s) = false
  normal : N.nfc s = s
  valid : validateSegment s = .ok ()

/-- The segments of an accepted path. -/
structure IsRoute (N : Normalizer) (segs : List Text) : Prop where
  segment : ∀ s ∈ segs, IsSegment N s
  depth : segs.length ≤ maxSegments
  length : byteLen (joined segs) ≤ maxPathBytes

@[simp] theorem joined_nil : joined [] = [] := rfl

@[simp] theorem joined_singleton : joined [s] = s := intercalate_singleton

theorem joined_cons (h : segs ≠ []) : joined (s :: segs) = s ++ '/' :: joined segs := by
  obtain ⟨u, segs, rfl⟩ := exists_cons_of_ne_nil h
  rw [joined, intercalate_cons_cons, joined, append_assoc, singleton_append]

theorem joined_append (h : segs ≠ []) (hmore : more ≠ []) :
    joined (segs ++ more) = joined segs ++ '/' :: joined more := by
  induction segs with
  | nil => exact absurd rfl h
  | cons s segs ih =>
    by_cases hsegs : segs = []
    · subst hsegs
      rw [singleton_append, joined_cons hmore, joined_singleton]
    · rw [cons_append, joined_cons (by simp [hsegs]), ih hsegs, joined_cons hsegs,
        append_assoc, cons_append]

theorem mem_joined {c : Char} (hc : c ∈ joined segs) : c = '/' ∨ ∃ s ∈ segs, c ∈ s := by
  induction segs with
  | nil => cases hc
  | cons s segs ih =>
    by_cases hsegs : segs = []
    · subst hsegs
      exact .inr ⟨s, mem_cons_self, by simpa using hc⟩
    · rw [joined_cons hsegs, mem_append, mem_cons] at hc
      rcases hc with hs | hslash | hrest
      · exact .inr ⟨s, mem_cons_self, hs⟩
      · exact .inl hslash
      · exact (ih hrest).imp id fun ⟨u, hu, hcu⟩ => ⟨u, mem_cons_of_mem s hu, hcu⟩

/-- A segment stands in the text. -/
theorem infix_joined (hs : s ∈ segs) : s <:+: joined segs := by
  induction segs with
  | nil => cases hs
  | cons u segs ih =>
    by_cases hsegs : segs = []
    · subst hsegs
      rw [mem_singleton.mp hs, joined_singleton]
    · rw [joined_cons hsegs]
      rcases mem_cons.mp hs with rfl | hrest
      · exact (prefix_append s _).isInfix
      · exact (ih hrest).trans ⟨u ++ ['/'], [], by simp⟩

/-- Every text is cut at its slashes. -/
theorem exists_joined (t : Text) : ∃ segs, segs ≠ [] ∧ (∀ s ∈ segs, '/' ∉ s) ∧ t = joined segs := by
  induction t with
  | nil => exact ⟨[[]], by simp, by simp, rfl⟩
  | cons c t ih =>
    obtain ⟨segs, hsegs, hslash, rfl⟩ := ih
    by_cases hc : c = '/'
    · refine ⟨[] :: segs, by simp, ?_, by rw [joined_cons hsegs, hc, nil_append]⟩
      simpa using hslash
    · obtain ⟨s, rest, rfl⟩ := exists_cons_of_ne_nil hsegs
      refine ⟨(c :: s) :: rest, by simp, ?_, ?_⟩
      · intro u hu
        rcases mem_cons.mp hu with rfl | hu
        · exact not_mem_cons_of_ne_of_not_mem (Ne.symm hc) (hslash s mem_cons_self)
        · exact hslash u (mem_cons_of_mem s hu)
      · by_cases hrest : rest = []
        · subst hrest
          simp
        · rw [joined_cons hrest, joined_cons hrest, cons_append]

theorem splitOn_joined (hsegs : segs ≠ []) (h : ∀ s ∈ segs, '/' ∉ s) :
    (joined segs).splitOn '/' = segs :=
  splitOn_intercalate '/' h hsegs

theorem joined_head (hsegs : segs ≠ []) (hne : ∀ s ∈ segs, s ≠ []) (h : ∀ s ∈ segs, '/' ∉ s) :
    ∃ c rest, joined segs = c :: rest ∧ c ≠ '/' := by
  obtain ⟨s, segs, rfl⟩ := exists_cons_of_ne_nil hsegs
  obtain ⟨c, s, rfl⟩ := exists_cons_of_ne_nil (hne s mem_cons_self)
  have hc : c ≠ '/' := fun hc => h (c :: s) mem_cons_self (hc ▸ mem_cons_self)
  by_cases hrest : segs = []
  · exact ⟨c, s, by rw [hrest, joined_singleton], hc⟩
  · exact ⟨c, _, by rw [joined_cons hrest, cons_append], hc⟩

theorem decoded_joined : rejectEncodedUnsafe (bytesOf (joined segs)) ↔
      ∃ s ∈ segs, rejectEncodedUnsafe (bytesOf s) := by
  induction segs with
  | nil => simp [rejectEncodedUnsafe]
  | cons s segs ih =>
    by_cases hsegs : segs = []
    · subst hsegs
      simp
    · -- The slash is one byte, and no unsafe word has it.
      have hbytes : bytesOf (joined (s :: segs)) =
          bytesOf s ++ (0x2f : UInt8) :: bytesOf (joined segs) := by
        rw [joined_cons hsegs, bytesOf_append, bytesOf_cons]
        rfl
      rw [exists_mem_cons_iff, ← ih, hbytes]
      simp only [rejectEncodedUnsafe_iff]
      rw [← exists_or]
      refine exists_congr fun word => ?_
      rw [← and_or_left]
      refine and_congr_right fun hword => infix_append_cons fun hslash => ?_
      exact (hword.markers _ hslash).2.2 rfl

theorem nfc_joined (hsegs : segs ≠ []) (h : ∀ s ∈ segs, '/' ∉ s) :
    N.nfc (joined segs) = joined segs ↔ ∀ s ∈ segs, N.nfc s = s := by
  have hsplit := N.splits (joined segs)
  rw [splitOn_joined hsegs h] at hsplit
  constructor
  · intro hnormal
    rw [hnormal, splitOn_joined hsegs h] at hsplit
    exact map_inj_left.mp (hsplit.symm.trans (map_id segs).symm)
  · intro hall
    rw [map_congr_left hall, map_id'] at hsplit
    exact (intercalate_splitOn '/').symm.trans (congrArg joined hsplit)

theorem forM_validateSegment :
    segs.forM validateSegment = .ok () ↔ ∀ s ∈ segs, validateSegment s = .ok () := by
  induction segs with
  | nil => simp [pure, Except.pure]
  | cons s segs ih =>
    cases hs : validateSegment s with
    | error e => simp [hs, bind, Except.bind]
    | ok u => simpa [hs, bind, Except.bind] using ih

/-- Only the limits are left to check. -/
theorem parse_joined (hsegs : segs ≠ []) (h : ∀ s ∈ segs, IsSegment N s) : parse N (joined segs) =
      if maxPathBytes < byteLen (joined segs) then .error .tooLong
      else if maxSegments < segs.length then .error .tooDeep
      else .ok ⟨joined segs⟩ := by
  have hslash : ∀ s ∈ segs, '/' ∉ s := fun s hs => (h s hs).slashless
  obtain ⟨c, rest, hcons, hc⟩ :=
    joined_head hsegs (fun s hs => (h s hs).nonempty) hslash
  have hdecoded : rejectEncodedUnsafe (bytesOf (joined segs)) ≠ true := by
    rw [Ne, decoded_joined]
    rintro ⟨s, hs, hreject⟩
    exact absurd ((h s hs).decoded.symm.trans hreject) Bool.false_ne_true
  have hclean : ∀ x ∈ joined segs, isControl x = false := by
    intro x hx
    rcases mem_joined hx with rfl | ⟨s, hs, hxs⟩
    · rfl
    · exact (h s hs).clean x hxs
  have hback : '\\' ∉ joined segs := by
    intro hx
    rcases mem_joined hx with hx | ⟨s, hs, hxs⟩
    · exact absurd hx (by decide)
    · exact (h s hs).backslashless hxs
  have hnul : Char.ofNat 0 ∉ joined segs := fun hx => absurd (hclean _ hx) (by decide)
  have hcontrol : ¬ (joined segs).any isControl := by simpa using hclean
  have hnormal : N.nfc (joined segs) = joined segs :=
    (nfc_joined hsegs hslash).mpr fun s hs => (h s hs).normal
  have hempty : ¬ segs.any (·.isEmpty) := by
    simpa using fun hmem => (h [] hmem).nonempty rfl
  have hvalid := forM_validateSegment.mpr fun s hs => (h s hs).valid
  have hstart : ¬ (joined segs).head? = some '/' := by simp [hcons, hc]
  rw [parse, if_neg (by simp [hcons]), if_neg hdecoded, if_neg hstart, if_neg hback, if_neg hnul,
    if_neg hcontrol, hnormal, parseNormalized, splitOn_joined hsegs hslash, if_neg hempty]
  simp only [hvalid, bind, Except.bind]

theorem IsRoute.parse_eq (h : IsRoute N segs) : parse N (joined segs) = .ok ⟨joined segs⟩ := by
  by_cases hsegs : segs = []
  · subst hsegs
    rfl
  · rw [parse_joined hsegs h.segment, if_neg (Nat.not_lt.mpr h.length),
      if_neg (Nat.not_lt.mpr h.depth)]

/-- What the parser accepts is a route. -/
theorem route_of_parse (h : parse N t = .ok p) : ∃ segs, IsRoute N segs ∧ p = ⟨joined segs⟩ := by
  unfold parse at h
  split at h
  next => exact ⟨[], ⟨nofun, by decide, by decide⟩, (Except.ok.inj h).symm⟩
  next =>
    obtain ⟨hdecoded, h⟩ := of_check h
    obtain ⟨-, h⟩ := of_check h
    obtain ⟨hback, h⟩ := of_check h
    obtain ⟨-, h⟩ := of_check h
    obtain ⟨hcontrol, h⟩ := of_check h
    obtain ⟨hlength, h⟩ := of_check h
    obtain ⟨hdepth, h⟩ := of_check h
    obtain ⟨hempty, h⟩ := of_check h
    obtain ⟨segs, hsegs, hslash, hjoined⟩ := exists_joined (N.nfc t)
    have hnormal : N.nfc (joined segs) = joined segs := hjoined ▸ N.idempotent t
    rw [hjoined] at hlength hdepth hempty h
    rw [splitOn_joined hsegs hslash] at hdepth hempty h
    cases hvalid : segs.forM validateSegment with
    | error e => simp [hvalid, bind, Except.bind] at h
    | ok u =>
      simp only [hvalid] at h
      refine ⟨segs, ⟨fun s hs => ?_, Nat.not_lt.mp hdepth, Nat.not_lt.mp hlength⟩,
        (Except.ok.inj h).symm⟩
      have hwithin : s <:+: N.nfc t := hjoined ▸ infix_joined hs
      have hclean := N.controlFree t (by simpa using hcontrol)
      refine ⟨fun hnil => hempty (by simp [← hnil, hs]), hslash s hs, fun hmem => hback ?_,
        fun c hc => hclean c (hwithin.subset hc), Bool.eq_false_iff.mpr fun hreject => ?_,
        (nfc_joined hsegs hslash).mp hnormal s hs, forM_validateSegment.mp hvalid s hs⟩
      · -- A backslash of the normalized text was one of the input.
        obtain ⟨before, after, hs⟩ := append_of_mem hmem
        have hrun : ['\\'] <:+: N.nfc t := .trans ⟨before, after, by simp [hs]⟩ hwithin
        exact (N.markers t _ (all_eq_true.mp (by decide)) hrun).subset mem_cons_self
      · exact hdecoded (N.nfc_rejected (hjoined ▸ decoded_joined.mpr ⟨s, hs, hreject⟩))

/-- The accepted paths are the routes. -/
theorem parse_text_iff : parse N p.text = .ok p ↔ ∃ segs, IsRoute N segs ∧ p = ⟨joined segs⟩ := by
  constructor
  · exact route_of_parse
  · rintro ⟨segs, hroute, rfl⟩
    exact hroute.parse_eq

theorem IsRoute.slashless (h : IsRoute N segs) : ∀ s ∈ segs, '/' ∉ s :=
  fun s hs => (h.segment s hs).slashless

theorem IsRoute.joined_ne_nil (h : IsRoute N segs) (hsegs : segs ≠ []) : joined segs ≠ [] := by
  obtain ⟨c, rest, hcons, -⟩ :=
    joined_head hsegs (fun s hs => (h.segment s hs).nonempty) h.slashless
  exact hcons ▸ cons_ne_nil c rest

theorem IsRoute.isRoot_iff (h : IsRoute N segs) :
    VaultPath.isRoot ⟨joined segs⟩ ↔ segs = [] := by
  rw [VaultPath.isRoot, List.isEmpty_iff]
  exact ⟨fun hnil => by_contra fun hsegs => h.joined_ne_nil hsegs hnil, fun hsegs => hsegs ▸ rfl⟩

theorem IsRoute.segments_eq (h : IsRoute N segs) : VaultPath.segments ⟨joined segs⟩ = segs := by
  by_cases hsegs : segs = []
  · subst hsegs
    rfl
  · rw [VaultPath.segments, splitOn_joined hsegs h.slashless, filter_eq_self]
    intro s hs
    simpa using (h.segment s hs).nonempty

theorem IsRoute.depth_eq (h : IsRoute N segs) : VaultPath.depth ⟨joined segs⟩ = segs.length := by
  by_cases hsegs : segs = []
  · subst hsegs
    rfl
  · rw [VaultPath.depth, if_neg (mt h.isRoot_iff.mp hsegs), splitOn_joined hsegs h.slashless]

theorem joined_prefix (segs more : List Text) : joined segs <+: joined (segs ++ more) := by
  by_cases hmore : more = []
  · rw [hmore, append_nil]
  · by_cases hsegs : segs = []
    · rw [hsegs]
      exact nil_prefix
    · rw [joined_append hsegs hmore]
      exact prefix_append _ _

/-- Fewer segments are a route again. -/
theorem IsRoute.of_append (h : IsRoute N (segs ++ more)) : IsRoute N segs := by
  refine ⟨fun s hs => h.segment s (mem_append_left more hs), ?_, ?_⟩
  · exact Nat.le_trans (by simp) h.depth
  · obtain ⟨rest, hrest⟩ := joined_prefix segs more
    have hlength := h.length
    rw [← hrest, byteLen_append] at hlength
    omega

theorem beforeLastSlash_joined (hsegs : segs ≠ []) (hs : '/' ∉ s) :
    beforeLastSlash (joined (segs ++ [s])) = some (joined segs) := by
  rw [joined_append hsegs (by simp), joined_singleton, beforeLastSlash, reverse_append, reverse_cons, append_assoc, dropWhile_append_of_pos]
  · simp
  · intro c hc
    have hne : c ≠ '/' := fun hslash => hs (hslash ▸ mem_reverse.mp hc)
    simpa using hne

/-- The parent drops the last segment. -/
theorem IsRoute.parent_eq (h : IsRoute N segs) :
    VaultPath.parent ⟨joined segs⟩ = if segs = [] then none else some ⟨joined segs.dropLast⟩ := by
  by_cases hsegs : segs = []
  · subst hsegs
    rfl
  · rw [VaultPath.parent, if_neg (mt h.isRoot_iff.mp hsegs), if_neg hsegs]
    obtain ⟨init, s, rfl⟩ : ∃ init s, segs = init ++ [s] :=
      ⟨segs.dropLast, segs.getLast hsegs, (dropLast_append_getLast hsegs).symm⟩
    have hs : '/' ∉ s := h.slashless s (by simp)
    rw [dropLast_concat]
    by_cases hinit : init = []
    · subst hinit
      simp only [nil_append, joined_singleton, beforeLastSlash, if_neg hs]
      rfl
    · simp only [beforeLastSlash_joined hinit hs]

/-- Joining paths appends their segments. -/
theorem IsRoute.join_eq (h : IsRoute N segs) (hmore : IsRoute N more) :
    VaultPath.join N ⟨joined segs⟩ ⟨joined more⟩ =
      if maxPathBytes < byteLen (joined (segs ++ more)) then .error .tooLong
      else if maxSegments < (segs ++ more).length then .error .tooDeep
      else .ok ⟨joined (segs ++ more)⟩ := by
  by_cases hsegs : segs = []
  · rw [VaultPath.join, if_pos (h.isRoot_iff.mpr hsegs), hsegs, nil_append,
      if_neg (Nat.not_lt.mpr hmore.length), if_neg (Nat.not_lt.mpr hmore.depth)]
  · rw [VaultPath.join, if_neg (mt h.isRoot_iff.mp hsegs)]
    by_cases hnil : more = []
    · rw [if_pos (hmore.isRoot_iff.mpr hnil), hnil, append_nil,
        if_neg (Nat.not_lt.mpr h.length), if_neg (Nat.not_lt.mpr h.depth)]
    · rw [if_neg (mt hmore.isRoot_iff.mp hnil), ← joined_append hsegs hnil,
        parse_joined (by simp [hsegs])]
      intro s hs
      exact (mem_append.mp hs).elim (h.segment s) (hmore.segment s)

theorem stripPrefix_append (start rest : Text) : stripPrefix (start ++ rest) start = some rest := by
  rw [stripPrefix, if_pos ( isPrefixOf_iff_prefix.mpr (prefix_append start rest)), drop_left]

theorem stripPrefix_eq_some {whole start rest : Text} :
    stripPrefix whole start = some rest ↔ whole = start ++ rest := by
  constructor
  · intro h
    unfold stripPrefix at h
    split at h
    next hprefix =>
      obtain ⟨more, rfl⟩ := isPrefixOf_iff_prefix.mp hprefix
      rw [drop_left] at h
      rw [Option.some.inj h]
    next => cases h
  · rintro rfl
    exact stripPrefix_append start rest

theorem beneath_iff {whole start : Text} :
    beneath whole start ↔ whole = start ∨ ∃ rest, whole = start ++ '/' :: rest := by
  rw [beneath, Bool.or_eq_true, decide_eq_true_iff]
  refine or_congr Iff.rfl ⟨fun h => ?_, ?_⟩
  · cases hstrip : stripPrefix whole start with
    | none => simp [hstrip] at h
    | some rest =>
      rw [hstrip, Option.any_some, decide_eq_true_iff, List.head?_eq_some_iff] at h
      obtain ⟨more, rfl⟩ := h
      exact ⟨more, stripPrefix_eq_some.mp hstrip⟩
  · rintro ⟨rest, rfl⟩
    rw [stripPrefix_append]
    rfl

/-- To be beneath is to go on with more segments. -/
theorem beneath_joined {start : List Text} (hsegs : segs ≠ []) (hstart : start ≠ [])
    (h : ∀ s ∈ segs, '/' ∉ s) (hs : ∀ s ∈ start, '/' ∉ s) :
    beneath (joined segs) (joined start) ↔ start <+: segs := by
  rw [beneath_iff]
  constructor
  · rintro (heq | ⟨rest, heq⟩)
    · rw [← splitOn_joined hsegs h, heq, splitOn_joined hstart hs]
    · obtain ⟨more, hmore, hslash, rfl⟩ := exists_joined rest
      rw [← joined_append hstart hmore] at heq
      refine ⟨more, ?_⟩
      rw [← splitOn_joined hsegs h, heq, splitOn_joined (by simp [hstart])]
      exact fun s hmem => (mem_append.mp hmem).elim (hs s) (hslash s)
  · rintro ⟨more, rfl⟩
    by_cases hmore : more = []
    · exact .inl (by rw [hmore, append_nil])
    · exact .inr ⟨joined more, joined_append hstart hmore⟩

theorem IsRoute.startsWith_iff (h : IsRoute N segs) (hmore : IsRoute N more) :
    VaultPath.startsWith ⟨joined segs⟩ ⟨joined more⟩ ↔ more <+: segs := by
  rw [VaultPath.startsWith, Bool.or_eq_true, hmore.isRoot_iff]
  by_cases hnil : more = []
  · exact ⟨fun _ => hnil ▸ nil_prefix, fun _ => .inl hnil⟩
  · by_cases hsegs : segs = []
    · subst hsegs
      rw [beneath_iff, prefix_nil]
      refine or_iff_left fun hbeneath => ?_
      rcases hbeneath with heq | ⟨rest, heq⟩
      · exact hmore.joined_ne_nil hnil heq.symm
      · exact absurd heq (by simp)
    · rw [or_iff_right hnil, beneath_joined hsegs hnil h.slashless hmore.slashless]

end Segments

/-! ## The URL form -/

section Url

variable {N : Normalizer} {P : PercentCoding} {segs : List Text} {s : Text} {b : UInt8}
  {rest : List UInt8}

theorem validPercentEncoding_cons (h : b ≠ percent) :
    validPercentEncoding (b :: rest) = validPercentEncoding rest := by
  rw [validPercentEncoding.eq_def]
  exact if_neg h

/-- The three bytes of an encoded byte. -/
theorem hexPair_upperHexDigit (b : UInt8) :
    ∃ first second, bytesOf (triple b) = [percent, first, second] ∧
      hexPair first second = some b := by
  have hall : ∀ n : Fin 256, bytesOf (triple (ofFin n)) =
        [percent, UInt8.ofNat (upperHexDigit (ofFin n / 16)).toNat,
          UInt8.ofNat (upperHexDigit (ofFin n % 16)).toNat] ∧
      hexPair (UInt8.ofNat (upperHexDigit (ofFin n / 16)).toNat)
        (UInt8.ofNat (upperHexDigit (ofFin n % 16)).toNat) = some (ofFin n) := by
    decide +kernel
  exact ⟨_, _, hall b.toFin⟩

theorem isAlphanumeric_facts (b : UInt8) : isAlphanumeric b →
    b.toNat < 0x80 ∧ b ≠ percent := by
  have hall : ∀ n : Fin 256, isAlphanumeric (ofFin n) →
      (ofFin n).toNat < 0x80 ∧ ofFin n ≠ percent := by decide +kernel
  exact hall b.toFin

/-- An encoded byte is read back. -/
theorem PercentCoding.byte_read (P : PercentCoding) (b : UInt8) (rest : List UInt8) :
    P.decode (bytesOf (P.encodeByte b) ++ rest) = b :: P.decode rest ∧
      validPercentEncoding (bytesOf (P.encodeByte b) ++ rest) = validPercentEncoding rest := by
  cases halpha : isAlphanumeric b with
  | true =>
    obtain ⟨hascii, hne⟩ := isAlphanumeric_facts b halpha
    have hbytes : bytesOf [Char.ofNat b.toNat] = [b] := bytesOf_charOf hascii
    rw [P.encode_plain b halpha, hbytes]
    exact ⟨P.decode_plain b rest hne, validPercentEncoding_cons hne⟩
  | false =>
    obtain ⟨first, second, hbytes, hpair⟩ := hexPair_upperHexDigit b
    obtain ⟨hfirst, hsecond⟩ := hexPair_some hpair
    rw [P.encode_triple b halpha, hbytes]
    refine ⟨P.decode_triple first second b rest hpair, ?_⟩
    simp [validPercentEncoding, hfirst, hsecond]

theorem percentEncode_read (P : PercentCoding) (s : Text) (rest : List UInt8) :
    P.decode (bytesOf (percentEncode P s) ++ rest) = bytesOf s ++ P.decode rest ∧
      validPercentEncoding (bytesOf (percentEncode P s) ++ rest) = validPercentEncoding rest := by
  unfold percentEncode
  induction bytesOf s with
  | nil => exact ⟨rfl, rfl⟩
  | cons b bytes ih =>
    obtain ⟨hdecode, hvalid⟩ := P.byte_read b (bytesOf (bytes.flatMap P.encodeByte) ++ rest)
    rw [flatMap_cons, bytesOf_append, append_assoc, hdecode, hvalid, ih.1, ih.2]
    exact ⟨rfl, rfl⟩

/-- The encoded segments, read back. -/
theorem joined_percentEncode_read (P : PercentCoding) (segs : List Text) :
    P.decode (bytesOf (joined (segs.map (percentEncode P)))) = bytesOf (joined segs) ∧
      validPercentEncoding (bytesOf (joined (segs.map (percentEncode P)))) := by
  induction segs with
  | nil => exact ⟨P.decode_nil, rfl⟩
  | cons s segs ih =>
    by_cases hsegs : segs = []
    · subst hsegs
      obtain ⟨hdecode, hvalid⟩ := percentEncode_read P s []
      simp only [append_nil, P.decode_nil] at hdecode hvalid
      simp only [map_cons, map_nil, joined_singleton]
      exact ⟨hdecode, hvalid⟩
    · have hmap : segs.map (percentEncode P) ≠ [] := by simpa using hsegs
      have hslash : ∀ t : Text, bytesOf ('/' :: t) = (0x2f : UInt8) :: bytesOf t := by
        intro t
        rfl
      have hne : (0x2f : UInt8) ≠ percent := by decide
      obtain ⟨hdecode, hvalid⟩ := percentEncode_read P s
        ((0x2f : UInt8) :: bytesOf (joined (segs.map (percentEncode P))))
      rw [map_cons, joined_cons hmap, bytesOf_append, hslash, hdecode, hvalid,
        P.decode_plain _ _ hne, validPercentEncoding_cons hne, ih.1, ih.2, joined_cons hsegs,
        bytesOf_append]
      exact ⟨rfl, rfl⟩

theorem PercentCoding.byte_facts (P : PercentCoding) (b : UInt8) :
    P.encodeByte b ≠ [] ∧ '/' ∉ P.encodeByte b := by
  have hall : ∀ n : Fin 256, '/' ∉ triple (ofFin n) ∧
      (isAlphanumeric (ofFin n) → '/' ≠ Char.ofNat (ofFin n).toNat) := by decide +kernel
  obtain ⟨htriple, hplain⟩ := hall b.toFin
  cases halpha : isAlphanumeric b with
  | true =>
    rw [P.encode_plain b halpha]
    exact ⟨cons_ne_nil _ _, fun h => hplain halpha (mem_singleton.mp h)⟩
  | false =>
    rw [P.encode_triple b halpha]
    exact ⟨cons_ne_nil _ _, htriple⟩

theorem percentEncode_slashless (s : Text) : '/' ∉ percentEncode P s := by
  intro hslash
  obtain ⟨b, -, hb⟩ := mem_flatMap.mp hslash
  exact (P.byte_facts b).2 hb

theorem percentEncode_ne_nil (hs : s ≠ []) : percentEncode P s ≠ [] := by
  obtain ⟨c, s, rfl⟩ := exists_cons_of_ne_nil hs
  obtain ⟨b, bytes, hbytes⟩ := exists_cons_of_ne_nil (String.utf8EncodeChar_ne_nil)
  rw [percentEncode, bytesOf_cons, hbytes, cons_append]
  exact append_ne_nil_of_left_ne_nil (P.byte_facts b).1 _

theorem IsRoute.encodedPath_eq (h : IsRoute N segs) :
    encodedPath P ⟨joined segs⟩ = joined (segs.map (percentEncode P)) := by
  rw [encodedPath, h.segments_eq, joined]

theorem IsRoute.encodedPath_head (h : IsRoute N segs) :
    (encodedPath P ⟨joined segs⟩).head? ≠ some '/' := by
  rw [h.encodedPath_eq]
  by_cases hsegs : segs = []
  · simp [hsegs]
  · obtain ⟨c, rest, hcons, hc⟩ : ∃ c rest, joined (segs.map (percentEncode P)) = c :: rest ∧
        c ≠ '/' := by
      refine joined_head (by simpa using hsegs) ?_ ?_ <;> intro e he <;>
        obtain ⟨s, hs, rfl⟩ := mem_map.mp he
      · exact percentEncode_ne_nil (h.segment s hs).nonempty
      · exact percentEncode_slashless s
    simp [hcons, hc]

/-- The URL form is read back, slash or not. -/
theorem IsRoute.fromUrlPath_eq (h : IsRoute N segs) :
    fromUrlPath N P (encodedPath P ⟨joined segs⟩) = .ok ⟨joined segs⟩ ∧
      fromUrlPath N P ('/' :: encodedPath P ⟨joined segs⟩) = .ok ⟨joined segs⟩ := by
  have hread : (if validPercentEncoding (bytesOf (encodedPath P ⟨joined segs⟩)) then
      match decodeUtf8 (P.decode (bytesOf (encodedPath P ⟨joined segs⟩))) with
      | some decoded => parse N decoded
      | none => .error .invalidUtf8
    else .error .invalidPercentEncoding) = .ok ⟨joined segs⟩ := by
    obtain ⟨hdecode, hvalid⟩ := joined_percentEncode_read P segs
    rw [h.encodedPath_eq, if_pos hvalid, hdecode, decodeUtf8_bytesOf]
    exact h.parse_eq
  constructor
  · rw [fromUrlPath, if_neg h.encodedPath_head]
    exact hread
  · exact hread

end Url

/-! ## The validated set -/

section Algebra

variable {N : Normalizer} {segs more : List Text} {s t : Text} {p q : VaultPath}

/-- The limits of a path and of each of its segments. -/
structure Bounded (p : VaultPath) : Prop where
  depth : p.segments.length ≤ 64
  bytes : byteLen p.text ≤ 4096
  /-- No segment was left out for being empty. -/
  whole : p = root ∨ p.text.splitOn '/' = p.segments
  segment : ∀ s ∈ p.segments, s ≠ [] ∧ s ≠ ['.'] ∧ s ≠ ['.', '.'] ∧ byteLen s ≤ 255 ∧
    s.getLast? ≠ some ' ' ∧ s.getLast? ≠ some '.'

/-- What `join` may do with two accepted paths. -/
inductive JoinOutcome (N : Normalizer) (p q : VaultPath) : Except PathError VaultPath → Prop
  | joined {r : VaultPath} (valid : parse N r.text = .ok r)
      (segments : r.segments = p.segments ++ q.segments) (beneath : r.startsWith p)
      (depth : r.depth = p.depth + q.depth) : JoinOutcome N p q (.ok r)
  | tooLong (exceeded : 4096 < byteLen (joined (p.segments ++ q.segments))) :
      JoinOutcome N p q (.error .tooLong)
  | tooDeep (exceeded : 64 < p.depth + q.depth) : JoinOutcome N p q (.error .tooDeep)

theorem validateSegment_ok (h : validateSegment s = .ok ()) :
    s ≠ ['.'] ∧ s ≠ ['.', '.'] ∧ byteLen s ≤ 255 ∧ s.getLast? ≠ some ' ' ∧
      s.getLast? ≠ some '.' := by
  obtain ⟨htraversal, h⟩ := of_check h
  obtain ⟨hlength, h⟩ := of_check h
  obtain ⟨hlast, -⟩ := of_check h
  rw [not_or] at htraversal hlast
  exact ⟨htraversal.1, htraversal.2, Nat.not_lt.mp hlength, hlast.1, hlast.2⟩

theorem IsRoute.bounded (h : IsRoute N segs) : Bounded ⟨joined segs⟩ := by
  refine ⟨Nat.le_trans (Nat.le_of_eq (congrArg List.length h.segments_eq)) h.depth, h.length,
    ?_, ?_⟩
  · by_cases hsegs : segs = []
    · exact .inl (hsegs ▸ rfl)
    · exact .inr ((splitOn_joined hsegs h.slashless).trans h.segments_eq.symm)
  · rw [h.segments_eq]
    exact fun s hs => ⟨(h.segment s hs).nonempty, validateSegment_ok (h.segment s hs).valid⟩

theorem IsRoute.joinOutcome (h : IsRoute N segs) (hmore : IsRoute N more) :
    JoinOutcome N ⟨joined segs⟩ ⟨joined more⟩
      (VaultPath.join N ⟨joined segs⟩ ⟨joined more⟩) := by
  rw [h.join_eq hmore]
  split
  next hlength => exact .tooLong (by rwa [h.segments_eq, hmore.segments_eq])
  next hlength =>
    split
    next hdepth =>
      refine .tooDeep ?_
      rwa [h.depth_eq, hmore.depth_eq, ← length_append]
    next hdepth =>
      have hroute : IsRoute N (segs ++ more) :=
        ⟨fun s hs => (mem_append.mp hs).elim (h.segment s) (hmore.segment s),
          Nat.not_lt.mp hdepth, Nat.not_lt.mp hlength⟩
      refine .joined hroute.parse_eq ?_ ?_ ?_
      · rw [hroute.segments_eq, h.segments_eq, hmore.segments_eq]
      · exact (hroute.startsWith_iff h).mpr (prefix_append segs more)
      · rw [hroute.depth_eq, h.depth_eq, hmore.depth_eq, length_append]

theorem IsRoute.parent_valid (h : IsRoute N segs)
    (hparent : VaultPath.parent ⟨joined segs⟩ = some q) : parse N q.text = .ok q := by
  rw [h.parent_eq] at hparent
  split at hparent
  next => cases hparent
  next hsegs =>
    rw [← Option.some.inj hparent]
    rw [← dropLast_append_getLast hsegs] at h
    exact h.of_append.parse_eq

/-- The path as the operations of a Vault take it. -/
def VaultPath.toDomain (p : VaultPath) : VaultDomain.VaultPath := p.segments.map String.ofList

/-- Accepted paths are told apart by their segments. -/
theorem toDomain_injective (hp : parse N p.text = .ok p) (hq : parse N q.text = .ok q)
    (h : p.toDomain = q.toDomain) : p = q := by
  obtain ⟨segs, hroute, rfl⟩ := route_of_parse hp
  obtain ⟨more, hmore, rfl⟩ := route_of_parse hq
  have hsegments := map_injective_iff.mpr (fun _ _ => String.ofList_inj.mp) h
  rw [hroute.segments_eq, hmore.segments_eq] at hsegments
  rw [hsegments]

/-- **THE VALIDATED SET IS CLOSED** under parsing, parents and joins within the limits, and URL
    paths are read back. -/
theorem validated_paths_closed (N : Normalizer) (P : PercentCoding) :
    (∀ t p, parse N t = .ok p → parse N p.text = .ok p ∧ Bounded p) ∧
    (∀ p q, parse N p.text = .ok p → p.parent = some q → parse N q.text = .ok q) ∧
    (∀ p q, parse N p.text = .ok p → parse N q.text = .ok q → JoinOutcome N p q (p.join N q)) ∧
    (∀ p, parse N p.text = .ok p → ∃ encoded,
      noteResourceUri P p = "vault://note/".toList ++ encoded ∧
      fromUrlPath N P encoded = .ok p ∧ fromUrlPath N P ('/' :: encoded) = .ok p) := by
  refine ⟨fun t p h => ?_, fun p q h hparent => ?_, fun p q hp hq => ?_, fun p h => ?_⟩
  · obtain ⟨segs, hroute, rfl⟩ := route_of_parse h
    exact ⟨hroute.parse_eq, hroute.bounded⟩
  · obtain ⟨segs, hroute, rfl⟩ := route_of_parse h
    exact hroute.parent_valid hparent
  · obtain ⟨segs, hroute, rfl⟩ := route_of_parse hp
    obtain ⟨more, hmore, rfl⟩ := route_of_parse hq
    exact hroute.joinOutcome hmore
  · obtain ⟨segs, hroute, rfl⟩ := route_of_parse h
    exact ⟨encodedPath P ⟨joined segs⟩, rfl, hroute.fromUrlPath_eq⟩

/-- Normal without combining characters. -/
def plain : Normalizer where
  nfc := id
  idempotent := fun _ => rfl
  controlFree := fun _ h => h
  markers := fun _ _ _ h => h
  splits := fun _ => (map_id _).symm

/-- A triple is its byte, and everything else is kept. -/
def percentDecode : List UInt8 → List UInt8
  | byte :: first :: second :: rest =>
    match decide (byte = percent), hexPair first second with
    | true, some value => value :: percentDecode rest
    | _, _ => byte :: percentDecode (first :: second :: rest)
  | bytes => bytes

def percentCoding : PercentCoding where
  decode := percentDecode
  decode_nil := rfl
  decode_plain b rest h := by
    match rest with
    | [] | [_] => rfl
    | first :: second :: rest => simp [percentDecode, h]
  decode_triple first second b rest h := by simp [percentDecode, h]
  encodeByte b := if isAlphanumeric b then [Char.ofNat b.toNat] else triple b
  encode_plain b h := if_pos h
  encode_triple b h := if_neg (Bool.eq_false_iff.mp h)

theorem validated_paths_closed_percent :
    parse plain "a b/50%25.md".toList = .ok ⟨"a b/50%25.md".toList⟩ ∧
      Bounded ⟨"a b/50%25.md".toList⟩ ∧
      fromUrlPath plain percentCoding "a%20b/50%2525%2Emd".toList = .ok ⟨"a b/50%25.md".toList⟩ := by
  have hparse : parse plain "a b/50%25.md".toList = .ok ⟨"a b/50%25.md".toList⟩ := by decide
  obtain ⟨hfirst, -, -, hurl⟩ := validated_paths_closed plain percentCoding
  obtain ⟨encoded, huri, hdecode, -⟩ := hurl _ hparse
  have hencoded : encoded = "a%20b/50%2525%2Emd".toList := by
    refine append_cancel_left (huri.symm.trans ?_)
    decide
  exact ⟨hparse, (hfirst _ _ hparse).2, hencoded ▸ hdecode⟩

end Algebra

end LogicalPath
