import McpVault.PathProofs

/-! # Limits and cursors of tool requests

A listing tool takes a limit and a cursor.  The cursor is the text of an offset, which comes back
as the offset it was made of.  A read takes a number of bytes; it cuts the bytes of the note
first and asks afterwards whether what is left is text. -/

namespace ToolRequest

open List Option
open LogicalPath (byteLen bytesOf decodeUtf8)
open PlainText (Text parseUnsigned parseUnsigned_toDigits)

structure ToolError where
  (code message : String)
  retryable : Bool
  deriving DecidableEq

def maxToolLimit : Nat := 100

def maxOffset : Nat := 1000000

/-- `u32::MAX`. -/
def maxU32 : Nat := 2 ^ 32 - 1

/-- A page size from 1 to 100, or the default. -/
def boundedLimit (value : Option Nat) (default : Nat) : Except ToolError Nat :=
  let value := value.getD default
  if value = 0 ∨ maxToolLimit < value then
    .error ⟨"invalid_argument", "limit must be between 1 and 100", false⟩
  else .ok value

/-- `str::parse::<u32>`. -/
def parseU32 : Text → Option Nat := parseUnsigned (2 ^ 32)

def cursorStart : Text := "offset:".toList

/-- `format!("offset:{}")`. -/
def offsetCursor (offset : Nat) : Text := cursorStart ++ Nat.toDigits 10 offset

def cursorRefusal : ToolError := ⟨"invalid_argument", "cursor is out of bounds", false⟩

/-- An offset, behind its label. -/
def parseCursor : Option Text → Except ToolError Nat
  | none => .ok 0
  | some value =>
    match (LogicalPath.stripPrefix value cursorStart).bind parseU32 with
    | none => .error ⟨"invalid_argument", "cursor is invalid", false⟩
    | some offset => if maxOffset < offset then .error cursorRefusal else .ok offset

theorem boundedLimit_ok {limit : Option Nat} {default L : Nat}
    (h : boundedLimit limit default = .ok L) : 0 < L ∧ L ≤ 100 := by
  obtain ⟨hbounds, h⟩ := Fallible.of_check h
  cases h
  have hmost : maxToolLimit = 100 := rfl
  omega

/-- A cursor is read as the offset it was made of. -/
theorem parseCursor_offsetCursor {offset : Nat} (h : offset ≤ maxU32) :
    parseCursor (some (offsetCursor offset)) =
      if maxOffset < offset then .error cursorRefusal else .ok offset := by
  rw [parseCursor, offsetCursor, LogicalPath.stripPrefix_append, bind_some, parseU32,
    parseUnsigned_toDigits (Nat.lt_of_le_pred (by decide) h)]

/-! ## Bounded reads -/

def defaultReadBytes : Nat := 128 * 1024

def maxReadBytes : Nat := 1024 * 1024

def boundedReadBytes (value : Option Nat) : Except ToolError Nat :=
  let value := value.getD defaultReadBytes
  if value = 0 ∨ maxReadBytes < value then
    .error ⟨"invalid_argument", "max_bytes must be between 1 and 1048576", false⟩
  else .ok value

/-- One byte more is read, to see if there is more. -/
def readBounded (bytes : List UInt8) (maxBytes : Nat) : List UInt8 × Bool :=
  let read := bytes.take (maxBytes + 1)
  let truncated := decide (maxBytes < read.length)
  (if truncated then read.take maxBytes else read, truncated)

structure NoteRead where
  truncated : Bool
  content : Option Text
  binary : Bool
  deriving DecidableEq

/-- `read_note`, from the version's bytes. -/
def readNote (maxBytes : Option Nat) (bytes : List UInt8) : Except ToolError NoteRead := do
  let maxBytes ← boundedReadBytes maxBytes
  let (bytes, truncated) := readBounded bytes maxBytes
  let text := decodeUtf8 bytes
  pure ⟨truncated, text, text.isNone⟩

/-- The start of a text, as much as fits. -/
def NoteRead.StartOf (note : Text) (limit : Nat) (r : NoteRead) : Prop :=
  r.binary = false ∧ ∃ text, r.content = some text ∧ text <+: note ∧ byteLen text ≤ limit ∧
    (limit < byteLen note → limit ≤ byteLen text + 3) ∧
    (r.truncated ↔ byteLen text < byteLen note)

/-- The limit is between two characters. -/
def CutsBetween (note : Text) (limit : Nat) : Prop :=
  byteLen note ≤ limit ∨ ∃ text, text <+: note ∧ byteLen text = limit

theorem readBounded_eq (bytes : List UInt8) (limit : Nat) :
    readBounded bytes limit = (bytes.take limit, decide (limit < bytes.length)) := by
  have hlen : limit < (bytes.take (limit + 1)).length ↔ limit < bytes.length := by
    rw [length_take]
    omega
  simp only [readBounded, hlen, decide_eq_true_eq, take_take, Nat.min_eq_left (Nat.le_succ _)]
  split_ifs with hmore
  · rfl
  · rw [take_of_length_le (by omega), take_of_length_le (by omega)]

variable {limit : Nat} {note : Text}

theorem readNote_eq (hpos : 1 ≤ limit) (hle : limit ≤ maxReadBytes) (bytes : List UInt8) :
    readNote (some limit) bytes = .ok ⟨decide (limit < bytes.length),
      decodeUtf8 (bytes.take limit), (decodeUtf8 (bytes.take limit)).isNone⟩ := by
  have hlimit : boundedReadBytes (some limit) = .ok limit := by
    rw [boundedReadBytes, getD_some, if_neg (by omega)]
  simp only [readNote, hlimit, readBounded_eq]
  rfl

/-- A text's start is one if no character is cut. -/
theorem decodeUtf8_take_iff {text : Text} : decodeUtf8 ((bytesOf note).take limit) = some text ↔
      text <+: note ∧ byteLen text = min limit (byteLen note) := by
  constructor
  · intro h
    have hbytes := LogicalPath.bytesOf_of_decodeUtf8 h
    refine ⟨LogicalPath.prefix_of_bytes (hbytes ▸ take_prefix _ _), ?_⟩
    rw [byteLen, hbytes, length_take, byteLen]
  · rintro ⟨⟨rest, rfl⟩, hlen⟩
    have htake : (bytesOf (text ++ rest)).take limit = bytesOf text := by
      rw [take_eq_take_min, ← byteLen, ← hlen, LogicalPath.bytesOf_append]
      exact take_left
    rw [htake, LogicalPath.decodeUtf8_bytesOf]

theorem isSome_decodeUtf8_take_iff :
    (∃ text, decodeUtf8 ((bytesOf note).take limit) = some text) ↔ CutsBetween note limit := by
  simp only [decodeUtf8_take_iff]
  constructor
  · rintro ⟨text, hstart, hlen⟩
    rcases Nat.le_total (byteLen note) limit with hle | hle
    · exact .inl hle
    · exact .inr ⟨text, hstart, hlen.trans (Nat.min_eq_left hle)⟩
  · rintro (hle | ⟨text, hstart, hlen⟩)
    · exact ⟨note, prefix_rfl, (Nat.min_eq_right hle).symm⟩
    · obtain ⟨rest, rfl⟩ := hstart
      refine ⟨text, prefix_append text rest, ?_⟩
      rw [LogicalPath.byteLen_append]
      omega

/-- Read as text iff the limit cuts no character. -/
theorem readNote_text_iff (note : Text) {limit : Nat} (hpos : 1 ≤ limit)
    (hle : limit ≤ maxReadBytes) : ∃ r, readNote (some limit) (bytesOf note) = .ok r ∧
      (r.StartOf note limit ↔ CutsBetween note limit) ∧
      (r.binary ↔ ¬CutsBetween note limit) := by
  refine ⟨_, readNote_eq hpos hle _, ?_, ?_⟩
  · rw [← isSome_decodeUtf8_take_iff]
    constructor
    · rintro ⟨_, text, htext, _⟩
      exact ⟨text, htext⟩
    · rintro ⟨text, htext⟩
      obtain ⟨hstart, hlen⟩ := decodeUtf8_take_iff.mp htext
      refine ⟨by simp [htext], text, htext, hstart, by omega, by omega, ?_⟩
      rw [decide_eq_true_iff, ← byteLen]
      omega
  · rw [← isSome_decodeUtf8_take_iff, ← isSome_iff_exists]
    simp

theorem readNote_text_at_end : ∃ r, readNote (some 3) (bytesOf ['a', 'é', 'b']) = .ok r ∧
      (r.StartOf ['a', 'é', 'b'] 3 ↔ CutsBetween ['a', 'é', 'b'] 3) ∧
      (r.binary ↔ ¬CutsBetween ['a', 'é', 'b'] 3) :=
  readNote_text_iff _ (by decide) (by decide)

/-- The second byte of the note is half a character. -/
theorem readNote_cut_binary :
    readNote (some 2) (bytesOf ['a', 'é', 'b']) = .ok ⟨true, none, true⟩ := by
  decide +kernel

end ToolRequest
