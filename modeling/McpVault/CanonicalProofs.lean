import McpVault.PathProofs
import McpVault.YamlTableProofs

/-! # Canonical Markdown of current memories

A memory is kept as a Markdown file with a front matter, which the rebuild reads back.  What both
kinds of files share is here: how strings and scores are written, how a document is taken apart
(`parse_document`) and how fields are read.  `parseDocument_ok` and `parseDocument_oneLine`
reduce the text to its front matter as a YAML document. -/

namespace MemoryFormat

open List
open LogicalPath (byteLen bytesOf decodeUtf8 VaultPath Normalizer stripPrefix)
open PlainText (Text)
open YamlBlock (Value Scalar Field Record Entry Document Reader OneLine Table present valueOf intText
  inI64 fence splitOnce)

/-- Errors, by the texts that the source gives them. -/
inductive MemoryError where
  | invalidInput (message : String)
  | generatedOutput (code : String)
  | markdown
  | conflict
  | state
  deriving DecidableEq

/-! ## Scores -/

/-- An `f64`: a rational number, or none. -/
inductive Double where
  | finite (q : ℚ)
  | infinite
  | nan
  deriving DecidableEq

/-- A score that `validate_score` accepts. -/
def Double.inUnit : Double → Bool
  | .finite q => decide (0 ≤ q ∧ q ≤ 1)
  | _ => false

/-- Millionths, rounded half to even. -/
def micros (q : ℚ) : Nat :=
  let scaled := q * 1000000
  let n := scaled.floor.toNat
  if scaled - n < 1 / 2 ∨ scaled - n = 1 / 2 ∧ n % 2 = 0 then n else n + 1

def decimals (k : Nat) : Text :=
  Nat.toDigits 10 (k / 1000000) ++ '.' :: (Nat.toDigits 10 (k % 1000000)).leftpad 6 '0'

/-- `{:.6}`. -/
def Double.fixed6 : Double → Text
  | .finite q => if q < 0 then '-' :: decimals (micros (-q)) else decimals (micros q)
  | .infinite => "inf".toList
  | .nan => "NaN".toList

/-- The number that digits and a point stand for. -/
def readDecimal (t : Text) : Option ℚ :=
  match t.splitOn '.' with
  | [a, b] =>
    if a.all Char.isDigit && b.all Char.isDigit then
      some ((Nat.ofDigitChars 10 a 0 : ℚ) + (Nat.ofDigitChars 10 b 0 : ℚ) / (10 ^ b.length : ℚ))
    else none
  | _ => none

/-- Reading a decimal gives a close double. -/
structure Rounding where
  nearest : ℚ → ℚ
  near : ∀ q, 0 ≤ q → q ≤ 1 → |nearest q - q| < 1 / 2000000
  inUnit : ∀ q, 0 ≤ q → q ≤ 1 → 0 ≤ nearest q ∧ nearest q ≤ 1

section Scores

variable {c : Char} {k n : Nat} {q : ℚ}

theorem floor_bounds (hq : 0 ≤ q) : (((q * 1000000).floor.toNat : ℕ) : ℚ) ≤ q * 1000000 ∧
      q * 1000000 < ((q * 1000000).floor.toNat : ℕ) + 1 := by
  have hscaled : 0 ≤ q * 1000000 := mul_nonneg hq (by norm_num)
  have hfloor : (0 : ℤ) ≤ (q * 1000000).floor := Rat.le_floor_iff.mpr (by simpa using hscaled)
  have hcast : (((q * 1000000).floor.toNat : ℕ) : ℚ) = ((q * 1000000).floor : ℚ) := by
    exact_mod_cast congrArg (Int.cast : ℤ → ℚ) (Int.toNat_of_nonneg hfloor)
  rw [hcast]
  exact ⟨Rat.floor_le _, by exact_mod_cast Rat.lt_floor_add_one (q * 1000000)⟩

theorem micros_near (hq : 0 ≤ q) (h : |q - (k : ℚ) / 1000000| < 1 / 2000000) : micros q = k := by
  obtain ⟨hlow, hhigh⟩ := abs_lt.mp h
  obtain ⟨hle, hlt⟩ := floor_bounds hq
  unfold micros
  simp only
  generalize (q * 1000000).floor.toNat = n at hle hlt ⊢
  -- the number is less than a half away from `k`, which is `n` or its successor
  have hnk : (n : ℚ) < k + 1 := by linarith
  have hkn : (k : ℚ) < n + 2 := by linarith
  have hcases : k = n ∨ k = n + 1 := by
    have h₁ : n < k + 1 := by exact_mod_cast hnk
    have h₂ : k < n + 2 := by exact_mod_cast hkn
    omega
  rcases hcases with rfl | rfl
  · rw [if_pos]
    left
    linarith
  · have hup : (1 : ℚ) / 2 < q * 1000000 - n := by
      push_cast at hlow
      linarith
    rw [if_neg]
    rintro (hless | ⟨hhalf, _⟩)
    · linarith
    · linarith

theorem micros_error (hq : 0 ≤ q) : |q - (micros q : ℚ) / 1000000| ≤ 1 / 2000000 := by
  obtain ⟨hle, hlt⟩ := floor_bounds hq
  unfold micros
  simp only
  generalize (q * 1000000).floor.toNat = n at hle hlt ⊢
  rw [abs_le]
  split_ifs with hdown
  · have hhalf : q * 1000000 - n ≤ 1 / 2 := by
      rcases hdown with hless | ⟨heq, _⟩
      · exact le_of_lt hless
      · exact le_of_eq heq
    constructor <;> linarith
  · push Not at hdown
    push_cast
    constructor <;> linarith

theorem micros_le (hq : 0 ≤ q) (hone : q ≤ 1) : micros q ≤ 1000000 := by
  obtain ⟨hlow, _⟩ := abs_le.mp (micros_error hq)
  have hlt : (micros q : ℚ) < 1000001 := by linarith
  have hnat : micros q < 1000001 := by exact_mod_cast hlt
  omega

theorem isDigit_of_mem_toDigits (h : c ∈ Nat.toDigits 10 n) : c.isDigit :=
  Nat.isDigit_of_mem_toDigits (by decide) (by decide) h

theorem ofDigitChars_leftpad (n : Nat) (t : Text) :
    Nat.ofDigitChars 10 (t.leftpad n '0') 0 = Nat.ofDigitChars 10 t 0 := by
  have hzeros : ∀ k, Nat.ofDigitChars 10 (List.replicate k '0') 0 = 0 := by
    intro k
    induction k with
    | zero => rfl
    | succ k ih => exact ih
  unfold List.leftpad
  rw [Nat.ofDigitChars_append, hzeros]

theorem mem_leftpad {t : Text} (h : c ∈ t.leftpad n '0') : c = '0' ∨ c ∈ t := by
  rcases mem_append.mp h with h | h
  · exact .inl (eq_of_mem_replicate h)
  · exact .inr h

theorem decimals_digits (h : c ∈ decimals k) : c.isDigit ∨ c = '.' := by
  rcases mem_append.mp h with h | h
  · exact .inl (isDigit_of_mem_toDigits h)
  · rcases mem_cons.mp h with rfl | h
    · exact .inr rfl
    · rcases mem_leftpad h with rfl | h
      · exact .inl rfl
      · exact .inl (isDigit_of_mem_toDigits h)

theorem readDecimal_decimals (k : Nat) : readDecimal (decimals k) = some ((k : ℚ) / 1000000) := by
  have hnot : ∀ t : Text, (∀ c ∈ t, c.isDigit) → '.' ∉ t :=
    fun t ht hmem => absurd (ht _ hmem) (by decide)
  have hint : ∀ c ∈ Nat.toDigits 10 (k / 1000000), c.isDigit :=
    fun c hc => isDigit_of_mem_toDigits hc
  have hfrac : ∀ c ∈ (Nat.toDigits 10 (k % 1000000)).leftpad 6 '0', c.isDigit := by
    intro c hc
    rcases mem_leftpad hc with rfl | hc
    · rfl
    · exact isDigit_of_mem_toDigits hc
  have hlen : ((Nat.toDigits 10 (k % 1000000)).leftpad 6 '0').length = 6 := by
    have hle : (Nat.toDigits 10 (k % 1000000)).length ≤ 6 :=
      (Nat.length_toDigits_le_iff (by decide) (by decide)).mpr (Nat.mod_lt k (by decide))
    rw [length_leftpad]
    omega
  have hsplit : (decimals k).splitOn '.' = [Nat.toDigits 10 (k / 1000000),
      (Nat.toDigits 10 (k % 1000000)).leftpad 6 '0'] := by
    have hjoin : decimals k = ['.'].intercalate [Nat.toDigits 10 (k / 1000000),
        (Nat.toDigits 10 (k % 1000000)).leftpad 6 '0'] := by
      rw [intercalate_cons_cons, intercalate_singleton, append_assoc]
      rfl
    rw [hjoin]
    refine splitOn_intercalate _ ?_ (cons_ne_nil _ _)
    intro t ht
    rcases mem_cons.mp ht with rfl | ht
    · exact hnot _ hint
    · exact mem_singleton.mp ht ▸ hnot _ hfrac
  unfold readDecimal
  rw [hsplit]
  simp only
  rw [if_pos (by rw [Bool.and_eq_true, all_eq_true, all_eq_true]; exact ⟨hint, hfrac⟩), hlen,
    ofDigitChars_leftpad, Nat.ofDigitChars_ten_toDigits, Nat.ofDigitChars_ten_toDigits]
  congr 1
  have hdiv : (k : ℚ) = 1000000 * (k / 1000000 : ℕ) + (k % 1000000 : ℕ) := by
    exact_mod_cast (Nat.div_add_mod k 1000000).symm
  rw [hdiv]
  ring

/-- A score comes back the same to six decimals. -/
theorem Rounding.fixed6 (R : Rounding) (h : (Double.finite q).inUnit) :
    ∃ r, (readDecimal (Double.finite q).fixed6).map R.nearest = some r ∧
      (Double.finite r).inUnit ∧ (Double.finite r).fixed6 = (Double.finite q).fixed6 := by
  obtain ⟨hzero, hone⟩ := of_decide_eq_true h
  have htext : ∀ x : ℚ, 0 ≤ x → (Double.finite x).fixed6 = decimals (micros x) :=
    fun x hx => if_neg (not_lt.mpr hx)
  have hlow : (0 : ℚ) ≤ (micros q : ℚ) / 1000000 := by positivity
  have hhigh : (micros q : ℚ) / 1000000 ≤ 1 := by
    rw [div_le_one (by norm_num)]
    exact_mod_cast micros_le hzero hone
  obtain ⟨hrzero, hrone⟩ := R.inUnit _ hlow hhigh
  refine ⟨R.nearest ((micros q : ℚ) / 1000000), ?_, decide_eq_true ⟨hrzero, hrone⟩, ?_⟩
  · rw [htext q hzero, readDecimal_decimals]
    rfl
  · rw [htext q hzero, htext _ hrzero, micros_near hrzero (R.near _ hlow hhigh)]

theorem fixed6_good {x : Double} (h : x.inUnit) : (Scalar.real x.fixed6).Good := by
  cases x with
  | finite q =>
    have htext : (Double.finite q).fixed6 = decimals (micros q) :=
      if_neg (not_lt.mpr (of_decide_eq_true h).1)
    show (∀ c ∈ (Double.finite q).fixed6, c.isDigit ∨ c = '.') ∧ '.' ∈ (Double.finite q).fixed6
    rw [htext]
    exact ⟨fun c hc => decimals_digits hc, mem_append_right _ mem_cons_self⟩
  | infinite | nan => cases h

end Scores

/-! ## Identifiers, paths and kinds -/

/-- UUIDs: hexadecimal digits and hyphens. -/
structure Uuid where
  text : Nat → Text
  parse : Text → Option Nat
  parse_text : ∀ id, parse (text id) = some id
  hex : ∀ id, ∀ c ∈ text id, c.isDigit ∨ 'a' ≤ c ∧ c ≤ 'f' ∨ c = '-'

/-- Identifiers as decimal numbers. -/
def decimalIds : Uuid where
  text := Nat.toDigits 10
  parse := fun t => some (Nat.ofDigitChars 10 t 0)
  parse_text := fun _ => congrArg some Nat.ofDigitChars_ten_toDigits
  hex := fun _ _ hc => .inl (isDigit_of_mem_toDigits hc)

/-- A `VaultPath`: constructors go through the parser. -/
abbrev CheckedPath (N : Normalizer) : Type := { p : VaultPath // LogicalPath.parse N p.text = .ok p }

/-- `VaultPath::parse`. -/
def checkPath (N : Normalizer) (t : Text) : Option (CheckedPath N) :=
  match h : LogicalPath.parse N t with
  | .ok p => some ⟨p, LogicalPath.parse_text_iff.mpr (LogicalPath.route_of_parse h)⟩
  | .error _ => none

theorem checkPath_text {N : Normalizer} (p : CheckedPath N) : checkPath N p.1.text = some p := by
  unfold checkPath
  split
  next q hq =>
    have heq : q = p.1 := Except.ok.inj (hq.symm.trans p.2)
    exact congrArg some (Subtype.ext heq)
  next e he => cases he.symm.trans p.2

def fileName (p : VaultPath) : Option Text := p.segments.getLast?

def stripSuffix (t suffix : Text) : Option Text :=
  if suffix.isSuffixOf t then some (t.take (t.length - suffix.length)) else none

theorem stripSuffix_append (t suffix : Text) : stripSuffix (t ++ suffix) suffix = some t := by
  unfold stripSuffix
  rw [if_pos (isSuffixOf_iff_suffix.mpr (suffix_append t suffix)), length_append,
    Nat.add_sub_cancel, take_left]

/-- The id in the name of a canonical file. -/
def filenameId (U : Uuid) (p : VaultPath) : Option Nat :=
  (fileName p).bind fun name => (stripSuffix name ".md".toList).bind U.parse

inductive MemoryType where
  | preference
  | constraint
  | decision
  | experience
  | procedure
  | state
  deriving DecidableEq

def MemoryType.asStr : MemoryType → Text
  | .preference => "preference".toList
  | .constraint => "constraint".toList
  | .decision => "decision".toList
  | .experience => "experience".toList
  | .procedure => "procedure".toList
  | .state => "state".toList

def MemoryType.all : List MemoryType :=
  [.preference, .constraint, .decision, .experience, .procedure, .state]

/-- `MemoryType::try_from`. -/
def MemoryType.tryFrom (t : Text) : Option MemoryType := MemoryType.all.find? fun k => k.asStr = t

/-! ## Writing -/

/-- `str::replace` of one character. -/
def replaceChar (c : Char) (by_ : Text) (t : Text) : Text :=
  t.flatMap fun d => if d = c then by_ else [d]

def quote (value : Text) : Text :=
  '"' :: (replaceChar '"' ['\\', '"'] (replaceChar '\\' ['\\', '\\'] value) ++ ['"'])

theorem quote_eq (value : Text) : quote value = YamlBlock.quote value := by
  have hescape : replaceChar '"' ['\\', '"'] (replaceChar '\\' ['\\', '\\'] value) =
      value.flatMap YamlBlock.escape := by
    unfold replaceChar
    rw [flatMap_assoc]
    congr 1
    funext c
    unfold YamlBlock.escape
    split_ifs with hslash hquote
    · rfl
    · rw [hquote]
      rfl
    · simp [hquote]
  unfold quote YamlBlock.quote
  rw [hescape]

/-- A document as it is written, each line with its end. -/
def writeLines (ls : List YamlBlock.Line) : Text := ls.flatMap fun l => l.text ++ ['\n']

theorem writeLines_eq {ls : List YamlBlock.Line} (h : ls ≠ []) :
    writeLines ls = YamlBlock.joinLines ls ++ ['\n'] := by
  induction ls with
  | nil => exact absurd rfl h
  | cons l ls ih =>
    rcases Decidable.eq_or_ne ls [] with rfl | hne
    · rw [YamlBlock.joinLines_singleton]
      exact append_nil _
    · rw [YamlBlock.joinLines_cons hne, append_assoc, cons_append, ← ih hne]
      show (l.text ++ ['\n']) ++ writeLines ls = _
      rw [append_assoc]
      rfl

/-- `{key}: {value}`. -/
def line (key : String) (value : Text) : Text := key.toList ++ ": ".toList ++ value ++ ['\n']

def optionalLine {α : Type} (key : String) (value : Option α) (write : α → Text) : Text :=
  value.elim [] fun v => line key (write v)

def writeStringList (key : String) (values : List Text) : Text :=
  if values.isEmpty then key.toList ++ ": []\n".toList
  else key.toList ++ ":\n".toList ++ values.flatMap fun value => "  - ".toList ++ quote value ++ ['\n']

def indentedLine {α : Type} (key : String) (value : Option α) (write : α → Text) : Text :=
  value.elim [] fun v => "    ".toList ++ line key (write v)

/-! ### Tables as they are written -/

def quoted (t : Text) : Field := .scalar (.quoted t)

def number (n : Int) : Field := .scalar (.int n)

section Tables

section

variable (lead item : Text) (key : String)

theorem write_scalar (s : Scalar) : writeLines ((Field.scalar s).lines lead item key.toList) =
      lead ++ line key (s.bare ++ s.quoted?.elim [] quote) := by
  have hquote : s.quoted?.elim [] quote = s.quoted?.elim [] YamlBlock.quote := by
    cases s.quoted? with
    | none => rfl
    | some t => exact quote_eq t
  rw [hquote]
  show (lead ++ (key.toList ++ ':' :: ' ' :: s.bare) ++ s.quoted?.elim [] YamlBlock.quote) ++
    ['\n'] ++ [] = _
  unfold line
  simp only [append_assoc]
  rfl

theorem write_quoted (t : Text) :
    writeLines ((quoted t).lines lead item key.toList) = lead ++ line key (quote t) :=
  write_scalar lead item key (.quoted t)

theorem write_number (n : Int) :
    writeLines ((number n).lines lead item key.toList) = lead ++ line key (intText n) := by
  refine (write_scalar lead item key (.int n)).trans ?_
  rw [show (Scalar.int n).bare ++ (Scalar.int n).quoted?.elim [] quote = intText n from
    append_nil _]

theorem write_real (t : Text) :
    writeLines ((Field.scalar (.real t)).lines lead item key.toList) = lead ++ line key t := by
  refine (write_scalar lead item key (.real t)).trans ?_
  rw [show (Scalar.real t).bare ++ (Scalar.real t).quoted?.elim [] quote = t from
    append_nil _]

end

theorem intText_natCast (n : Nat) : intText n = Nat.toDigits 10 n := by
  unfold intText
  rw [if_neg (Int.not_lt.mpr (Int.natCast_nonneg n)), Int.natAbs_natCast]

theorem write_items (lead : Text) (ss : List Text) :
    writeLines (YamlBlock.itemLines lead ss) = ss.flatMap fun s => lead ++ quote s ++ ['\n'] := by
  unfold writeLines YamlBlock.itemLines
  rw [flatMap_map]
  refine congrArg (fun f => ss.flatMap f) (funext fun s => ?_)
  rw [quote_eq]
  rfl

theorem write_strings (key : String) (ss : List Text) :
    writeLines ((Field.strings ss).lines [] YamlBlock.dash key.toList) = writeStringList key ss := by
  unfold writeStringList
  cases ss with
  | nil =>
    show key.toList ++ ':' :: " []".toList ++ [] ++ ['\n'] ++ [] = _
    simp
  | cons s ss =>
    show (key.toList ++ [':'] ++ [] ++ ['\n']) ++
      writeLines (YamlBlock.itemLines YamlBlock.dash (s :: ss)) = _
    rw [write_items]
    simp only [append_assoc]
    rfl

theorem writeLines_flatMap {α : Type} (xs : List α) (w : α → List YamlBlock.Line) :
    writeLines (xs.flatMap w) = xs.flatMap fun x => writeLines (w x) := flatMap_assoc

theorem writeLines_elim {α : Type} (o : Option α) (w : α → List YamlBlock.Line) :
    writeLines (o.elim [] w) = o.elim [] fun x => writeLines (w x) := by
  cases o with
  | none | some x => rfl

theorem write_document (t : Table Entry) : writeLines (Document.lines (present t)) =
    t.flatMap fun f => f.2.elim [] fun e => writeLines (e.lines f.1.toList) := by
  unfold Document.lines
  rw [YamlBlock.present_flatMap fun k e => Entry.lines k e, writeLines_flatMap]
  simp only [writeLines_elim]

/-- The dash stands on the line of the first key. -/
theorem write_record (key : String) (v : Field) (t : Table Field) :
    writeLines (Record.lines (present ((key, some v) :: t))) =
      writeLines (v.lines YamlBlock.dash YamlBlock.deeperDash key.toList) ++
        t.flatMap fun f => f.2.elim [] fun v =>
          writeLines (v.lines YamlBlock.indent YamlBlock.deeperDash f.1.toList) := by
  show writeLines (v.lines YamlBlock.dash YamlBlock.deeperDash key.toList ++ (present t).flatMap _) = _
  rw [writeLines, flatMap_append, ← writeLines, ← writeLines,
    YamlBlock.present_flatMap fun k v => Field.lines YamlBlock.indent YamlBlock.deeperDash k v,
    writeLines_flatMap]
  simp only [writeLines_elim]

end Tables

/-- The whole file: fenced front matter, then the body. -/
def fileText (d : Document) (body : Text) : Text :=
  "---\n".toList ++ writeLines d.lines ++ "---\n\n".toList ++ body

/-! ### Sizes -/

/-- Two quotes, and a backslash per special character. -/
def quotedSize (t : Text) : Nat := byteLen t + t.countP (fun c => c = '\\' || c = '"') + 2

def lineSize (l : YamlBlock.Line) : Nat := byteLen l.head + l.scalar.elim 0 quotedSize + 1

/-- The bytes of a file: fences, lines and body. -/
def fileSize (d : Document) (body : Text) : Nat := 9 + (d.lines.map lineSize).sum + byteLen body

theorem byteLen_escaped (t : Text) : byteLen (t.flatMap YamlBlock.escape) =
    byteLen t + t.countP (fun c => c = '\\' || c = '"') := by
  induction t with
  | nil => rfl
  | cons c t ih =>
    have hcons : byteLen (c :: t) = byteLen [c] + byteLen t := LogicalPath.byteLen_append [c] t
    have hescape : byteLen (YamlBlock.escape c) =
        byteLen [c] + if (c = '\\' || c = '"') then 1 else 0 := by
      rcases Decidable.eq_or_ne c '\\' with rfl | hslash
      · decide
      · rcases Decidable.eq_or_ne c '"' with rfl | hquote
        · decide
        · simp [YamlBlock.escape, hslash, hquote]
    rw [flatMap_cons, LogicalPath.byteLen_append, countP_cons]
    omega

theorem byteLen_line (l : YamlBlock.Line) : byteLen (l.text ++ ['\n']) = lineSize l := by
  have hscalar : byteLen (l.scalar.elim [] YamlBlock.quote) = l.scalar.elim 0 quotedSize := by
    cases l.scalar with
    | none => rfl
    | some t =>
      have hquotes : byteLen ['"'] = 1 := by decide
      show byteLen (['"'] ++ (t.flatMap YamlBlock.escape ++ ['"'])) = quotedSize t
      rw [LogicalPath.byteLen_append, LogicalPath.byteLen_append, byteLen_escaped]
      unfold quotedSize
      omega
  unfold YamlBlock.Line.text lineSize
  rw [LogicalPath.byteLen_append, LogicalPath.byteLen_append, hscalar]
  rfl

theorem byteLen_fileText (d : Document) (body : Text) :
    byteLen (fileText d body) = fileSize d body := by
  have hlines : ∀ ls : List YamlBlock.Line, byteLen (writeLines ls) = (ls.map lineSize).sum := by
    intro ls
    induction ls with
    | nil => rfl
    | cons l ls ih =>
      show byteLen ((l.text ++ ['\n']) ++ writeLines ls) = _
      rw [LogicalPath.byteLen_append, byteLen_line, ih]
      rfl
  have hfences : byteLen "---\n".toList = 4 ∧ byteLen "---\n\n".toList = 5 := by decide
  unfold fileText fileSize
  rw [LogicalPath.byteLen_append, LogicalPath.byteLen_append, LogicalPath.byteLen_append, hlines]
  omega

/-! ## Reading -/

/-- `parse_document`: up to the first closing fence. -/
def parseDocument (yaml : Reader) (bytes : List UInt8) (limit : Nat) :
    Except MemoryError (Value × Text) :=
  if limit < bytes.length then .error (.invalidInput "managed current-memory file is too large")
  else
    match decodeUtf8 bytes with
    | none => .error .markdown
    | some text =>
      match stripPrefix text "---\n".toList with
      | none => .error .markdown
      | some rest =>
        match splitOnce fence rest with
        | none => .error .markdown
        | some (front, after) =>
          match yaml.load front with
          | none => .error .markdown
          | some root =>
            match stripPrefix after ['\n'] with
            | none => .error .markdown
            | some body => .ok (root, body)

section Documents

variable {yaml : Reader} {d : Document} {body : Text} {limit : Nat}

theorem Document.lines_ne_nil (h : d.WellFormed) : d.lines ≠ [] := by
  obtain ⟨e, rest, rfl⟩ := exists_cons_of_ne_nil h.ne_nil
  obtain ⟨tail, quoted, ls, hlines⟩ := YamlBlock.Entry.lines_cons e.1 e.2
  unfold Document.lines
  rw [flatMap_cons, hlines]
  exact cons_ne_nil _ _

theorem fileText_eq (h : d.WellFormed) :
    fileText d body = "---\n".toList ++ (d.text ++ (fence ++ ('\n' :: body))) := by
  unfold fileText
  rw [writeLines_eq (Document.lines_ne_nil h)]
  simp only [append_assoc]
  rfl

/-- What is left of `parse_document` for our files. -/
theorem parseDocument_fileText (h : d.WellFormed) :
    parseDocument yaml (bytesOf (fileText d body)) limit =
      if limit < byteLen (fileText d body) then
        .error (.invalidInput "managed current-memory file is too large")
      else
        match splitOnce fence (d.text ++ (fence ++ ('\n' :: body))) with
        | none => .error .markdown
        | some (front, after) =>
          match yaml.load front with
          | none => .error .markdown
          | some root =>
            match stripPrefix after ['\n'] with
            | none => .error .markdown
            | some body => .ok (root, body) := by
  unfold parseDocument
  rw [LogicalPath.decodeUtf8_bytesOf]
  have hstart : stripPrefix (fileText d body) "---\n".toList =
      some (d.text ++ (fence ++ ('\n' :: body))) := by
    rw [fileText_eq h]
    exact LogicalPath.stripPrefix_append _ _
  simp only [hstart]
  rfl

/-- One line per scalar is read as it is. -/
theorem parseDocument_oneLine (h : d.WellFormed) (hline : d.OneLine)
    (hsize : byteLen (fileText d body) ≤ limit) :
    parseDocument yaml (bytesOf (fileText d body)) limit = .ok (d.value, body) := by
  have hsplit : splitOnce fence (d.text ++ (fence ++ ('\n' :: body))) =
      some (d.text, '\n' :: body) := by
    rcases YamlBlock.fence_split h.lines_good ('\n' :: body) with hend | ⟨t, r, _, _, _, l, hl, s, hs, hmem⟩
    · exact hend
    · exact absurd (hline l hl s hs '\n' hmem) (by decide)
  have hstrip : stripPrefix ('\n' :: body) ['\n'] = some body :=
    LogicalPath.stripPrefix_append ['\n'] body
  rw [parseDocument_fileText h, if_neg (Nat.not_lt.mpr hsize)]
  simp only [hsplit, yaml.reads d h hline, hstrip]

/-- What is read at all has its line breaks folded. -/
theorem parseDocument_ok {x : Value × Text} (h : d.WellFormed)
    (hok : parseDocument yaml (bytesOf (fileText d body)) limit = .ok x) :
    byteLen (fileText d body) ≤ limit ∧ x = ((d.mapText YamlBlock.fold).value, body) := by
  rw [parseDocument_fileText h] at hok
  split_ifs at hok with hsize
  refine ⟨Nat.not_lt.mp hsize, ?_⟩
  rcases YamlBlock.fence_split h.lines_good ('\n' :: body) with hend | ⟨t, r, hcut, hstart, hmode, _⟩
  · have hstrip : stripPrefix ('\n' :: body) ['\n'] = some body :=
      LogicalPath.stripPrefix_append ['\n'] body
    have hsplit : splitOnce fence (d.text ++ (fence ++ ('\n' :: body))) =
        some (d.text, '\n' :: body) := hend
    simp only [hsplit] at hok
    rcases yaml.folds d h with hnone | hsome
    · simp only [hnone] at hok
      cases hok
    · simp only [hsome] at hok
      exact (Except.ok.inj hok).symm
  · have hsplit : splitOnce fence (d.text ++ (fence ++ ('\n' :: body))) = some (t, r) := hcut
    have hnone := yaml.unfinished d h t hstart hmode
    simp only [hsplit, hnone] at hok
    cases hok

end Documents

/-! ## Fields -/

def field (root : Value) (key : String) : Option Value :=
  match root with
  | .map fields => (fields.find? fun f => f.1 = key.toList).map (·.2)
  | _ => none

def asStr : Value → Option Text
  | .str t => some t
  | _ => none

def asI64 : Value → Option Int
  | .int n => some n
  | _ => none

section

variable (root : Value) (key : String)

def requiredString : Except MemoryError Text :=
  match (field root key).bind asStr with
  | some t => .ok t
  | none => .error .markdown

def optionalString : Option Text := (field root key).bind asStr

def requiredInteger : Except MemoryError Int :=
  match (field root key).bind asI64 with
  | some n => .ok n
  | none => .error .markdown

def optionalInteger : Except MemoryError (Option Int) :=
  match field root key with
  | none | some .null => .ok none
  | some value =>
    match asI64 value with
    | some n => .ok (some n)
    | none => .error .markdown

/-- `u64::try_from`, and a revision is not zero. -/
def requiredRevision : Except MemoryError UInt64 := do
  let value ← requiredInteger root key
  if value < 0 ∨ value = 0 then .error .markdown else .ok (UInt64.ofNat value.toNat)

end

/-- A real, or an integer taken as one. -/
def optionalFloat (R : Rounding) (root : Value) (key : String) :
    Except MemoryError (Option Double) :=
  match field root key with
  | none | some .null => .ok none
  | some (.real t) =>
    match (readDecimal t).map R.nearest with
    | some q => .ok (some (.finite q))
    | none => .error .markdown
  | some (.int n) => .ok (some (.finite n))
  | some _ => .error .markdown

def validateOptionalScore (value : Option Double) : Except MemoryError Unit :=
  if value.any fun x => !x.inUnit then .error .markdown else .ok ()

/-- An absent list is empty. -/
def stringList (root : Value) (key : String) : Except MemoryError (List Text) :=
  match field root key with
  | none => .ok []
  | some (.list values) =>
    match values.mapM asStr with
    | some texts => .ok texts
    | none => .error .markdown
  | some _ => .error .markdown

/-! ## Fields of a table -/

section Lookup

variable {α : Type} {value : α → Value} {t : Table α} {key : String}

/-- The mapping that a table is read as. -/
def tableValue (value : α → Value) (t : Table α) : Value :=
  .map ((present t).map fun e => (e.1, value e.2))

section

variable (hkeys : (t.map (·.1)).Nodup)

include hkeys

theorem field_table :
    field (tableValue value t) key = (valueOf t key).map value := by
  show ((((present t).map fun e => (e.1, value e.2)).find? fun f => f.1 = key.toList).map (·.2)) = _
  rw [List.find?_map]
  show (((present t).find? fun e => e.1 = key.toList).map _).map _ = _
  rw [YamlBlock.find_present hkeys, Option.map_map, Option.map_map]
  rfl

theorem requiredString_table {a : α} {s : Text}
    (h : valueOf t key = some a) (hvalue : value a = .str s) :
    requiredString (tableValue value t) key = .ok s := by
  unfold requiredString
  rw [field_table hkeys, h, Option.map_some, hvalue]
  rfl

theorem optionalString_table {β : Type} {o : Option β} {g : β → α}
    {f : β → Text} (h : valueOf t key = o.map g) (hvalue : ∀ x, value (g x) = .str (f x)) :
    optionalString (tableValue value t) key = o.map f := by
  unfold optionalString
  rw [field_table hkeys, h]
  cases o with
  | none => rfl
  | some x =>
    show asStr (value (g x)) = _
    rw [hvalue]
    rfl

theorem requiredInteger_table {a : α} {n : Int}
    (h : valueOf t key = some a) (hvalue : value a = .int n) :
    requiredInteger (tableValue value t) key = .ok n := by
  unfold requiredInteger
  rw [field_table hkeys, h, Option.map_some, hvalue]
  rfl

theorem optionalInteger_table {β : Type} {o : Option β} {g : β → α}
    {f : β → Int} (h : valueOf t key = o.map g) (hvalue : ∀ x ∈ o, value (g x) = .int (f x)) :
    optionalInteger (tableValue value t) key = .ok (o.map f) := by
  unfold optionalInteger
  rw [field_table hkeys, h]
  cases o with
  | none => rfl
  | some x =>
    rw [Option.map_some, Option.map_some, hvalue x rfl]
    rfl

end

theorem mapM_asStr (ss : List Text) : (ss.map Value.str).mapM asStr = some ss := by
  induction ss with
  | nil => rfl
  | cons s ss ih => simp [asStr, ih]

theorem stringList_table (hkeys : (t.map (·.1)).Nodup) {ss : List Text}
    (h : (valueOf t key).map value = some (.list (ss.map .str)) ∨
      (valueOf t key).map value = none ∧ ss = []) :
    stringList (tableValue value t) key = .ok ss := by
  unfold stringList
  rw [field_table hkeys]
  rcases h with h | ⟨h, rfl⟩
  · simp only [h, mapM_asStr]
  · rw [h]

end Lookup

end MemoryFormat
