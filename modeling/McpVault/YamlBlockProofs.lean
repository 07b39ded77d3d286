import McpVault.QuotedLineProofs

/-! # Block YAML

Documents as a front matter has them: a mapping to scalars, to lists of quoted scalars, and to
lists of such mappings.  `Reader` says what a YAML reader makes of their texts.  The text
determines the document (`Document.text_injective`), so a scalar cannot pass for a key, and a
reader with these laws exists (`strictReader`). -/

namespace YamlBlock

open List
open PlainText (Text)

/-! ## Documents -/

/-- What a reader returns. -/
inductive Value where
  | null
  | bool (b : Bool)
  | int (n : Int)
  | real (t : Text)
  | str (t : Text)
  | list (values : List Value)
  | map (fields : List (Text × Value))

inductive Scalar where
  | quoted (s : Text)
  | int (n : Int)
  | real (t : Text)
  | bool (b : Bool)
  deriving DecidableEq

def intText (n : Int) : Text :=
  if n < 0 then '-' :: Nat.toDigits 10 n.natAbs else Nat.toDigits 10 n.natAbs

def inI64 (n : Int) : Bool := decide (-(2 ^ 63) ≤ n ∧ n < 2 ^ 63)

/-- The literal part of a scalar. -/
def Scalar.bare : Scalar → Text
  | .quoted _ => []
  | .int n => intText n
  | .real t => t
  | .bool b => if b then "true".toList else "false".toList

def Scalar.quoted? : Scalar → Option Text
  | .quoted s => some s
  | _ => none

/-- Digits beyond 64 bits are read as a real number. -/
def Scalar.value : Scalar → Value
  | .quoted s => .str s
  | .int n => if inI64 n then .int n else .real (intText n)
  | .real t => .real t
  | .bool b => .bool b

/-- A scalar, or a list of quoted scalars. -/
inductive Field where
  | scalar (s : Scalar)
  | strings (ss : List Text)

/-- What follows the colon on the line of the key. -/
def Field.tail : Field → Text
  | .scalar s => ' ' :: s.bare
  | .strings [] => " []".toList
  | .strings (_ :: _) => []

def Field.quoted? : Field → Option Text
  | .scalar s => s.quoted?
  | .strings _ => none

def itemLines (lead : Text) (ss : List Text) : List Line := ss.map fun s => ⟨lead, some s⟩

def Field.items (item : Text) : Field → List Line
  | .scalar _ => []
  | .strings ss => itemLines item ss

def Field.lines (lead item key : Text) (v : Field) : List Line :=
  ⟨lead ++ (key ++ ':' :: v.tail), v.quoted?⟩ :: v.items item

def Field.value : Field → Value
  | .scalar s => s.value
  | .strings ss => .list (ss.map .str)

/-- An element; the dash is on its first line. -/
abbrev Record := List (Text × Field)

def dash : Text := "  - ".toList

def deeperDash : Text := "      - ".toList

def indent : Text := "    ".toList

def Record.lines : Record → List Line
  | [] => []
  | f :: rest =>
    f.2.lines dash deeperDash f.1 ++ rest.flatMap fun g => g.2.lines indent deeperDash g.1

def Record.value (r : Record) : Value := .map (r.map fun f => (f.1, f.2.value))

inductive Entry where
  | field (v : Field)
  | records (rs : List Record)

def Entry.lines (key : Text) : Entry → List Line
  | .field v => v.lines [] dash key
  | .records rs => ⟨key ++ [':'], none⟩ :: rs.flatMap Record.lines

def Entry.value : Entry → Value
  | .field v => v.value
  | .records rs => .list (rs.map Record.value)

abbrev Document := List (Text × Entry)

def Document.lines (d : Document) : List Line := d.flatMap fun e => e.2.lines e.1

def Document.text (d : Document) : Text := joinLines d.lines

def Document.value (d : Document) : Value := .map (d.map fun e => (e.1, e.2.value))

/-- No scalar has a line break. -/
def Document.OneLine (d : Document) : Prop := ∀ l ∈ d.lines, ∀ s ∈ l.scalar, YamlBlock.OneLine s

def Scalar.mapText (f : Text → Text) : Scalar → Scalar
  | .quoted s => .quoted (f s)
  | s => s

def Field.mapText (f : Text → Text) : Field → Field
  | .scalar s => .scalar (s.mapText f)
  | .strings ss => .strings (ss.map f)

def Record.mapText (f : Text → Text) (r : Record) : Record := r.map fun g => (g.1, g.2.mapText f)

def Entry.mapText (f : Text → Text) : Entry → Entry
  | .field v => .field (v.mapText f)
  | .records rs => .records (rs.map (Record.mapText f))

/-- The document with every scalar changed. -/
def Document.mapText (f : Text → Text) (d : Document) : Document :=
  d.map fun e => (e.1, e.2.mapText f)

def isKeyChar (c : Char) : Bool := c.isLower || c = '_'

def KeyGood (key : Text) : Prop := key ≠ [] ∧ ∀ c ∈ key, isKeyChar c

def Scalar.Good : Scalar → Prop
  | .real t => (∀ c ∈ t, c.isDigit ∨ c = '.') ∧ '.' ∈ t
  | _ => True

def Field.Good : Field → Prop
  | .scalar s => s.Good
  | .strings _ => True

structure Record.Good (r : Record) : Prop where
  ne_nil : r ≠ []
  keys : (r.map (·.1)).Nodup
  fields : ∀ f ∈ r, KeyGood f.1 ∧ f.2.Good

def Entry.Good : Entry → Prop
  | .field v => v.Good
  | .records rs => rs ≠ [] ∧ ∀ r ∈ rs, r.Good

/-- Plain keys, each once; nothing is empty. -/
structure Document.WellFormed (d : Document) : Prop where
  ne_nil : d ≠ []
  keys : (d.map (·.1)).Nodup
  entries : ∀ e ∈ d, KeyGood e.1 ∧ e.2.Good

/-- It keeps one-line scalars, and folds breaks or gives up. -/
structure Reader where
  load : Text → Option Value
  reads : ∀ d : Document, d.WellFormed → d.OneLine → load d.text = some d.value
  folds : ∀ d : Document, d.WellFormed →
    load d.text = none ∨ load d.text = some (d.mapText fold).value
  unfinished : ∀ d : Document, d.WellFormed → ∀ t, t <+: d.text → mode .bare t ≠ .bare →
    load t = none

/-! ## Lines of documents -/

section Documents

variable {d d' : Document} {key key' lead item : Text} {v v' : Field} {r r' : Record}
  {c : Char} {e : Entry} {n : Int} {l : Line} {deep : Line → Bool} {s : Scalar}
  {f : Text → Text}

theorem digit_of_mem_intText (h : c ∈ intText n) : c.isDigit ∨ c = '-' := by
  unfold intText at h
  split_ifs at h
  · rcases mem_cons.mp h with rfl | h
    · exact .inr rfl
    · exact .inl (Nat.isDigit_of_mem_toDigits (by decide) (by decide) h)
  · exact .inl (Nat.isDigit_of_mem_toDigits (by decide) (by decide) h)

/-- What literal texts are made of. -/
def isPlain (c : Char) : Bool := c ≠ '"' && c ≠ '\n'

theorem isPlain_of_digit (h : c.isDigit) : isPlain c := by
  have hne : c ≠ '"' ∧ c ≠ '\n' := by
    constructor
    · rintro rfl
      exact absurd h (by decide)
    · rintro rfl
      exact absurd h (by decide)
  simp [isPlain, hne.1, hne.2]

theorem isPlain_of_keyChar (h : isKeyChar c) : isPlain c := by
  have hne : c ≠ '"' ∧ c ≠ '\n' := by
    constructor
    · rintro rfl
      exact absurd h (by decide)
    · rintro rfl
      exact absurd h (by decide)
  simp [isPlain, hne.1, hne.2]

theorem Scalar.Good.bare_plain (h : s.Good) : ∀ c ∈ s.bare, isPlain c := by
  intro c hc
  cases s with
  | quoted s => cases hc
  | int n =>
    rcases digit_of_mem_intText hc with hdigit | rfl
    · exact isPlain_of_digit hdigit
    · rfl
  | real t =>
    rcases h.1 c hc with hdigit | rfl
    · exact isPlain_of_digit hdigit
    · rfl
  | bool b =>
    have hall : ∀ b : Bool, (Scalar.bool b).bare.all isPlain := by decide
    exact all_eq_true.mp (hall b) c hc

theorem Field.Good.tail_plain (h : v.Good) : ∀ c ∈ v.tail, isPlain c := by
  intro c hc
  cases v with
  | scalar s =>
    rcases mem_cons.mp hc with rfl | hc
    · rfl
    · exact Scalar.Good.bare_plain h c hc
  | strings ss =>
    cases ss with
    | nil =>
      have hall : " []".toList.all isPlain := by decide
      exact all_eq_true.mp hall c hc
    | cons s ss => cases hc

/-- A literal text that does not begin with a dash. -/
structure HeadGood (head : Text) : Prop where
  plain : ∀ c ∈ head, isPlain c
  start : ∃ c rest, head = c :: rest ∧ c ≠ '-'

theorem HeadGood.line (h : HeadGood l.head) : l.Good where
  quoteless := fun hmem => absurd (h.plain _ hmem) (by decide)
  single := fun hmem => absurd (h.plain _ hmem) (by decide)
  start := h.start

theorem KeyGood.head (hkey : KeyGood key) : ∃ c rest, key = c :: rest ∧ isKeyChar c := by
  obtain ⟨c, rest, rfl⟩ := exists_cons_of_ne_nil hkey.1
  exact ⟨c, rest, rfl, hkey.2 c mem_cons_self⟩

/-- Heads begin with a key or a good lead. -/
theorem headGood_key {tail : Text} (hlead : lead = [] ∨ HeadGood lead) (hkey : KeyGood key)
    (htail : ∀ c ∈ tail, isPlain c) : HeadGood (lead ++ (key ++ ':' :: tail)) := by
  have hplain : ∀ c ∈ key ++ ':' :: tail, isPlain c := by
    intro c hc
    rcases mem_append.mp hc with hc | hc
    · exact isPlain_of_keyChar (hkey.2 c hc)
    · rcases mem_cons.mp hc with rfl | hc
      · rfl
      · exact htail c hc
  rcases hlead with rfl | hlead
  · refine ⟨hplain, ?_⟩
    obtain ⟨c, rest, rfl, hc⟩ := hkey.head
    refine ⟨c, rest ++ ':' :: tail, rfl, ?_⟩
    rintro rfl
    exact absurd hc (by decide)
  · refine ⟨?_, ?_⟩
    · intro c hc
      rcases mem_append.mp hc with hc | hc
      · exact hlead.plain c hc
      · exact hplain c hc
    · obtain ⟨c, rest, rfl, hc⟩ := hlead.start
      exact ⟨c, rest ++ (key ++ ':' :: tail), rfl, hc⟩

theorem headGood_dash : HeadGood dash := ⟨all_eq_true.mp (by decide), ' ', " - ".toList, rfl, by decide⟩

theorem headGood_deeperDash : HeadGood deeperDash :=
  ⟨all_eq_true.mp (by decide), ' ', "     - ".toList, rfl, by decide⟩

theorem headGood_indent : HeadGood indent := ⟨all_eq_true.mp (by decide), ' ', "   ".toList, rfl, by decide⟩

theorem Field.lines_good (hlead : lead = [] ∨ HeadGood lead) (hitem : HeadGood item)
    (hkey : KeyGood key) (hv : v.Good) : ∀ l ∈ v.lines lead item key, l.Good := by
  intro l hl
  rcases mem_cons.mp hl with rfl | hl
  · exact (headGood_key hlead hkey hv.tail_plain).line
  · cases v with
    | scalar s => cases hl
    | strings ss =>
      obtain ⟨s, _, rfl⟩ := mem_map.mp hl
      exact hitem.line

theorem Record.Good.lines_good (h : r.Good) : ∀ l ∈ r.lines, l.Good := by
  obtain ⟨f, rest, rfl⟩ := exists_cons_of_ne_nil h.ne_nil
  intro l hl
  rcases mem_append.mp hl with hl | hl
  · obtain ⟨hkey, hv⟩ := h.fields f mem_cons_self
    exact Field.lines_good (.inr headGood_dash) headGood_deeperDash hkey hv l hl
  · obtain ⟨g, hg, hl⟩ := mem_flatMap.mp hl
    obtain ⟨hkey, hv⟩ := h.fields g (mem_cons_of_mem f hg)
    exact Field.lines_good (.inr headGood_indent) headGood_deeperDash hkey hv l hl

theorem Document.WellFormed.lines_good (h : d.WellFormed) : ∀ l ∈ d.lines, l.Good := by
  intro l hl
  obtain ⟨e, he, hl⟩ := mem_flatMap.mp hl
  obtain ⟨hkey, hv⟩ := h.entries e he
  cases hcase : e.2 with
  | field v =>
    rw [hcase] at hl hv
    exact Field.lines_good (.inl rfl) headGood_dash hkey hv l hl
  | records rs =>
    rw [hcase] at hl hv
    rcases mem_cons.mp hl with rfl | hl
    · have hnone : ∀ c ∈ ([] : Text), isPlain c := nofun
      exact HeadGood.line (headGood_key (.inl rfl) hkey hnone)
    · obtain ⟨r, hr, hl⟩ := mem_flatMap.mp hl
      exact (hv.2 r hr).lines_good l hl

/-! ## The text determines the document -/

/-- First lines of blocks are shallow, others deep. -/
theorem block_sharp {l' : Line} {ls ls' x y : List Line} (hls : ∀ m ∈ ls, deep m)
    (hls' : ∀ m ∈ ls', deep m) (hx : ∀ m ∈ x.head?, deep m = false)
    (hy : ∀ m ∈ y.head?, deep m = false) (h : l :: ls ++ x = l' :: ls' ++ y) :
    l :: ls = l' :: ls' ∧ x = y := by
  have htake : ∀ ls x : List Line, (∀ m ∈ ls, deep m) → (∀ m ∈ x.head?, deep m = false) →
      (ls ++ x).takeWhile deep = ls := by
    intro ls x hls hx
    have hnone : x.takeWhile deep = [] := by
      cases x with
      | nil => rfl
      | cons m x => exact takeWhile_cons_of_neg (by rw [hx m rfl]; exact Bool.false_ne_true)
    rw [takeWhile_append_of_pos hls, hnone, append_nil]
  obtain ⟨rfl, htail⟩ := List.cons.inj h
  have heq : ls = ls' := by
    rw [← htake ls x hls hx, ← htake ls' y hls' hy]
    exact congrArg _ htail
  subst heq
  exact ⟨rfl, append_cancel_left htail⟩

/-- So a list of blocks is read off its lines. -/
theorem blocks_injective {α : Type} {w : α → List Line} {good : α → Prop}
    (hw : ∀ a, good a → ∃ l ls, w a = l :: ls ∧ deep l = false ∧ ∀ m ∈ ls, deep m)
    (hinj : ∀ a b, good a → good b → w a = w b → a = b) {as bs : List α} (has : ∀ a ∈ as, good a)
    (hbs : ∀ b ∈ bs, good b) (h : as.flatMap w = bs.flatMap w) : as = bs := by
  have hhead : ∀ xs : List α, (∀ a ∈ xs, good a) → ∀ m ∈ (xs.flatMap w).head?, deep m = false := by
    intro xs hxs m hm
    cases xs with
    | nil => cases hm
    | cons a xs =>
      obtain ⟨l, ls, hl, hshallow, _⟩ := hw a (hxs a mem_cons_self)
      rw [flatMap_cons, hl] at hm
      exact Option.some.inj hm ▸ hshallow
  induction as generalizing bs with
  | nil =>
    cases bs with
    | nil => rfl
    | cons b bs =>
      obtain ⟨l, ls, hl, _⟩ := hw b (hbs b mem_cons_self)
      rw [flatMap_cons, hl] at h
      cases h
  | cons a as ih =>
    obtain ⟨l, ls, hl, _, hdeep⟩ := hw a (has a mem_cons_self)
    have has' : ∀ x ∈ as, good x := fun x hx => has x (mem_cons_of_mem a hx)
    cases bs with
    | nil =>
      rw [flatMap_cons, hl] at h
      cases h
    | cons b bs =>
      obtain ⟨l', ls', hl', _, hdeep'⟩ := hw b (hbs b mem_cons_self)
      have hbs' : ∀ x ∈ bs, good x := fun x hx => hbs x (mem_cons_of_mem b hx)
      rw [flatMap_cons, flatMap_cons, hl, hl'] at h
      obtain ⟨hblock, hrest⟩ := block_sharp hdeep hdeep' (hhead as has') (hhead bs hbs') h
      have hab : a = b := hinj a b (has a mem_cons_self) (hbs b mem_cons_self)
        (hl.trans (hblock.trans hl'.symm))
      rw [hab, ih has' hbs' hrest]

theorem intText_injective {m : Int} (h : intText m = intText n) : m = n := by
  have hdigits : ∀ {a b : Nat}, Nat.toDigits 10 a = Nat.toDigits 10 b → a = b := by
    intro a b hab
    rw [← Nat.ofDigitChars_ten_toDigits (n := a), hab, Nat.ofDigitChars_ten_toDigits]
  have hdash : ∀ a b : Nat, Nat.toDigits 10 a ≠ '-' :: Nat.toDigits 10 b := by
    intro a b hab
    have hmem : '-' ∈ Nat.toDigits 10 a := hab ▸ mem_cons_self
    exact absurd (Nat.isDigit_of_mem_toDigits (by decide) (by decide) hmem) (by decide)
  unfold intText at h
  split_ifs at h with hm hn hn
  · have := hdigits (List.cons.inj h).2
    omega
  · exact absurd h.symm (hdash _ _)
  · exact absurd h (hdash _ _)
  · have := hdigits h
    omega

/-- Kinds of literal texts, by their characters. -/
theorem Scalar.eq_of_bare {s' : Scalar} (h : s.Good) (h' : s'.Good) (hbare : s.bare = s'.bare)
    (hquoted : s.quoted? = s'.quoted?) : s = s' := by
  have hint : ∀ n : Int, ∀ t : Text, ('.' ∈ t ∨ ∃ b, t = (Scalar.bool b).bare) → intText n ≠ t := by
    rintro n t (hdot | ⟨b, rfl⟩) heq
    · rcases digit_of_mem_intText (heq ▸ hdot) with hdigit | hdash
      · exact absurd hdigit (by decide)
      · exact absurd hdash (by decide)
    · have hmem : 'e' ∈ intText n := heq ▸ (by cases b <;> decide)
      rcases digit_of_mem_intText hmem with hdigit | hdash
      · exact absurd hdigit (by decide)
      · exact absurd hdash (by decide)
  have hreal : ∀ b, '.' ∉ (Scalar.bool b).bare := by decide
  cases s with
  | quoted s =>
    cases s' with
    | quoted s' => exact congrArg Scalar.quoted (Option.some.inj hquoted)
    | int n | real t | bool b => cases hquoted
  | int n =>
    cases s' with
    | quoted s' => cases hquoted
    | int n' => exact congrArg Scalar.int (intText_injective hbare)
    | real t => exact absurd hbare (hint n t (.inl h'.2))
    | bool b => exact absurd hbare (hint n _ (.inr ⟨b, rfl⟩))
  | real t =>
    cases s' with
    | quoted s' => cases hquoted
    | int n => exact absurd hbare.symm (hint n t (.inl h.2))
    | real t' => exact congrArg Scalar.real hbare
    | bool b =>
      have hdot : '.' ∈ (Scalar.bool b).bare := hbare ▸ h.2
      exact absurd hdot (hreal b)
  | bool b =>
    cases s' with
    | quoted s' => cases hquoted
    | int n => exact absurd hbare.symm (hint n _ (.inr ⟨b, rfl⟩))
    | real t =>
      have hdot : '.' ∈ (Scalar.bool b).bare := hbare ▸ h'.2
      exact absurd hdot (hreal b)
    | bool b' =>
      have hall : ∀ b b' : Bool, (Scalar.bool b).bare = (Scalar.bool b').bare →
          Scalar.bool b = Scalar.bool b' := by decide
      exact hall b b' hbare

theorem Scalar.Good.bare_ne_brackets (h : s.Good) : s.bare ≠ "[]".toList := by
  intro heq
  have hmem : '[' ∈ s.bare := heq ▸ (by decide)
  cases s with
  | quoted s => cases hmem
  | int n =>
    rcases digit_of_mem_intText hmem with hdigit | hdash
    · exact absurd hdigit (by decide)
    · exact absurd hdash (by decide)
  | real t =>
    rcases h.1 _ hmem with hdigit | hdot
    · exact absurd hdigit (by decide)
    · exact absurd hdot (by decide)
  | bool b => exact absurd hmem (by cases b <;> decide)

theorem Field.eq_of_parts (h : v.Good) (h' : v'.Good) (htail : v.tail = v'.tail)
    (hquoted : v.quoted? = v'.quoted?) (hitems : v.items item = v'.items item) : v = v' := by
  cases v with
  | scalar s =>
    cases v' with
    | scalar s' =>
      exact congrArg Field.scalar (Scalar.eq_of_bare h h' (List.cons.inj htail).2 hquoted)
    | strings ss =>
      cases ss with
      | nil => exact absurd (List.cons.inj htail).2 (Scalar.Good.bare_ne_brackets h)
      | cons s ss => cases htail
  | strings ss =>
    cases v' with
    | scalar s' =>
      cases ss with
      | nil => exact absurd (List.cons.inj htail).2.symm (Scalar.Good.bare_ne_brackets h')
      | cons s ss => cases htail
    | strings ss' =>
      have hinj : Function.Injective fun s : Text => (⟨item, some s⟩ : Line) := by
        intro a b hab
        exact Option.some.inj (congrArg Line.scalar hab)
      exact congrArg Field.strings (hinj.list_map hitems)

/-- The key ends at the colon. -/
theorem key_sharp {x y : Text} (h : KeyGood key) (h' : KeyGood key')
    (heq : key ++ ':' :: x = key' ++ ':' :: y) : key = key' ∧ x = y := by
  have hcolon : ∀ k, KeyGood k → ':' ∉ k := fun k hk hmem => absurd (hk.2 _ hmem) (by decide)
  exact PlainText.append_cons_inj (hcolon _ h) (hcolon _ h') heq

theorem Field.lines_injective (hkey : KeyGood key) (hkey' : KeyGood key') (h : v.Good) (h' : v'.Good)
    (heq : v.lines lead item key = v'.lines lead item key') : (key, v) = (key', v') := by
  obtain ⟨hfirst, hitems⟩ := List.cons.inj heq
  obtain ⟨hhead, hquoted⟩ := Line.mk.inj hfirst
  obtain ⟨rfl, htail⟩ := key_sharp hkey hkey' (append_cancel_left hhead)
  rw [Field.eq_of_parts h h' htail hquoted hitems]

/-- A line that is indented by so much. -/
def deeper (n : Nat) (l : Line) : Bool := (List.replicate n ' ').isPrefixOf l.head

theorem Field.items_deeper {n : Nat} (hitem : (List.replicate n ' ').isPrefixOf item) :
    ∀ l ∈ v.items item, deeper n l := by
  intro l hl
  cases v with
  | scalar s => cases hl
  | strings ss =>
    obtain ⟨s, _, rfl⟩ := mem_map.mp hl
    exact hitem

theorem KeyGood.not_space (hkey : KeyGood key) (rest : Text) :
    [' '].isPrefixOf (key ++ rest) = false := by
  obtain ⟨c, more, rfl, hc⟩ := hkey.head
  have hne : ' ' ≠ c := by
    rintro rfl
    exact absurd hc (by decide)
  simp [List.isPrefixOf, hne]

theorem Record.lines_injective (h : r.Good) (h' : r'.Good) (heq : r.lines = r'.lines) : r = r' := by
  obtain ⟨f, rest, rfl⟩ := exists_cons_of_ne_nil h.ne_nil
  obtain ⟨f', rest', rfl⟩ := exists_cons_of_ne_nil h'.ne_nil
  let good : Text × Field → Prop := fun g => KeyGood g.1 ∧ g.2.Good
  let w : Text × Field → List Line := fun g => g.2.lines indent deeperDash g.1
  have hw : ∀ g, good g → ∃ l ls, w g = l :: ls ∧ deeper 5 l = false ∧ ∀ m ∈ ls, deeper 5 m := by
    intro g hg
    refine ⟨_, _, rfl, ?_, Field.items_deeper rfl⟩
    exact hg.1.not_space (':' :: g.2.tail)
  have hrest : ∀ g ∈ rest, good g := fun g hg => h.fields g (mem_cons_of_mem f hg)
  have hrest' : ∀ g ∈ rest', good g := fun g hg => h'.fields g (mem_cons_of_mem f' hg)
  have hhead : ∀ gs : List (Text × Field), (∀ g ∈ gs, good g) →
      ∀ m ∈ (gs.flatMap w).head?, deeper 5 m = false := by
    intro gs hgs m hm
    cases gs with
    | nil => cases hm
    | cons g gs =>
      obtain ⟨l, ls, hl, hshallow, _⟩ := hw g (hgs g mem_cons_self)
      rw [flatMap_cons, hl] at hm
      exact Option.some.inj hm ▸ hshallow
  have hdeep : ∀ g : Text × Field, ∀ l ∈ g.2.items deeperDash, deeper 5 l :=
    fun g => Field.items_deeper rfl
  obtain ⟨hfirst, hmore⟩ :=
    block_sharp (hdeep f) (hdeep f') (hhead rest hrest) (hhead rest' hrest') heq
  obtain ⟨hkey, hv⟩ := h.fields f mem_cons_self
  obtain ⟨hkey', hv'⟩ := h'.fields f' mem_cons_self
  have hf : f = f' := Field.lines_injective hkey hkey' hv hv' hfirst
  have hinj : ∀ g g', good g → good g' → w g = w g' → g = g' :=
    fun g g' hg hg' hgg => Field.lines_injective hg.1 hg'.1 hg.2 hg'.2 hgg
  rw [hf, blocks_injective hw hinj hrest hrest' hmore]

theorem Entry.lines_cons (key : Text) (e : Entry) : ∃ tail quoted ls,
    e.lines key = ⟨key ++ ':' :: tail, quoted⟩ :: ls := by
  cases e with
  | field v => exact ⟨v.tail, v.quoted?, v.items dash, rfl⟩
  | records rs => exact ⟨[], none, rs.flatMap Record.lines, rfl⟩

/-- Lists of mappings begin differently. -/
theorem items_ne_records {ss : List Text} {rs : List Record} (hrs : rs ≠ [])
    (hgood : ∀ r ∈ rs, r.Good) : itemLines dash ss ≠ rs.flatMap Record.lines := by
  intro heq
  obtain ⟨r, rs, rfl⟩ := exists_cons_of_ne_nil hrs
  have hr := hgood r mem_cons_self
  obtain ⟨f, rest, rfl⟩ := exists_cons_of_ne_nil hr.ne_nil
  cases ss with
  | nil => cases heq
  | cons s ss =>
    have hhead : dash = dash ++ (f.1 ++ ':' :: f.2.tail) :=
      congrArg Line.head (List.cons.inj heq).1
    have hlen := congrArg List.length hhead
    rw [length_append, length_append, length_cons] at hlen
    omega

theorem Record.Good.lines_block (h : r.Good) :
    ∃ l ls, r.lines = l :: ls ∧ deeper 3 l = false ∧ ∀ m ∈ ls, deeper 3 m := by
  obtain ⟨f, rest, rfl⟩ := exists_cons_of_ne_nil h.ne_nil
  refine ⟨_, _, rfl, rfl, ?_⟩
  intro m hm
  rcases mem_append.mp hm with hm | hm
  · exact Field.items_deeper rfl m hm
  · obtain ⟨g, _, hm⟩ := mem_flatMap.mp hm
    rcases mem_cons.mp hm with rfl | hm
    · rfl
    · exact Field.items_deeper rfl m hm

theorem Entry.lines_injective {e' : Entry} (hkey : KeyGood key) (hkey' : KeyGood key')
    (h : e.Good) (h' : e'.Good) (heq : e.lines key = e'.lines key') : (key, e) = (key', e') := by
  have hrecords : ∀ rs : List Record, (∃ v : Field, v.tail = [] ∧ v.items dash = rs.flatMap Record.lines) →
      ¬ (rs ≠ [] ∧ ∀ r ∈ rs, r.Good) := by
    rintro rs ⟨v, htail, hitems⟩ ⟨hne, hgood⟩
    cases v with
    | scalar s => cases htail
    | strings ss => exact items_ne_records hne hgood hitems
  cases e with
  | field v =>
    cases e' with
    | field v' =>
      obtain ⟨rfl, rfl⟩ := Prod.mk.inj (Field.lines_injective hkey hkey' h h' heq)
      rfl
    | records rs =>
      obtain ⟨hfirst, hitems⟩ := List.cons.inj heq
      obtain ⟨_, htail⟩ := key_sharp hkey hkey' (congrArg Line.head hfirst)
      exact absurd h' (hrecords rs ⟨v, htail, hitems⟩)
  | records rs =>
    cases e' with
    | field v =>
      obtain ⟨hfirst, hitems⟩ := List.cons.inj heq
      obtain ⟨_, htail⟩ := key_sharp hkey hkey' (congrArg Line.head hfirst)
      exact absurd h (hrecords rs ⟨v, htail.symm, hitems.symm⟩)
    | records rs' =>
      obtain ⟨hfirst, hlines⟩ := List.cons.inj heq
      obtain ⟨rfl, _⟩ := key_sharp hkey hkey' (congrArg Line.head hfirst)
      have hrs : rs = rs' := blocks_injective (fun r hr => Record.Good.lines_block hr)
        (fun r r' hr hr' hrr => Record.lines_injective hr hr' hrr) h.2 h'.2 hlines
      rw [hrs]

theorem Entry.Good.lines_block (hkey : KeyGood key) (h : e.Good) :
    ∃ l ls, e.lines key = l :: ls ∧ deeper 1 l = false ∧ ∀ m ∈ ls, deeper 1 m := by
  cases e with
  | field v => exact ⟨_, _, rfl, hkey.not_space _, Field.items_deeper rfl⟩
  | records rs =>
    refine ⟨_, _, rfl, hkey.not_space _, ?_⟩
    intro m hm
    obtain ⟨r, hr, hm⟩ := mem_flatMap.mp hm
    obtain ⟨f, rest, rfl⟩ := exists_cons_of_ne_nil (h.2 r hr).ne_nil
    rcases mem_append.mp hm with hm | hm
    · rcases mem_cons.mp hm with rfl | hm
      · rfl
      · exact Field.items_deeper rfl m hm
    · obtain ⟨g, _, hm⟩ := mem_flatMap.mp hm
      rcases mem_cons.mp hm with rfl | hm
      · rfl
      · exact Field.items_deeper rfl m hm

/-- **THE TEXT DETERMINES THE DOCUMENT.** -/
theorem Document.text_injective (h : d.WellFormed) (h' : d'.WellFormed)
    (heq : d.text = d'.text) : d = d' := by
  have hlines : d.lines = d'.lines := joinLines_injective h.lines_good h'.lines_good heq
  have hinj : ∀ e e' : Text × Entry, KeyGood e.1 ∧ e.2.Good → KeyGood e'.1 ∧ e'.2.Good →
      e.2.lines e.1 = e'.2.lines e'.1 → e = e' :=
    fun e e' he he' hee => Entry.lines_injective he.1 he'.1 he.2 he'.2 hee
  exact blocks_injective (fun e he => Entry.Good.lines_block he.1 he.2) hinj h.entries h'.entries hlines

/-- A change that keeps the scalars keeps the document. -/
theorem Field.mapText_eq (h : ∀ l ∈ v.lines lead item key, ∀ s ∈ l.scalar, f s = s) :
    v.mapText f = v := by
  cases v with
  | scalar s =>
    cases s with
    | quoted s =>
      have hs : f s = s := h _ mem_cons_self s rfl
      show Field.scalar (.quoted (f s)) = _
      rw [hs]
    | int n | real t | bool b => rfl
  | strings ss =>
    show Field.strings (ss.map f) = _
    refine congrArg Field.strings ((map_congr_left fun s hs => ?_).trans (map_id ss))
    have hmem : (⟨item, some s⟩ : Line) ∈ (Field.strings ss).lines lead item key :=
      mem_cons_of_mem _ (mem_map_of_mem hs)
    exact h _ hmem s rfl

theorem Record.mapText_eq (h : ∀ l ∈ r.lines, ∀ s ∈ l.scalar, f s = s) : r.mapText f = r := by
  cases r with
  | nil => rfl
  | cons g rest =>
    have hg : g.2.mapText f = g.2 :=
      Field.mapText_eq fun l hl => h l (mem_append_left _ hl)
    have hrest : rest.map (fun g => (g.1, g.2.mapText f)) = rest := by
      refine (map_congr_left fun g hg => ?_).trans (map_id rest)
      have hv : g.2.mapText f = g.2 := Field.mapText_eq fun l hl =>
        h l (mem_append_right _ (mem_flatMap.mpr ⟨g, hg, hl⟩))
      rw [hv]
      rfl
    show (g.1, g.2.mapText f) :: rest.map (fun g => (g.1, g.2.mapText f)) = g :: rest
    rw [hg, hrest]

theorem Document.mapText_eq (h : ∀ l ∈ d.lines, ∀ s ∈ l.scalar, f s = s) : d.mapText f = d := by
  refine (map_congr_left fun e he => ?_).trans (map_id d)
  have hlines : ∀ l ∈ e.2.lines e.1, ∀ s ∈ l.scalar, f s = s :=
    fun l hl => h l (mem_flatMap.mpr ⟨e, he, hl⟩)
  have hvalue : e.2.mapText f = e.2 := by
    cases hcase : e.2 with
    | field v =>
      rw [hcase] at hlines
      exact congrArg Entry.field (Field.mapText_eq hlines)
    | records rs =>
      rw [hcase] at hlines
      refine congrArg Entry.records ((map_congr_left fun r hr => ?_).trans (map_id rs))
      exact Record.mapText_eq fun l hl =>
        hlines l (mem_cons_of_mem _ (mem_flatMap.mpr ⟨r, hr, hl⟩))
  rw [hvalue]
  rfl

open Classical in
/-- It gives up on what is not on one line. -/
noncomputable def strictReader : Reader where
  load t := if h : ∃ d : Document, d.WellFormed ∧ d.OneLine ∧ d.text = t then
    some h.choose.value else none
  reads := by
    intro d hd hline
    have hex : ∃ d' : Document, d'.WellFormed ∧ d'.OneLine ∧ d'.text = d.text :=
      ⟨d, hd, hline, rfl⟩
    obtain ⟨hd', _, htext⟩ := hex.choose_spec
    rw [dif_pos hex, Document.text_injective hd' hd htext]
  folds := by
    intro d hd
    by_cases hex : ∃ d' : Document, d'.WellFormed ∧ d'.OneLine ∧ d'.text = d.text
    · right
      obtain ⟨hd', hline, htext⟩ := hex.choose_spec
      rw [dif_pos hex]
      have hsame := Document.text_injective hd' hd htext
      rw [hsame] at hline ⊢
      rw [Document.mapText_eq fun l hl s hs => fold_eq_iff.mpr (hline l hl s hs)]
    · exact .inl (dif_neg hex)
  unfinished := by
    intro d _ t _ hmode
    refine dif_neg ?_
    rintro ⟨d', hd', _, rfl⟩
    exact hmode (joinLines_mode hd'.lines_good)

end Documents

end YamlBlock
