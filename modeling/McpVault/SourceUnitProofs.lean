import McpVault.PathProofs
import McpVault.OutlineProofs

/-! # Source units — the sections of a note and its smallest candidates

`source_units` makes a unit of each heading with its subtree and of the introduction;
`minimal_selection_units` keeps the leaves and cuts other sections to their introductions.  Units
are named by their byte ranges: full units are sections of the outline, minimal units are pieces
of it. -/

namespace MemoryUnits

open List
open LogicalPath (byteLen)
open PlainText (Text)
open Outline (Mark Span Ordered sections pieces sectionEnd nextStart)

/-! ## Lines and slices -/

/-- The offsets after the line breaks of a text. -/
def lineStartsFrom (offset : Nat) : Text → List Nat
  | [] => []
  | '\r' :: '\n' :: rest => (offset + 2) :: lineStartsFrom (offset + 2) rest
  | '\r' :: rest => (offset + 1) :: lineStartsFrom (offset + 1) rest
  | '\n' :: rest => (offset + 1) :: lineStartsFrom (offset + 1) rest
  | c :: rest => lineStartsFrom (offset + c.utf8Size) rest

def lineStarts (source : Text) : List Nat := 0 :: lineStartsFrom 0 source

def lineOffset (lines : List Nat) (sourceLen line : Nat) : Nat :=
  (lines[line - 1]?).getD sourceLen

def dropBytes : Nat → Text → Text
  | 0, t => t
  | _, [] => []
  | n, c :: t => dropBytes (n - c.utf8Size) t

def takeBytes : Nat → Text → Text
  | 0, _ | _, [] => []
  | n, c :: t => c :: takeBytes (n - c.utf8Size) t

/-- `&source[start..end]`. -/
def slice (source : Text) (start stop : Nat) : Text :=
  takeBytes (stop - start) (dropBytes start source)

/-! ## Units -/

structure SourceSpan where
  (startByte endByte startLine endLine : Nat)
  text : Text
  deriving DecidableEq

/-- A section, with what stands around it. -/
structure SourceUnit where
  id : Text
  headings : List Text
  body : SourceSpan
  context : List SourceSpan
  deriving DecidableEq

def endsWithBreak (t : Text) : Bool := decide (t.getLast? = some '\n' ∨ t.getLast? = some '\r')

/-- The context and the body, on lines of their own. -/
def SourceUnit.completeText (u : SourceUnit) : Text :=
  u.context.foldl (fun text span =>
    let text := text ++ span.text
    if endsWithBreak text then text else text ++ ['\n']) [] ++ u.body.text

def SourceUnit.span (u : SourceUnit) : Span := ⟨u.body.startByte, u.body.endByte⟩

def sourceSpan (source : Text) (start stop : Nat) (lines : List Nat) : SourceSpan where
  startByte := start
  endByte := stop
  startLine := lines.countP (· ≤ start)
  endLine := lines.countP (· ≤ max (stop - 1) start)
  text := slice source start stop

/-- `format!("u:{start}:{end}")`. -/
def unitId (start stop : Nat) : Text :=
  'u' :: ':' :: (Nat.toDigits 10 start ++ ':' :: Nat.toDigits 10 stop)

/-- A unit from its range and ancestors. -/
def makeUnit (source : Text) (start stop : Nat) (headings : List Text)
    (context : List (Nat × Nat)) (lines : List Nat) : SourceUnit where
  id := unitId start stop
  headings
  body := sourceSpan source start stop lines
  context := (context.filter fun range => range.1 < range.2).map fun range =>
    sourceSpan source range.1 range.2 lines

/-! ## The outline of a note -/

/-- A heading among the children of the document's root. -/
structure RootHeading where
  (level startLine : Nat)
  title : Text

/-- Front matter's end, root headings, heading lines. -/
structure Document where
  frontMatterEnd : Option Nat
  headings : List RootHeading
  headingLines : List (Nat × Nat)

/-- The Markdown parser and Unicode tables. -/
structure Markdown where
  parse : Text → Document
  isWhitespace : Char → Bool
  counted : ∀ source, ∀ h ∈ (parse source).headings, 1 ≤ h.startLine
  ordered : ∀ source, (parse source).headings.Pairwise (·.startLine < ·.startLine)
  inside : ∀ source, ∀ h ∈ (parse source).headings,
    lineOffset (lineStarts source) (byteLen source) h.startLine < byteLen source
  afterFront : ∀ source, ∀ last ∈ (parse source).frontMatterEnd,
    ∀ h ∈ (parse source).headings, last < h.startLine

structure Heading extends Mark where
  title : Text

/-- A heading with its introduction's end. -/
structure Ancestor where
  level : Nat
  title : Text
  (start introEnd : Nat)

variable (md : Markdown) (source : Text)

def blank (t : Text) : Bool := t.all md.isWhitespace

def documentHeadings : List Heading :=
  (md.parse source).headings.map fun h =>
    ⟨⟨h.level, lineOffset (lineStarts source) (byteLen source) h.startLine⟩, h.title⟩

def contentStart : Nat :=
  match (md.parse source).frontMatterEnd with
  | some last => lineOffset (lineStarts source) (byteLen source) (last + 1)
  | none => 0

def headingMarks : List Mark := (documentHeadings md source).map (·.toMark)

def introEnd : Nat := nextStart (byteLen source) (headingMarks md source)

def hasIntro : Bool := !blank md (slice source (contentStart md source) (introEnd md source))

/-- A unit per heading; ancestors innermost first. -/
def sectionUnits : List Heading → List Ancestor → List SourceUnit
  | [], _ => []
  | h :: rest, ancestors =>
    let open_ := ancestors.dropWhile fun a => h.level ≤ a.level
    let intro_ := if hasIntro md source then [(contentStart md source, introEnd md source)] else []
    let marks := rest.map (·.toMark)
    makeUnit source h.start (sectionEnd (byteLen source) h.level marks)
        (open_.reverse.map (·.title) ++ [h.title])
        (intro_ ++ open_.reverse.map fun a => (a.start, a.introEnd)) (lineStarts source) ::
      sectionUnits rest (⟨h.level, h.title, h.start, nextStart (byteLen source) marks⟩ :: open_)

def sourceUnits : List SourceUnit :=
  (if hasIntro md source then
    [makeUnit source (contentStart md source) (introEnd md source) [] [] (lineStarts source)]
    else []) ++ sectionUnits md source (documentHeadings md source) []

/-- A heading's end: its line's last entry. -/
def headingEnd (start : Nat) : Nat :=
  let offset := lineOffset (lineStarts source) (byteLen source)
  ((md.parse source).headingLines.reverse.find? fun lines => offset lines.1 = start).elim start
    fun lines => offset (lines.2 + 1)

def containsLater (outer inner : SourceUnit) : Bool :=
  decide (outer.body.startByte ≤ inner.body.startByte ∧
    inner.body.endByte ≤ outer.body.endByte ∧ outer.body.startByte < inner.body.startByte)

def firstChildStart (full : List SourceUnit) (unit : SourceUnit) : Option Nat :=
  ((full.filter (containsLater unit)).map (·.body.startByte)).min?

/-- A leaf; a parent cut down to its introduction. -/
def minimalUnit (full : List SourceUnit) (unit : SourceUnit) : Option SourceUnit :=
  if unit.headings = [] then some unit
  else
    match firstChildStart full unit with
    | none => some unit
    | some child =>
      if child ≤ unit.body.startByte then none
      else if blank md (slice source (headingEnd md source unit.body.startByte) child) then none
      else some { unit with
        id := unitId unit.body.startByte child
        body := sourceSpan source unit.body.startByte child (lineStarts source) }

def minimalSelectionUnits : List SourceUnit :=
  (sourceUnits md source).filterMap (minimalUnit md source (sourceUnits md source))

/-! ## Lines ascend -/

section Lines

theorem lineStartsFrom_gt (t : Text) : ∀ offset, ∀ x ∈ lineStartsFrom offset t, offset < x := by
  intro offset
  fun_induction lineStartsFrom offset t with
  | case1 => exact nofun
  | case2 offset rest ih =>
    intro x hx
    rcases mem_cons.mp hx with rfl | hx
    · omega
    · have := ih x hx
      omega
  | case3 offset rest _ ih =>
    intro x hx
    rcases mem_cons.mp hx with rfl | hx
    · omega
    · have := ih x hx
      omega
  | case4 offset rest ih =>
    intro x hx
    rcases mem_cons.mp hx with rfl | hx
    · omega
    · have := ih x hx
      omega
  | case5 offset c rest _ _ _ ih =>
    intro x hx
    have := ih x hx
    omega

theorem lineStartsFrom_ascending (t : Text) :
    ∀ offset, (lineStartsFrom offset t).Pairwise (· < ·) := by
  intro offset
  fun_induction lineStartsFrom offset t with
  | case1 => exact List.Pairwise.nil
  | case2 offset rest ih => exact List.Pairwise.cons (lineStartsFrom_gt rest _) ih
  | case3 offset rest _ ih => exact List.Pairwise.cons (lineStartsFrom_gt rest _) ih
  | case4 offset rest ih => exact List.Pairwise.cons (lineStartsFrom_gt rest _) ih
  | case5 offset c rest _ _ _ ih => exact ih

theorem lineStarts_ascending (source : Text) : (lineStarts source).Pairwise (· < ·) :=
  List.Pairwise.cons (lineStartsFrom_gt source 0) (lineStartsFrom_ascending source 0)

/-- Lines inside the text begin in order. -/
theorem lineOffset_lt {lines : List Nat} {total i j : Nat} (hlines : lines.Pairwise (· < ·))
    (hi : 1 ≤ i) (hij : i < j) (hj : lineOffset lines total j < total) :
    lineOffset lines total i < lineOffset lines total j := by
  unfold lineOffset at hj ⊢
  cases hget : lines[j - 1]? with
  | none =>
    rw [hget] at hj
    exact absurd hj (Nat.lt_irrefl total)
  | some b =>
    obtain ⟨hlt, hb⟩ := List.getElem?_eq_some_iff.mp hget
    have hi' : i - 1 < lines.length := by omega
    rw [List.getElem?_eq_getElem hi']
    show lines[i - 1] < b
    rw [← hb]
    exact pairwise_iff_getElem.mp hlines (i - 1) (j - 1) hi' hlt (by omega)

end Lines

/-! ## Slices -/

section Slices

theorem byteLen_cons (c : Char) (t : Text) : byteLen (c :: t) = c.utf8Size + byteLen t := by
  simp [byteLen]

theorem byteLen_cons_ne_zero (c : Char) (t : Text) : byteLen (c :: t) ≠ 0 := by
  rw [byteLen_cons]
  exact Nat.ne_of_gt (Nat.add_pos_left (Char.utf8Size_pos c) _)

theorem takeBytes_append (a b : Text) : takeBytes (byteLen a) (a ++ b) = a := by
  induction a with
  | nil => exact takeBytes.eq_1 b
  | cons c a ih =>
    rw [cons_append, takeBytes, byteLen_cons, Nat.add_sub_cancel_left, ih]
    exact byteLen_cons_ne_zero c a

theorem dropBytes_append (a b : Text) : dropBytes (byteLen a) (a ++ b) = b := by
  induction a with
  | nil => exact dropBytes.eq_1 b
  | cons c a ih =>
    rw [cons_append, dropBytes, byteLen_cons, Nat.add_sub_cancel_left, ih]
    exact byteLen_cons_ne_zero c a

/-- A part stands between its offsets. -/
theorem slice_append (a b c : Text) {start stop : Nat} (hstart : byteLen a = start)
    (hstop : byteLen a + byteLen b = stop) : slice (a ++ (b ++ c)) start stop = b := by
  subst hstart hstop
  unfold slice
  rw [dropBytes_append, Nat.add_sub_cancel_left, takeBytes_append]

end Slices

/-! ## Names are ranges -/

section Names

theorem toDigits_injective {a b : Nat} (h : Nat.toDigits 10 a = Nat.toDigits 10 b) : a = b := by
  have ha : Nat.ofDigitChars 10 (Nat.toDigits 10 a) 0 = a := Nat.ofDigitChars_ten_toDigits
  rw [← ha, h, Nat.ofDigitChars_ten_toDigits]

theorem colon_not_mem_toDigits (n : Nat) : ':' ∉ Nat.toDigits 10 n := by
  intro hmem
  have hdigit := Nat.isDigit_of_mem_toDigits (by decide) (by decide) hmem
  exact absurd hdigit (by decide)

theorem unitId_injective {a b a' b' : Nat} (h : unitId a b = unitId a' b') : a = a' ∧ b = b' := by
  have htail := (List.cons.inj (List.cons.inj h).2).2
  obtain ⟨hstart, hstop⟩ := PlainText.append_cons_inj (colon_not_mem_toDigits a)
    (colon_not_mem_toDigits a') htail
  exact ⟨toDigits_injective hstart, toDigits_injective hstop⟩

/-- The unit is named by its range. -/
def SourceUnit.Named (u : SourceUnit) : Prop := u.id = unitId u.span.start u.span.stop

theorem SourceUnit.Named.id_eq_iff {u v : SourceUnit} (hu : u.Named) (hv : v.Named) :
    u.id = v.id ↔ u.span = v.span := by
  rw [hu, hv]
  constructor
  · intro h
    obtain ⟨hstart, hstop⟩ := unitId_injective h
    exact Span.ext hstart hstop
  · intro h
    rw [h]

end Names

/-! ## Full units are sections -/

section Geometry

variable {md : Markdown} {source : Text}

theorem documentHeadings_ordered (md : Markdown) (source : Text) :
    Ordered (byteLen source) (headingMarks md source) := by
  have hlines := lineStarts_ascending source
  have hcounted := md.counted source
  have hordered := md.ordered source
  have hinside := md.inside source
  unfold headingMarks documentHeadings
  revert hcounted hordered hinside
  induction (md.parse source).headings with
  | nil => exact fun _ _ _ => trivial
  | cons h hs ih =>
    intro hcounted hordered hinside
    refine ⟨?_, ih (fun x hx => hcounted x (mem_cons_of_mem h hx))
      (pairwise_cons.mp hordered).2 (fun x hx => hinside x (mem_cons_of_mem h hx))⟩
    cases hs with
    | nil => exact hinside h mem_cons_self
    | cons h' hs =>
      have hlt := (pairwise_cons.mp hordered).1 h' mem_cons_self
      exact lineOffset_lt hlines (hcounted h mem_cons_self) hlt
        (hinside h' (mem_cons_of_mem h mem_cons_self))

variable {full : List SourceUnit} {m : Mark} {stop total : Nat} {u : SourceUnit}

theorem slice_of_le {start : Nat} (h : stop ≤ start) : slice source start stop = [] := by
  unfold slice
  rw [Nat.sub_eq_zero_of_le h]
  simp [takeBytes]

/-- An introduction that is not blank is not empty. -/
theorem contentStart_lt (h : hasIntro md source) :
    contentStart md source < introEnd md source := by
  by_contra hle
  unfold hasIntro at h
  rw [slice_of_le (Nat.le_of_not_lt hle)] at h
  cases h

/-- A level that no heading exceeds. -/
def introLevel (md : Markdown) (source : Text) : Nat :=
  (headingMarks md source).foldr (fun m level => max m.level level) 0

/-- Marks; any heading ends the introduction. -/
def unitMarks (md : Markdown) (source : Text) : List Mark :=
  (if hasIntro md source then [⟨introLevel md source, contentStart md source⟩] else []) ++
    headingMarks md source

theorem unitMarks_ordered (md : Markdown) (source : Text) :
    Ordered (byteLen source) (unitMarks md source) := by
  unfold unitMarks
  split_ifs with hintro
  · exact ⟨contentStart_lt hintro, documentHeadings_ordered md source⟩
  · exact documentHeadings_ordered md source

theorem level_le_introLevel (hm : m ∈ headingMarks md source) : m.level ≤ introLevel md source := by
  unfold introLevel
  revert hm
  induction headingMarks md source with
  | nil => exact nofun
  | cons m' ms ih =>
    intro hm
    rcases mem_cons.mp hm with rfl | hm
    · exact Nat.le_max_left _ _
    · exact (ih hm).trans (Nat.le_max_right _ _)

theorem sectionEnd_introLevel (md : Markdown) (source : Text) :
    sectionEnd (byteLen source) (introLevel md source) (headingMarks md source) =
      introEnd md source := by
  have hlevel : ∀ m ∈ headingMarks md source, m.level ≤ introLevel md source :=
    fun _ hm => level_le_introLevel hm
  unfold introEnd
  cases hms : headingMarks md source with
  | nil => rfl
  | cons m ms =>
    rw [hms] at hlevel
    exact if_pos (hlevel m mem_cons_self)

theorem sectionUnits_span (hs : List Heading) (ancestors : List Ancestor) :
    (sectionUnits md source hs ancestors).map (·.span) =
      sections (byteLen source) (hs.map (·.toMark)) := by
  induction hs generalizing ancestors with
  | nil => rfl
  | cons h hs ih =>
    simp only [sectionUnits, map_cons, ih]
    rfl

/-- **FULL UNITS ARE SECTIONS**, in order. -/
theorem sourceUnits_span (md : Markdown) (source : Text) :
    (sourceUnits md source).map (·.span) = sections (byteLen source) (unitMarks md source) := by
  unfold sourceUnits unitMarks
  rw [map_append, sectionUnits_span]
  split_ifs with hintro
  · have hend := sectionEnd_introLevel md source
    show _ :: _ = Span.mk _ (sectionEnd (byteLen source) (introLevel md source)
      (headingMarks md source)) :: sections (byteLen source) (headingMarks md source)
    rw [hend]
    rfl
  · rfl

theorem makeUnit_named (start stop : Nat) (headings : List Text) (context : List (Nat × Nat))
    (lines : List Nat) : (makeUnit source start stop headings context lines).Named := rfl

theorem sectionUnits_named {hs : List Heading} {ancestors : List Ancestor}
    (hu : u ∈ sectionUnits md source hs ancestors) : u.Named := by
  induction hs generalizing ancestors with
  | nil => cases hu
  | cons h hs ih =>
    rcases mem_cons.mp hu with rfl | hu
    · exact makeUnit_named _ _ _ _ _
    · exact ih hu

theorem sourceUnits_named (hu : u ∈ sourceUnits md source) : u.Named := by
  rcases mem_append.mp hu with hu | hu
  · split_ifs at hu
    · rw [mem_singleton.mp hu]
      exact makeUnit_named _ _ _ _ _
    · cases hu
  · exact sectionUnits_named hu

theorem span_mem_sections (hu : u ∈ sourceUnits md source) :
    u.span ∈ sections (byteLen source) (unitMarks md source) := by
  rw [← sourceUnits_span]
  exact mem_map_of_mem hu

/-! ## Minimal units are pieces -/

theorem mem_firstChildStarts {marks : List Mark}
    (hfull : full.map (·.span) = sections total marks) (hstop : u.body.endByte = stop) (x : Nat) :
    x ∈ (full.filter (containsLater u)).map (·.body.startByte) ↔
      ∃ s ∈ sections total marks, s.start = x ∧ u.body.startByte < s.start ∧ s.stop ≤ stop := by
  rw [← hfull, mem_map]
  constructor
  · rintro ⟨v, hv, rfl⟩
    obtain ⟨hmem, hlater⟩ := mem_filter.mp hv
    obtain ⟨_, hend, hlt⟩ := of_decide_eq_true hlater
    exact ⟨v.span, mem_map_of_mem hmem, rfl, hlt, hstop ▸ hend⟩
  · rintro ⟨s, hs, rfl, hlt, hend⟩
    obtain ⟨v, hv, rfl⟩ := mem_map.mp hs
    refine ⟨v, mem_filter.mpr ⟨hv, ?_⟩, rfl⟩
    exact decide_eq_true ⟨Nat.le_of_lt hlt, hstop ▸ hend, hlt⟩

/-- What is kept of a section is its piece. -/
theorem minimalUnit_span {v : SourceUnit} {pre rest : List Mark}
    (hordered : Ordered total (pre ++ m :: rest))
    (hfull : full.map (·.span) = sections total (pre ++ m :: rest)) (hheadings : u.headings ≠ [])
    (hnamed : u.Named) (hspan : u.span = ⟨m.start, sectionEnd total m.level rest⟩)
    (h : minimalUnit md source full u = some v) :
    v.span = ⟨m.start, nextStart total rest⟩ ∧ v.Named := by
  have hstart : u.body.startByte = m.start := congrArg Span.start hspan
  have hstop : u.body.endByte = sectionEnd total m.level rest := congrArg Span.stop hspan
  have hchild : firstChildStart full u = if nextStart total rest < sectionEnd total m.level rest
      then some (nextStart total rest) else none := by
    refine Outline.first_inside hordered fun x => ?_
    rw [mem_firstChildStarts hfull hstop, hstart]
  rw [minimalUnit, if_neg hheadings, hchild] at h
  by_cases hnext : nextStart total rest < sectionEnd total m.level rest
  · -- A parent: only its introduction is kept, up to the first child.
    rw [if_pos hnext] at h
    simp only at h
    split_ifs at h
    cases h
    rw [hstart]
    exact ⟨rfl, rfl⟩
  · -- A leaf: its section ends where the next one begins.
    rw [if_neg hnext] at h
    cases h
    have hle : nextStart total rest ≤ sectionEnd total m.level rest :=
      Outline.nextStart_le_sectionEnd hordered.suffix.2
    refine ⟨?_, hnamed⟩
    rw [hspan]
    exact Span.ext rfl (by show sectionEnd total m.level rest = nextStart total rest; omega)

/-- Minimal units as ranges and their names. -/
theorem minimal_sectionUnits (hs : List Heading) (ancestors : List Ancestor) (pre : List Mark)
    (hmarks : unitMarks md source = pre ++ hs.map (·.toMark)) :
    (((sectionUnits md source hs ancestors).filterMap
        (minimalUnit md source (sourceUnits md source))).map (·.span)).Sublist
      (pieces (byteLen source) (hs.map (·.toMark))) ∧
    ∀ v ∈ (sectionUnits md source hs ancestors).filterMap
      (minimalUnit md source (sourceUnits md source)), v.Named := by
  induction hs generalizing ancestors pre with
  | nil => exact ⟨List.Sublist.slnil, nofun⟩
  | cons h hs ih =>
    have hordered := unitMarks_ordered md source
    have hfull := sourceUnits_span md source
    rw [hmarks] at hordered hfull
    obtain ⟨ihspan, ihnamed⟩ := ih (⟨h.level, h.title, h.start,
        nextStart (byteLen source) (hs.map (·.toMark))⟩ ::
      ancestors.dropWhile fun a => decide (h.level ≤ a.level)) (pre ++ [h.toMark])
      (by rw [hmarks, append_assoc]; rfl)
    rw [sectionUnits, filterMap_cons]
    cases hmin : minimalUnit md source (sourceUnits md source) (makeUnit source h.start
        (sectionEnd (byteLen source) h.level (hs.map (·.toMark)))
        ((ancestors.dropWhile fun a => decide (h.level ≤ a.level)).reverse.map (·.title) ++
          [h.title])
        ((if hasIntro md source then [(contentStart md source, introEnd md source)] else []) ++
          (ancestors.dropWhile fun a => decide (h.level ≤ a.level)).reverse.map
            fun a => (a.start, a.introEnd)) (lineStarts source)) with
    | none => exact ⟨ihspan.cons _, ihnamed⟩
    | some v =>
      obtain ⟨hspan, hnamed⟩ := minimalUnit_span hordered hfull (by simp [makeUnit])
        (makeUnit_named _ _ _ _ _) rfl hmin
      refine ⟨?_, ?_⟩
      · rw [map_cons, hspan]
        exact ihspan.cons_cons _
      · intro w hw
        rcases mem_cons.mp hw with rfl | hw
        · exact hnamed
        · exact ihnamed w hw

/-- **MINIMAL UNITS ARE PIECES**, in order. -/
theorem minimalSelectionUnits_pieces (md : Markdown) (source : Text) :
    ((minimalSelectionUnits md source).map (·.span)).Sublist
      (pieces (byteLen source) (unitMarks md source)) ∧
    ∀ v ∈ minimalSelectionUnits md source, v.Named := by
  unfold minimalSelectionUnits
  by_cases hintro : hasIntro md source
  · have hmarks : unitMarks md source =
        [⟨introLevel md source, contentStart md source⟩] ++ headingMarks md source := by
      rw [unitMarks, if_pos hintro]
    obtain ⟨hspan, hnamed⟩ := minimal_sectionUnits (documentHeadings md source) [] _ hmarks
    have hunits : sourceUnits md source =
        makeUnit source (contentStart md source) (introEnd md source) [] [] (lineStarts source) ::
          sectionUnits md source (documentHeadings md source) [] := by
      rw [sourceUnits, if_pos hintro]
      rfl
    rw [hmarks]
    generalize hfull : sourceUnits md source = full at hspan hnamed ⊢
    rw [hfull] at hunits
    rw [hunits, filterMap_cons]
    rw [← hunits]
    refine ⟨hspan.cons_cons _, ?_⟩
    intro v hv
    rcases mem_cons.mp hv with rfl | hv
    · exact makeUnit_named _ _ _ _ _
    · exact hnamed v hv
  · have hmarks : unitMarks md source = [] ++ headingMarks md source := by
      rw [unitMarks, if_neg hintro]
    have hunits : sourceUnits md source =
        sectionUnits md source (documentHeadings md source) [] := by
      rw [sourceUnits, if_neg hintro]
      rfl
    have hmin := minimal_sectionUnits (documentHeadings md source) [] _ hmarks
    rw [← hunits] at hmin
    rw [hmarks]
    exact hmin

section Candidates

variable {u v p q : SourceUnit}

theorem minimal_named (hu : u ∈ minimalSelectionUnits md source) : u.Named :=
  (minimalSelectionUnits_pieces md source).2 u hu

theorem minimal_span_mem (hu : u ∈ minimalSelectionUnits md source) :
    u.span ∈ pieces (byteLen source) (unitMarks md source) :=
  (minimalSelectionUnits_pieces md source).1.subset (mem_map_of_mem hu)

theorem minimal_nonempty (hu : u ∈ minimalSelectionUnits md source) : u.span.start < u.span.stop :=
  (Outline.piece_bounds (unitMarks_ordered md source) (minimal_span_mem hu)).2.1

theorem minimal_ids_nodup (md : Markdown) (source : Text) :
    ((minimalSelectionUnits md source).map (·.id)).Nodup := by
  have hspans : ((minimalSelectionUnits md source).map (·.span)).Nodup :=
    (Outline.pieces_nodup (unitMarks_ordered md source)).sublist
      (minimalSelectionUnits_pieces md source).1
  refine List.Nodup.map_on ?_ (List.Nodup.of_map _ hspans)
  intro u hu v hv hid
  have hspan := ((minimal_named hu).id_eq_iff (minimal_named hv)).mp hid
  exact inj_on_of_nodup_map hspans hu hv hspan

/-- Different minimal units are disjoint. -/
theorem minimal_apart (hu : u ∈ minimalSelectionUnits md source)
    (hv : v ∈ minimalSelectionUnits md source) (hne : u.id ≠ v.id) : u.span.Apart v.span := by
  rcases Outline.pieces_apart (unitMarks_ordered md source) (minimal_span_mem hu)
    (minimal_span_mem hv) with heq | hapart
  · exact absurd (((minimal_named hu).id_eq_iff (minimal_named hv)).mpr heq) hne
  · exact hapart

/-- Inside a full unit or outside of it. -/
theorem minimal_full (hu : u ∈ minimalSelectionUnits md source) (hp : p ∈ sourceUnits md source) :
    u.span.Within p.span ∨ u.span.Apart p.span :=
  Outline.piece_section (unitMarks_ordered md source) (minimal_span_mem hu) (span_mem_sections hp)

/-- Two full units are nested or have nothing in common. -/
theorem full_nested (hp : p ∈ sourceUnits md source) (hq : q ∈ sourceUnits md source) :
    p.span.Within q.span ∨ q.span.Within p.span ∨ p.span.Apart q.span := by
  have hpair := Outline.sections_nested (unitMarks_ordered md source)
  have hboth : (sections (byteLen source) (unitMarks md source)).Pairwise fun a b =>
      a.Within b ∨ b.Within a ∨ a.Apart b := by
    refine hpair.imp ?_
    rintro a b ⟨hlt, hstop | hstop⟩
    · exact .inr (.inr (.inl hstop))
    · exact .inr (.inl ⟨Nat.le_of_lt hlt, hstop⟩)
  by_cases heq : p.span = q.span
  · rw [heq]
    exact .inl ⟨Nat.le_refl _, Nat.le_refl _⟩
  · have hsymm : Std.Symm fun a b : Span => a.Within b ∨ b.Within a ∨ a.Apart b := by
      refine ⟨fun a b h => ?_⟩
      rcases h with h | h | h
      · exact .inr (.inl h)
      · exact .inl h
      · exact .inr (.inr h.symm)
    exact hboth.forall (span_mem_sections hp) (span_mem_sections hq) heq

end Candidates

end Geometry

/-! ## Notes with a known outline -/

/-- A parser that knows one note. -/
def Markdown.only (note : Text) (doc : Document) (hcounted : ∀ h ∈ doc.headings, 1 ≤ h.startLine)
    (hordered : doc.headings.Pairwise (·.startLine < ·.startLine))
    (hinside : ∀ h ∈ doc.headings,
      lineOffset (lineStarts note) (byteLen note) h.startLine < byteLen note)
    (hfront : doc.frontMatterEnd = none) : Markdown where
  parse source := if source = note then doc else ⟨none, [], []⟩
  isWhitespace c := c = ' ' || c = '\n'
  counted source := by
    split_ifs
    · exact hcounted
    · exact nofun
  ordered source := by
    split_ifs
    · exact hordered
    · exact List.Pairwise.nil
  inside source := by
    split_ifs with heq
    · exact heq ▸ hinside
    · exact nofun
  afterFront source := by
    split_ifs
    · rw [hfront]
      exact nofun
    · exact nofun

end MemoryUnits
