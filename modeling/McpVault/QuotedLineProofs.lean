import McpVault.TextProofs

/-! # Lines with double-quoted scalars

A front matter is written line by line, with at most one double-quoted scalar on each.  A line
break in a scalar is what quoting does not take care of: the reader folds it (`fold_eq_iff`), and
a fence is found there (`fence_split`).  Otherwise the lines can be read off the text
(`joinLines_injective`). -/

namespace YamlBlock

open List
open PlainText (Text)

/-! ## Quoting -/

def escape (c : Char) : Text :=
  if c = '\\' then ['\\', '\\'] else if c = '"' then ['\\', '"'] else [c]

/-- Double-quoted; backslash and quote escaped. -/
def quote (s : Text) : Text := '"' :: (s.flatMap escape ++ ['"'])

/-- Where a scanner is. -/
inductive Mode where
  | bare
  | quoted
  | escaped

def Mode.next : Mode → Char → Mode
  | .bare, c => if c = '"' then .quoted else .bare
  | .quoted, c => if c = '"' then .bare else if c = '\\' then .escaped else .quoted
  | .escaped, _ => .quoted

def mode (m : Mode) (t : Text) : Mode := t.foldl Mode.next m

theorem mode_append (m : Mode) (t u : Text) : mode m (t ++ u) = mode (mode m t) u :=
  foldl_append

theorem mode_escape (c : Char) : mode .quoted (escape c) = .quoted := by
  unfold escape
  split_ifs with hslash hquote
  · rfl
  · rfl
  · show (if c = '"' then Mode.bare else if c = '\\' then Mode.escaped else Mode.quoted) = _
    rw [if_neg hquote, if_neg hslash]

theorem mode_escaped (s : Text) : mode .quoted (s.flatMap escape) = .quoted := by
  induction s with
  | nil => rfl
  | cons c s ih => rw [flatMap_cons, mode_append, mode_escape, ih]

theorem mode_quote (s : Text) : mode .bare (quote s) = .bare := by
  show mode .quoted (s.flatMap escape ++ ['"']) = .bare
  rw [mode_append, mode_escaped]
  rfl

variable {a b rest s t x y : Text}

theorem mode_bare_of_quoteless (h : '"' ∉ t) : mode .bare t = .bare := by
  induction t with
  | nil => rfl
  | cons c t ih =>
    have hc : c ≠ '"' := fun heq => h (heq ▸ mem_cons_self)
    show mode (if c = '"' then Mode.quoted else Mode.bare) t = _
    rw [if_neg hc]
    exact ih fun hmem => h (mem_cons_of_mem c hmem)

theorem escape_append_ne {c : Char} : escape c ++ x ≠ '"' :: y := by
  intro h
  unfold escape at h
  split_ifs at h with hslash hquote
  · exact absurd (List.cons.inj h).1 (by decide)
  · exact absurd (List.cons.inj h).1 (by decide)
  · exact absurd (List.cons.inj h).1 hquote

/-- The escaped text can be read off. -/
theorem escaped_sharp (h : a.flatMap escape ++ '"' :: x = b.flatMap escape ++ '"' :: y) :
    a = b ∧ x = y := by
  induction a generalizing b with
  | nil =>
    cases b with
    | nil => exact ⟨rfl, (List.cons.inj h).2⟩
    | cons d b =>
      rw [flatMap_cons, append_assoc] at h
      exact absurd h.symm escape_append_ne
  | cons c a ih =>
    cases b with
    | nil =>
      rw [flatMap_cons, append_assoc] at h
      exact absurd h escape_append_ne
    | cons d b =>
      rw [flatMap_cons, flatMap_cons] at h
      have hhead : c = d ∧
          a.flatMap escape ++ '"' :: x = b.flatMap escape ++ '"' :: y := by
        unfold escape at h ⊢
        split_ifs at h with hc hd hd' hc' hd hd' hd hd'
        · exact ⟨hc.trans hd.symm, (List.cons.inj (List.cons.inj h).2).2⟩
        · exact absurd (List.cons.inj (List.cons.inj h).2).1 (by decide)
        · exact absurd (List.cons.inj h).1.symm hd
        · exact absurd (List.cons.inj (List.cons.inj h).2).1 (by decide)
        · exact ⟨hc'.trans hd'.symm, (List.cons.inj (List.cons.inj h).2).2⟩
        · exact absurd (List.cons.inj h).1.symm hd
        · exact absurd (List.cons.inj h).1 hc
        · exact absurd (List.cons.inj h).1 hc
        · exact ⟨(List.cons.inj h).1, (List.cons.inj h).2⟩
      obtain ⟨rfl, hrest⟩ := hhead
      obtain ⟨rfl, rfl⟩ := ih hrest
      exact ⟨rfl, rfl⟩

theorem quote_sharp (h : quote a ++ x = quote b ++ y) : a = b ∧ x = y := by
  have htail : a.flatMap escape ++ ['"'] ++ x = b.flatMap escape ++ ['"'] ++ y :=
    (List.cons.inj h).2
  rw [append_assoc, append_assoc] at htail
  exact escaped_sharp htail

/-- The scanner stays inside the quotes. -/
theorem escaped_split (h : s.flatMap escape ++ ['"'] = t ++ '\n' :: rest) :
    mode .quoted t ≠ .bare ∧ '\n' ∈ s := by
  induction s generalizing t with
  | nil =>
    cases t with
    | nil => exact absurd (List.cons.inj h).1 (by decide)
    | cons d t =>
      have hnil := (List.cons.inj h).2
      exact absurd (congrArg List.length hnil) (by simp)
  | cons c s ih =>
    rw [flatMap_cons, append_assoc] at h
    -- the text is over `escape c`, or goes on behind it
    rcases append_eq_append_iff.mp h with ⟨t', ht, hrest⟩ | ⟨e, he, hrest⟩
    · subst ht
      rw [mode_append, mode_escape]
      obtain ⟨hmode, hmem⟩ := ih hrest
      exact ⟨hmode, mem_cons_of_mem c hmem⟩
    · cases e with
      | nil =>
        rw [append_nil] at he
        obtain ⟨_, hmem⟩ := ih (t := []) hrest.symm
        rw [← he, mode_escape]
        exact ⟨nofun, mem_cons_of_mem c hmem⟩
      | cons d e =>
        obtain ⟨rfl, _⟩ := List.cons.inj hrest
        have hin : '\n' ∈ escape c := he ▸ mem_append_right t mem_cons_self
        have hc : c = '\n' := by
          unfold escape at hin
          split_ifs at hin with hslash hquote
          · exact absurd hin (by decide)
          · exact absurd hin (by decide)
          · exact (mem_singleton.mp hin).symm
        subst hc
        have ht : t = [] := by
          have hlen : 1 = t.length + (e.length + 1) :=
            (congrArg List.length he).trans length_append
          exact length_eq_zero_iff.mp (by omega)
        subst ht
        exact ⟨nofun, mem_cons_self⟩

theorem quote_split (h : quote s = t ++ '\n' :: rest) : mode .bare t ≠ .bare ∧ '\n' ∈ s := by
  cases t with
  | nil => exact absurd (List.cons.inj h).1 (by decide)
  | cons c t =>
    obtain ⟨rfl, htail⟩ := List.cons.inj h
    exact escaped_split htail

/-! ## Folding -/

def isBreak (c : Char) : Bool := c = '\n' || c = '\r'

def isBlank (c : Char) : Bool := c = ' ' || c = '\t'

/-- No line break. -/
def OneLine (s : Text) : Prop := ∀ c ∈ s, isBreak c = false

-- named, since there is also an instance that runs through all characters
instance (s : Text) : Decidable (OneLine s) := List.decidableBAll _ _

/-- The breaks of a text; CRLF is one. -/
def countBreaks : Text → Nat
  | [] => 0
  | '\r' :: '\n' :: t => countBreaks t + 1
  | c :: t => if isBreak c then countBreaks t + 1 else countBreaks t

/-- One break is a space, more are one fewer. -/
def foldedRun (run : Text) : Text :=
  match countBreaks run with
  | 0 => run
  | 1 => [' ']
  | n + 2 => List.replicate (n + 1) '\n'

/-- The scalar read, with the open run of blanks. -/
def foldLoop (run : Text) : Text → Text
  | [] => foldedRun run
  | c :: t =>
    if isBlank c || isBreak c then foldLoop (run ++ [c]) t else foldedRun run ++ c :: foldLoop [] t

/-- Flow folding. -/
def fold (s : Text) : Text := foldLoop [] s

section Folding

variable {s t run : Text}

theorem countBreaks_le (t : Text) : countBreaks t ≤ t.countP isBreak := by
  fun_induction countBreaks t with
  | case1 => exact Nat.le_refl _
  | case2 t ih =>
    rw [countP_cons_of_pos (by decide), countP_cons_of_pos (by decide)]
    omega
  | case3 c t hcr hbreak ih =>
    rw [countP_cons_of_pos hbreak]
    omega
  | case4 c t hcr hbreak ih =>
    rw [countP_cons_of_neg hbreak]
    exact ih

theorem countBreaks_pos (h : 0 < t.countP isBreak) : 0 < countBreaks t := by
  fun_induction countBreaks t with
  | case1 => exact h
  | case2 t ih | case3 c t hcr hbreak ih => exact Nat.succ_pos _
  | case4 c t hcr hbreak ih =>
    rw [countP_cons_of_neg hbreak] at h
    exact ih h

/-- A folded run has fewer breaks. -/
theorem foldedRun_breaks (h : 0 < run.countP isBreak) :
    (foldedRun run).countP isBreak < run.countP isBreak := by
  have hpos := countBreaks_pos h
  have hle := countBreaks_le run
  unfold foldedRun
  split
  next hzero => omega
  next hone => exact h
  next n hn =>
    rw [countP_replicate, if_pos (by decide)]
    omega

theorem foldedRun_of_zero (h : run.countP isBreak = 0) : foldedRun run = run := by
  have hzero : countBreaks run = 0 := Nat.le_zero.mp (h ▸ countBreaks_le run)
  unfold foldedRun
  rw [hzero]

theorem foldedRun_breaks_le (run : Text) : (foldedRun run).countP isBreak ≤ run.countP isBreak := by
  rcases Nat.eq_zero_or_pos (run.countP isBreak) with hzero | hpos
  · rw [foldedRun_of_zero hzero]
  · exact Nat.le_of_lt (foldedRun_breaks hpos)

theorem foldLoop_breaks (run t : Text) :
    (foldLoop run t).countP isBreak ≤ (run ++ t).countP isBreak ∧ (0 < (run ++ t).countP isBreak →
        (foldLoop run t).countP isBreak < (run ++ t).countP isBreak) := by
  induction t generalizing run with
  | nil =>
    rw [append_nil]
    exact ⟨foldedRun_breaks_le run, foldedRun_breaks⟩
  | cons c t ih =>
    rw [foldLoop]
    split_ifs with hrun
    · have hassoc : run ++ c :: t = run ++ [c] ++ t := append_cons run c t
      rw [hassoc]
      exact ih (run ++ [c])
    · have hc : ¬ isBreak c := fun h => hrun (by rw [h, Bool.or_true])
      obtain ⟨hle, hlt⟩ := ih []
      rw [nil_append] at hle hlt
      rw [countP_append, countP_append, countP_cons_of_neg hc, countP_cons_of_neg hc]
      have hrunle := foldedRun_breaks_le run
      refine ⟨Nat.add_le_add hrunle hle, fun hpos => ?_⟩
      rcases Nat.eq_zero_or_pos (run.countP isBreak) with hzero | hrunpos
      · have := hlt (by omega)
        omega
      · have := foldedRun_breaks hrunpos
        omega

theorem foldLoop_of_oneLine (hrun : OneLine run) (ht : OneLine t) : foldLoop run t = run ++ t := by
  have hzero : ∀ u : Text, OneLine u → u.countP isBreak = 0 := by
    intro u hu
    refine countP_eq_zero.mpr fun c hc => ?_
    rw [hu c hc]
    exact Bool.false_ne_true
  induction t generalizing run with
  | nil => rw [foldLoop, foldedRun_of_zero (hzero run hrun), append_nil]
  | cons c t ih =>
    have htail : OneLine t := fun d hd => ht d (mem_cons_of_mem c hd)
    rw [foldLoop]
    split_ifs with hblank
    · have hnext : OneLine (run ++ [c]) := by
        intro d hd
        rcases mem_append.mp hd with hd | hd
        · exact hrun d hd
        · exact ht d (mem_singleton.mp hd ▸ mem_cons_self)
      rw [ih hnext htail, ← append_cons]
    · have hnil : OneLine [] := nofun
      rw [foldedRun_of_zero (hzero run hrun), ih hnil htail]
      rfl

/-- **FOLDING SHOWS**: only one-line scalars stay. -/
theorem fold_eq_iff : fold s = s ↔ OneLine s := by
  constructor
  · intro h c hc
    by_contra hbreak
    have hpos : 0 < s.countP isBreak :=
      countP_pos_iff.mpr ⟨c, hc, by simpa using hbreak⟩
    have hlt := (foldLoop_breaks [] s).2 hpos
    rw [show foldLoop [] s = s from h] at hlt
    exact Nat.lt_irrefl _ hlt
  · intro h
    have hnil : OneLine [] := nofun
    exact foldLoop_of_oneLine hnil h

end Folding

/-! ## Lines -/

/-- A literal text, then at most one scalar. -/
@[ext] structure Line where
  head : Text
  scalar : Option Text
  deriving DecidableEq

def Line.text (l : Line) : Text := l.head ++ l.scalar.elim [] quote

/-- No quote, no break, no dash first. -/
structure Line.Good (l : Line) : Prop where
  quoteless : '"' ∉ l.head
  single : '\n' ∉ l.head
  start : ∃ c rest, l.head = c :: rest ∧ c ≠ '-'

def joinLines (ls : List Line) : Text := ['\n'].intercalate (ls.map Line.text)

section Lines

variable {l m : Line} {ls ms : List Line} {t rest r : Text}

theorem joinLines_cons (h : ls ≠ []) : joinLines (l :: ls) = l.text ++ '\n' :: joinLines ls := by
  obtain ⟨m, ms, rfl⟩ := exists_cons_of_ne_nil h
  rfl

theorem joinLines_singleton : joinLines [l] = l.text := intercalate_singleton

theorem Line.Good.mode_text (h : l.Good) : mode .bare l.text = .bare := by
  unfold Line.text
  rw [mode_append, mode_bare_of_quoteless h.quoteless]
  cases l.scalar with
  | none => rfl
  | some s => exact mode_quote s

/-- A break inside a line is inside its scalar. -/
theorem Line.Good.split (h : l.Good) (hsplit : l.text = t ++ '\n' :: rest) :
    mode .bare t ≠ .bare ∧ ∃ s ∈ l.scalar, '\n' ∈ s := by
  rcases append_eq_append_iff.mp hsplit with ⟨t', rfl, hscalar⟩ | ⟨e, he, hrest⟩
  · cases hs : l.scalar with
    | none =>
      rw [hs] at hscalar
      exact absurd (congrArg List.length hscalar) (by simp)
    | some s =>
      rw [hs] at hscalar
      obtain ⟨hmode, hmem⟩ := quote_split hscalar
      rw [mode_append, mode_bare_of_quoteless h.quoteless]
      exact ⟨hmode, s, rfl, hmem⟩
  · cases e with
    | nil =>
      cases hs : l.scalar with
      | none =>
        rw [hs] at hrest
        exact absurd (congrArg List.length hrest) (by simp)
      | some s =>
        rw [hs] at hrest
        exact absurd (List.cons.inj hrest).1 (by decide)
    | cons d e =>
      obtain ⟨rfl, _⟩ := List.cons.inj hrest
      have hin : '\n' ∈ l.head := he ▸ mem_append_right t mem_cons_self
      exact absurd hin h.single

theorem joinLines_mode (h : ∀ l ∈ ls, l.Good) : mode .bare (joinLines ls) = .bare := by
  induction ls with
  | nil => rfl
  | cons l ls ih =>
    have hl := h l mem_cons_self
    rcases Decidable.eq_or_ne ls [] with rfl | hne
    · rw [joinLines_singleton]
      exact hl.mode_text
    · rw [joinLines_cons hne, mode_append, hl.mode_text]
      exact ih fun m hm => h m (mem_cons_of_mem l hm)

theorem joinLines_start (hne : ls ≠ []) (h : ∀ l ∈ ls, l.Good) :
    ∃ c rest, joinLines ls = c :: rest ∧ c ≠ '-' := by
  obtain ⟨l, ls, rfl⟩ := exists_cons_of_ne_nil hne
  obtain ⟨c, more, hhead, hc⟩ := (h l mem_cons_self).start
  cases ls with
  | nil =>
    rw [joinLines_singleton, Line.text, hhead]
    exact ⟨c, _, rfl, hc⟩
  | cons m ms =>
    rw [joinLines_cons (cons_ne_nil m ms), Line.text, hhead]
    exact ⟨c, _, rfl, hc⟩

/-- A break is between two lines, or in a scalar. -/
theorem joinLines_split (h : ∀ l ∈ ls, l.Good) (hsplit : joinLines ls = t ++ '\n' :: rest) :
    (∃ c more, rest = c :: more ∧ c ≠ '-') ∨
      mode .bare t ≠ .bare ∧ ∃ l ∈ ls, ∃ s ∈ l.scalar, '\n' ∈ s := by
  induction ls generalizing t with
  | nil => exact absurd (congrArg List.length hsplit) (by simp [joinLines])
  | cons l ls ih =>
    have hl := h l mem_cons_self
    have hls : ∀ m ∈ ls, m.Good := fun m hm => h m (mem_cons_of_mem l hm)
    rcases Decidable.eq_or_ne ls [] with rfl | hne
    · rw [joinLines_singleton] at hsplit
      obtain ⟨hmode, s, hs, hmem⟩ := hl.split hsplit
      exact .inr ⟨hmode, l, mem_cons_self, s, hs, hmem⟩
    · rw [joinLines_cons hne] at hsplit
      rcases append_eq_append_iff.mp hsplit with ⟨t', rfl, htail⟩ | ⟨e, he, htail⟩
      · cases t' with
        | nil =>
          obtain ⟨c, more, hstart, hc⟩ := joinLines_start hne hls
          exact .inl ⟨c, more, (List.cons.inj htail).2.symm.trans hstart, hc⟩
        | cons d t' =>
          obtain ⟨rfl, hafter⟩ := List.cons.inj htail
          rcases ih hls hafter with hstart | ⟨hmode, m, hm, s, hs, hmem⟩
          · exact .inl hstart
          · refine .inr ⟨?_, m, mem_cons_of_mem l hm, s, hs, hmem⟩
            rw [mode_append, hl.mode_text]
            exact hmode
      · cases e with
        | nil =>
          obtain ⟨c, more, hstart, hc⟩ := joinLines_start hne hls
          exact .inl ⟨c, more, (List.cons.inj htail).2.trans hstart, hc⟩
        | cons d e =>
          obtain ⟨rfl, _⟩ := List.cons.inj htail
          obtain ⟨hmode, s, hs, hmem⟩ := hl.split he
          exact .inr ⟨hmode, l, mem_cons_self, s, hs, hmem⟩

/-- The heads end at the first quote or break. -/
def inHead (c : Char) : Bool := decide (c ≠ '"' ∧ c ≠ '\n')

theorem Line.Good.inHead (h : l.Good) : ∀ c ∈ l.head, inHead c := by
  intro c hc
  refine decide_eq_true ⟨?_, ?_⟩
  · rintro rfl
    exact h.quoteless hc
  · rintro rfl
    exact h.single hc

/-- What stands behind a line. -/
def after (ls : List Line) : Text := if ls = [] then [] else '\n' :: joinLines ls

theorem joinLines_eq_after (l : Line) (ls : List Line) :
    joinLines (l :: ls) = l.head ++ (l.scalar.elim [] quote ++ after ls) := by
  unfold after
  split_ifs with hnil
  · rw [hnil, joinLines_singleton, append_nil]
    rfl
  · rw [joinLines_cons hnil, Line.text, append_assoc]

theorem after_cases (ls : List Line) : after ls = [] ∨ ∃ x, after ls = '\n' :: x := by
  unfold after
  split_ifs
  · exact .inl rfl
  · exact .inr ⟨_, rfl⟩

theorem scalar_after_stop (s : Option Text) (ls : List Line) :
    ∀ c ∈ (s.elim [] quote ++ after ls).head?, inHead c = false := by
  intro c hc
  cases s with
  | some s =>
    cases hc
    rfl
  | none =>
    rcases after_cases ls with hnil | ⟨x, hx⟩
    · rw [Option.elim_none, hnil] at hc
      cases hc
    · rw [Option.elim_none, hx] at hc
      cases hc
      rfl

theorem scalar_after_sharp {s u : Option Text}
    (h : s.elim [] quote ++ after ls = u.elim [] quote ++ after ms) :
    s = u ∧ after ls = after ms := by
  cases s with
  | none =>
    cases u with
    | none => exact ⟨rfl, h⟩
    | some u =>
      rcases after_cases ls with hnil | ⟨x, hx⟩
      · cases hnil.symm.trans h
      · exact absurd (List.cons.inj (hx.symm.trans h)).1 (by decide)
  | some s =>
    cases u with
    | none =>
      rcases after_cases ms with hnil | ⟨x, hx⟩
      · cases h.trans hnil
      · exact absurd (List.cons.inj (h.trans hx)).1 (by decide)
    | some u =>
      obtain ⟨rfl, hrest⟩ := quote_sharp h
      exact ⟨rfl, hrest⟩

/-- **LINES CAN BE READ OFF** the text. -/
theorem joinLines_injective (h : ∀ l ∈ ls, l.Good) (h' : ∀ m ∈ ms, m.Good)
    (heq : joinLines ls = joinLines ms) : ls = ms := by
  induction ls generalizing ms with
  | nil =>
    by_contra hne
    obtain ⟨c, rest, hstart, _⟩ := joinLines_start (Ne.symm hne) h'
    cases heq.trans hstart
  | cons l ls ih =>
    cases ms with
    | nil =>
      obtain ⟨c, rest, hstart, _⟩ := joinLines_start (cons_ne_nil l ls) h
      cases heq.symm.trans hstart
    | cons m ms =>
      have hl := h l mem_cons_self
      have hm := h' m mem_cons_self
      rw [joinLines_eq_after, joinLines_eq_after] at heq
      obtain ⟨hhead, htail⟩ := PlainText.append_stop_inj hl.inHead hm.inHead
        (scalar_after_stop _ _) (scalar_after_stop _ _) heq
      obtain ⟨hscalar, hafter⟩ := scalar_after_sharp htail
      have hlm : l = m := Line.ext hhead hscalar
      have hrest : ls = ms := by
        refine ih (fun x hx => h x (mem_cons_of_mem l hx))
          (fun x hx => h' x (mem_cons_of_mem m hx)) ?_
        unfold after at hafter
        split_ifs at hafter with hnil hnil' hnil'
        · rw [hnil, hnil']
        · exact (List.cons.inj hafter).2
      rw [hlm, hrest]

/-! ## The fence -/

/-- `str::split_once`. -/
def splitOnce (needle : Text) : Text → Option (Text × Text)
  | [] => if needle = [] then some ([], []) else none
  | c :: t =>
    if needle.isPrefixOf (c :: t) then some ([], (c :: t).drop needle.length)
    else (splitOnce needle t).map fun halves => (c :: halves.1, halves.2)

/-- The first occurrence is found, if any. -/
theorem splitOnce_spec (needle a b : Text) :
    ∃ a' b', splitOnce needle (a ++ (needle ++ b)) = some (a', b') ∧
      a ++ (needle ++ b) = a' ++ (needle ++ b') ∧ a'.length ≤ a.length := by
  induction a with
  | nil =>
    refine ⟨[], b, ?_, rfl, Nat.le_refl _⟩
    rw [nil_append]
    cases h : needle ++ b with
    | nil =>
      obtain ⟨rfl, rfl⟩ := append_eq_nil_iff.mp h
      rfl
    | cons c t =>
      have hstart : needle.isPrefixOf (c :: t) := by
        rw [← h]
        exact isPrefixOf_iff_prefix.mpr (prefix_append needle b)
      rw [splitOnce, if_pos hstart, ← h, drop_left]
  | cons c a ih =>
    rw [cons_append, splitOnce]
    split_ifs with hstart
    · obtain ⟨rest, hrest⟩ := isPrefixOf_iff_prefix.mp hstart
      refine ⟨[], rest, ?_, hrest.symm, Nat.zero_le _⟩
      rw [← hrest, drop_left]
    · obtain ⟨a', b', hsplit, heq, hle⟩ := ih
      refine ⟨c :: a', b', ?_, ?_, Nat.succ_le_succ hle⟩
      · rw [hsplit]
        rfl
      · rw [heq]
        rfl

def fence : Text := "\n---\n".toList

/-- **THE FENCE IS FOUND** behind the lines or inside one. -/
theorem fence_split (h : ∀ l ∈ ls, l.Good) (r : Text) :
    splitOnce fence (joinLines ls ++ (fence ++ r)) = some (joinLines ls, r) ∨
      ∃ t r', splitOnce fence (joinLines ls ++ (fence ++ r)) = some (t, r') ∧
        t <+: joinLines ls ∧ mode .bare t ≠ .bare ∧ ∃ l ∈ ls, ∃ s ∈ l.scalar, '\n' ∈ s := by
  obtain ⟨t, r', hsplit, heq, hle⟩ := splitOnce_spec fence (joinLines ls) r
  rcases append_eq_append_iff.mp heq with ⟨e, ht, hrest⟩ | ⟨e, he, hrest⟩
  · -- not before the end of the lines, so it is the fence behind them
    have hnil : e = [] := by
      rw [ht, length_append] at hle
      exact length_eq_zero_iff.mp (by omega)
    subst hnil
    rw [append_nil] at ht
    subst ht
    have hr : r = r' := append_cancel_left hrest
    subst hr
    exact .inl hsplit
  · cases e with
    | nil =>
      rw [append_nil] at he
      subst he
      have hr : r' = r := append_cancel_left hrest
      subst hr
      exact .inl hsplit
    | cons d e =>
      -- the break that begins the fence is one of the text of the lines
      obtain ⟨rfl, htail⟩ := List.cons.inj hrest
      refine .inr ⟨t, r', hsplit, ⟨_, he.symm⟩, ?_⟩
      rcases joinLines_split h he with ⟨c, more, rfl, hc⟩ | hquoted
      · exact absurd (List.cons.inj htail).1.symm hc
      · exact hquoted

end Lines

end YamlBlock
