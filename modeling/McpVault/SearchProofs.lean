import McpVault.ToolRequestProofs
import McpVault.PaginationProofs

/-! # Searching notes page by page

Each page of `search_notes` is cut from a ranking of its own: the lexical matches and the
semantic matches are taken up to a pool size, which grows with the end of the page, and are fused
into one list.  Whether there is another page is read off the length of that list. -/

namespace NoteSearch

open List
open PlainText (Text)
open ToolRequest (ToolError maxOffset maxU32 boundedLimit boundedLimit_ok offsetCursor
  cursorRefusal parseCursor parseCursor_offsetCursor)
open Pagination (Page Follows Reachable)
open Fallible (bind_ok_iff)

/-! ## Candidates -/

structure Note where
  fileId : Nat
  path : Text
  deriving DecidableEq

inductive Mode where
  | lexical
  | semantic
  | hybrid
  deriving DecidableEq

/-- Does a hit name a note, and is it current? -/
structure VectorHit (γ : Type) where
  fileId : Nat
  (isNote isCurrent isFinite : Bool)
  cosine : γ

/-- Scores; lexical ones fall with the rank. -/
structure Scores (S γ : Type) [LinearOrder S] where
  zero : S
  add : S → S → S
  lexical : Nat → S
  semantic : γ → Nat → Option S
  lexical_anti : StrictAnti lexical

/-- Notes with all terms, with any, and vector hits. -/
structure SearchIndex (γ : Type) where
  (matchAll matchAny : List Note)
  vectors : List (VectorHit γ)
  noteOf : Nat → Option Note
  inScope : Note → Bool
  matchAll_nodup : (matchAll.map (·.fileId)).Nodup
  matchAny_nodup : (matchAny.map (·.fileId)).Nodup
  noteOf_fileId : ∀ id note, noteOf id = some note → note.fileId = id

inductive SearchError where
  | invalidInput
  | state
  deriving DecidableEq

def maxQueryLimit : Nat := 100

def maxChunks : Nat := 8192

def maxVectorCandidates : Nat := 10000

structure Ranked (S : Type) where
  note : Note
  score : S

section Retrieval

variable {S γ : Type} [LinearOrder S] (scores : Scores S γ) (index : SearchIndex γ) (mode : Mode)

/-- The notes that the full-text search of a mode finds. -/
def lexicalMatches : List Note :=
  match mode with
  | .lexical => index.matchAll
  | .hybrid => index.matchAny
  | .semantic => []

/-- `search_notes_query`, refused beyond its own limit. -/
def searchNotesQuery (pool : Nat) : Except SearchError (List Note) :=
  if mode = .semantic then .ok []
  else if pool = 0 ∨ maxQueryLimit < pool then .error .state
  else .ok ((lexicalMatches index mode).take pool)

/-- What is done with a vector hit. -/
inductive Verdict (S : Type) where
  | skip
  | exclude
  | select (note : Note) (component : S)

/-- One hit in `add_semantic_note_hits`. -/
def judge (selected excluded : List Nat) (hit : VectorHit γ) : Verdict S :=
  if hit.isFinite && hit.isNote && decide (hit.fileId ∉ selected ∧ hit.fileId ∉ excluded) &&
      hit.isCurrent then
    match index.noteOf hit.fileId with
    | none => .exclude
    | some note =>
      if index.inScope note then
        match scores.semantic hit.cosine selected.length with
        | none => .skip
        | some component => .select note component
      else .exclude
  else .skip

/-- The loop selects notes with contributions. -/
def selectNotes (pool : Nat) (selected excluded : List Nat) : List (VectorHit γ) → List (Note × S)
  | [] => []
  | hit :: rest =>
    match judge scores index selected excluded hit with
    | .skip => selectNotes pool selected excluded rest
    | .exclude => selectNotes pool selected (hit.fileId :: excluded) rest
    | .select note component =>
      (note, component) ::
        if pool ≤ selected.length + 1 then []
        else selectNotes pool (hit.fileId :: selected) excluded rest

def vectorLimit (pool : Nat) : Nat := min (min maxU32 (pool * maxChunks)) maxVectorCandidates

/-- The notes that the vector search selects. -/
def semanticHits (pool : Nat) : List (Note × S) :=
  if mode = .lexical then []
  else selectNotes scores index pool [] [] (index.vectors.take (vectorLimit pool))

/-! ## Fusion -/

def lexicalRanked (notes : List Note) : List (Ranked S) :=
  notes.mapIdx fun rank note => ⟨note, scores.lexical rank⟩

/-- A hit adds to its note's score, or adds the note. -/
def addSemantic (ranked : List (Ranked S)) (hit : Note × S) : List (Ranked S) :=
  if hit.1.fileId ∈ ranked.map (·.note.fileId) then
    ranked.map fun r =>
      if r.note.fileId = hit.1.fileId then { r with score := scores.add r.score hit.2 } else r
  else ranked ++ [⟨hit.1, scores.add scores.zero hit.2⟩]

def fuse (notes : List Note) (hits : List (Note × S)) : List (Ranked S) :=
  hits.foldl (addSemantic scores) (lexicalRanked scores notes)

/-- The higher score first, then the path, then the file. -/
def rank (r : Ranked S) : Sᵒᵈ ×ₗ Text ×ₗ Nat :=
  toLex (OrderDual.toDual r.score, toLex (r.note.path, r.note.fileId))

def sortRanked (ranked : List (Ranked S)) : List (Ranked S) :=
  ranked.insertionSort fun a b => rank a ≤ rank b

def poolLimit (limit offset : Nat) : Nat := max 50 (min 500 (min maxU32 (offset + limit)))

/-- `retrieve_notes`: a page, and how many there are. -/
def retrieveNotes (limit offset : Nat) : Except SearchError (List (Ranked S) × Nat) :=
  if limit = 0 ∨ 100 < limit ∨ 500 < min maxU32 (offset + limit) then .error .invalidInput
  else do
    let pool := poolLimit limit offset
    let lexical ← searchNotesQuery index mode pool
    let ranked := sortRanked (fuse scores lexical (semanticHits scores index mode pool))
    .ok ((ranked.drop offset).take limit, ranked.length)

def indexError : SearchError → ToolError
  | .invalidInput => ⟨"invalid_argument", "the index request is invalid", false⟩
  | .state => ⟨"temporarily_unavailable", "the index is unavailable", true⟩

/-- The page and the next cursor. -/
def searchData (limit offset : Nat) : Except ToolError (Page Text (Ranked S)) :=
  match retrieveNotes scores index mode limit offset with
  | .error e => .error (indexError e)
  | .ok (hits, available) =>
    .ok ⟨hits, if min maxU32 (offset + hits.length) < available then
      some (offsetCursor (min maxU32 (offset + hits.length))) else none⟩

/-- `search_notes` with a limit and a cursor. -/
def searchNotes (limit : Option Nat) (cursor : Option Text) :
    Except ToolError (Page Text (Ranked S)) := do
  let limit ← boundedLimit limit 12
  let offset ← parseCursor cursor
  searchData scores index mode limit offset

/-! ## The ranking that the pages are meant to be cut from -/

/-- The semantic matches without a pool size. -/
def semanticMatches : List (Note × S) :=
  if mode = .lexical then []
  else selectNotes scores index (index.vectors.length + 1) [] []
    (index.vectors.take maxVectorCandidates)

/-- All matching notes, fused into one ranking. -/
def ranking : List Note :=
  (sortRanked (fuse scores (lexicalMatches index mode) (semanticMatches scores index mode))).map
    (·.note)

/-- The notes fused up to a pool size. -/
def pooled (pool : Nat) : List (Ranked S) :=
  sortRanked (fuse scores ((lexicalMatches index mode).take pool)
    ((semanticMatches scores index mode).take pool))

end Retrieval

/-! ## What a pool has -/

section Pools

variable {S γ : Type} [LinearOrder S] {scores : Scores S γ} {index : SearchIndex γ} {mode : Mode}
  {hits : List (Note × S)} {ranked : List (Ranked S)} {excluded selected : List Nat}
  {pool : Nat}

theorem judge_select {hit : VectorHit γ} {note : Note} {component : S}
    (h : judge scores index selected excluded hit = .select note component) :
    note.fileId = hit.fileId ∧ hit.fileId ∉ selected := by
  rw [judge] at h
  split_ifs at h with hfresh
  have hnew : hit.fileId ∉ selected := by
    simp only [Bool.and_eq_true, decide_eq_true_eq] at hfresh
    exact hfresh.1.2.1
  cases hnote : index.noteOf hit.fileId with
  | none =>
    rw [hnote] at h
    cases h
  | some found =>
    rw [hnote] at h
    have hfile := index.noteOf_fileId _ _ hnote
    by_cases hscope : index.inScope found
    · cases hscore : scores.semantic hit.cosine selected.length with
      | none =>
        simp only [hscope, hscore] at h
        cases h
      | some value =>
        simp only [hscope, hscore] at h
        cases h
        exact ⟨hfile, hnew⟩
    · simp only [hscope] at h
      cases h

/-- A pool selects the first of the notes. -/
theorem selectNotes_take {hits : List (VectorHit γ)} {most : Nat}
    (hpool : selected.length < pool) (hmost : selected.length + hits.length < most) :
    selectNotes scores index pool selected excluded hits =
      (selectNotes scores index most selected excluded hits).take (pool - selected.length) := by
  induction hits generalizing selected excluded with
  | nil => exact take_nil.symm
  | cons hit rest ih =>
    rw [length_cons] at hmost
    rw [selectNotes, selectNotes]
    cases judge scores index selected excluded hit with
    | skip | exclude => exact ih hpool (by omega)
    | select note component =>
      show _ :: _ = List.take _ (_ :: if _ then _ else _)
      obtain ⟨room, hroom⟩ : ∃ room, pool - selected.length = room + 1 :=
        ⟨pool - selected.length - 1, by omega⟩
      rw [hroom, if_neg (by omega : ¬ most ≤ selected.length + 1)]
      refine congrArg (List.cons _) ?_
      by_cases hfull : pool ≤ selected.length + 1
      · rw [if_pos hfull, show room = 0 by omega]
        rfl
      · rw [if_neg hfull, ih (by rw [length_cons]; omega) (by rw [length_cons]; omega),
          length_cons, show pool - (selected.length + 1) = room by omega]

theorem vectorLimit_eq (h : 50 ≤ pool) : vectorLimit pool = maxVectorCandidates := by
  have hlarge : maxVectorCandidates ≤ min maxU32 (pool * maxChunks) := by
    refine Nat.le_min.mpr ⟨by decide, ?_⟩
    exact Nat.le_trans (by decide) (Nat.mul_le_mul_right maxChunks h)
  exact Nat.min_eq_right hlarge

/-- Only the notes selected are cut by a pool. -/
theorem semanticHits_eq (h : 50 ≤ pool) :
    semanticHits scores index mode pool = (semanticMatches scores index mode).take pool := by
  rw [semanticHits, semanticMatches, vectorLimit_eq h]
  split_ifs
  · exact take_nil.symm
  · refine selectNotes_take (by rw [length_nil]; omega) ?_
    rw [length_nil, length_take]
    omega

/-- The files of a fused list. -/
def files (ranked : List (Ranked S)) : List Nat := ranked.map (·.note.fileId)

theorem files_addSemantic (ranked : List (Ranked S)) (hit : Note × S) :
    files (addSemantic scores ranked hit) =
      if hit.1.fileId ∈ files ranked then files ranked else files ranked ++ [hit.1.fileId] := by
  rw [addSemantic]
  split_ifs with hmem hmem' hmem'
  · rw [files, map_map]
    refine map_congr_left fun r _ => ?_
    show Note.fileId (Ranked.note (if _ then _ else _)) = _
    split_ifs <;> rfl
  · exact absurd hmem hmem'
  · exact absurd hmem' hmem
  · rw [files, map_append]
    rfl

theorem mem_files_fuse {id : Nat} : id ∈ files (hits.foldl (addSemantic scores) ranked) ↔
      id ∈ files ranked ∨ id ∈ hits.map (·.1.fileId) := by
  induction hits generalizing ranked with
  | nil => simp
  | cons hit hits ih =>
    rw [foldl_cons, ih, files_addSemantic, map_cons, mem_cons, ← or_assoc]
    split_ifs with hmem
    · constructor
      · rintro (h | h)
        · exact .inl (.inl h)
        · exact .inr h
      · rintro ((h | rfl) | h)
        · exact .inl h
        · exact .inl hmem
        · exact .inr h
    · rw [mem_append, mem_singleton]

theorem nodup_files_fuse (h : (files ranked).Nodup) :
    (files (hits.foldl (addSemantic scores) ranked)).Nodup := by
  induction hits generalizing ranked with
  | nil => exact h
  | cons hit hits ih =>
    refine ih ?_
    rw [files_addSemantic]
    split_ifs with hmem
    · exact h
    · exact nodup_append'.mpr
        ⟨h, nodup_singleton _, disjoint_singleton.mpr hmem⟩

theorem length_fuse :
    (hits.foldl (addSemantic scores) ranked).length ≤ ranked.length + hits.length := by
  induction hits generalizing ranked with
  | nil => exact Nat.le_refl _
  | cons hit hits ih =>
    have hone : (addSemantic scores ranked hit).length ≤ ranked.length + 1 := by
      rw [addSemantic]
      split_ifs
      · rw [length_map]
        exact Nat.le_succ _
      · rw [length_append]
        exact Nat.le_refl _
    have hrest := @ih (addSemantic scores ranked hit)
    rw [foldl_cons, length_cons]
    omega

theorem files_lexicalRanked (notes : List Note) :
    files (lexicalRanked scores notes) = notes.map (·.fileId) := by
  rw [files, lexicalRanked]
  refine ext_getElem ?_ ?_
  · simp
  · intro i h h'
    simp

theorem lexicalMatches_nodup (index : SearchIndex γ) (mode : Mode) :
    ((lexicalMatches index mode).map (·.fileId)).Nodup := by
  cases mode with
  | lexical => exact index.matchAll_nodup
  | semantic => exact nodup_nil
  | hybrid => exact index.matchAny_nodup

theorem fuse_files_nodup {notes : List Note} (h : (notes.map (·.fileId)).Nodup)
    (hits : List (Note × S)) : (files (fuse scores notes hits)).Nodup :=
  nodup_files_fuse (by rw [files_lexicalRanked]; exact h)

theorem length_sortRanked (ranked : List (Ranked S)) : (sortRanked ranked).length = ranked.length :=
  length_insertionSort _ _

/-- A pool has no more notes than match. -/
theorem pooled_length_le (pool : Nat) :
    (pooled scores index mode pool).length ≤ (ranking scores index mode).length := by
  rw [pooled, ranking, length_map, length_sortRanked, length_sortRanked]
  have htake : (((lexicalMatches index mode).take pool).map (·.fileId)).Nodup :=
    (lexicalMatches_nodup index mode).sublist ((take_sublist _ _).map _)
  have hsubset : files (fuse scores ((lexicalMatches index mode).take pool)
      ((semanticMatches scores index mode).take pool)) ⊆
        files (fuse scores (lexicalMatches index mode) (semanticMatches scores index mode)) := by
    intro id hid
    rw [fuse, mem_files_fuse, files_lexicalRanked] at hid ⊢
    refine hid.imp ?_ ?_
    · exact fun hid => ((take_sublist _ _).map _).subset hid
    · exact fun hid => ((take_sublist _ _).map _).subset hid
  have hle := (subperm_of_subset (fuse_files_nodup htake _) hsubset).length_le
  rwa [files, files, length_map, length_map] at hle

theorem pooled_length_bound (pool : Nat) : (pooled scores index mode pool).length ≤
      (if mode = .semantic then 0 else pool) + (if mode = .lexical then 0 else pool) := by
  rw [pooled, length_sortRanked]
  refine Nat.le_trans length_fuse (Nat.add_le_add ?_ ?_)
  · rw [lexicalRanked, length_mapIdx, length_take]
    split_ifs with hmode
    · subst hmode
      exact Nat.le_of_eq (Nat.min_zero _)
    · exact Nat.min_le_left _ _
  · rw [length_take]
    split_ifs with hmode
    · rw [semanticMatches, if_pos hmode]
      exact Nat.le_of_eq (Nat.min_zero _)
    · exact Nat.min_le_left _ _

end Pools

/-! ## The pages -/

section Pages

variable {S γ : Type} [LinearOrder S] (scores : Scores S γ) (index : SearchIndex γ) (mode : Mode)
  (L : Nat)

/-- The pool of the page with number `k`. -/
def poolOf (k : Nat) : Nat := poolLimit L (k * L)

/-- How many notes all pages are to have. -/
def wanted : Nat := min 500 (ranking scores index mode).length

/-- The first page, and those before the end. -/
def Wanted (k : Nat) : Prop := k = 0 ∨ k * L < wanted scores index mode

/-- The notes of the page with number `k` in a ranking. -/
def window (notes : List Note) (k : Nat) : List Note := (notes.drop (k * L)).take L

/-- The pools tell what the ranking tells. -/
structure Stable : Prop where
  pool : ∀ k, Wanted scores index mode L k → mode = .semantic ∨ poolOf L k ≤ maxQueryLimit
  notes : ∀ k, Wanted scores index mode L k →
    window L ((pooled scores index mode (poolOf L k)).map (·.note)) k =
      window L ((ranking scores index mode).take 500) k
  more : ∀ k, (k + 1) * L < wanted scores index mode →
    (k + 1) * L < (pooled scores index mode (poolOf L k)).length

/-- The page with number `k`, where it is served. -/
def pageAt (k : Nat) : Page Text (Ranked S) where
  items := ((pooled scores index mode (poolOf L k)).drop (k * L)).take L
  next :=
    if (k + 1) * L < (pooled scores index mode (poolOf L k)).length then
      some (offsetCursor ((k + 1) * L))
    else none

def Served (k : Nat) : Prop :=
  (k + 1) * L ≤ 500 ∧ (mode = .semantic ∨ poolOf L k ≤ maxQueryLimit)

end Pages

section PageLemmas

variable {S γ : Type} [LinearOrder S] {scores : Scores S γ} {index : SearchIndex γ} {mode : Mode}
  {L k : Nat} {limit : Option Nat} {cursor : Option Text} {page : Page Text (Ranked S)}

theorem poolOf_eq (h : (k + 1) * L ≤ 500) : poolOf L k = max 50 ((k + 1) * L) := by
  have hsum := (Nat.add_one_mul k L).symm
  have hsmall : 500 ≤ maxU32 := by decide
  rw [poolOf, poolLimit, hsum, Nat.min_eq_right (Nat.le_trans h hsmall), Nat.min_eq_right h]

theorem end_of_poolOf (h : poolOf L k ≤ maxQueryLimit) : (k + 1) * L ≤ 500 := by
  have hsum := (Nat.add_one_mul k L).symm
  have hlarge : 500 ≤ maxU32 := by decide
  rw [poolOf, poolLimit, maxQueryLimit] at h
  omega

theorem le_poolOf (L k : Nat) : 50 ≤ poolOf L k := Nat.le_max_left _ _

theorem searchNotesQuery_ok {pool : Nat} (hpool : 50 ≤ pool) : searchNotesQuery index mode pool =
      if mode = .semantic ∨ pool ≤ maxQueryLimit then .ok ((lexicalMatches index mode).take pool)
      else .error .state := by
  rw [searchNotesQuery]
  by_cases hmode : mode = .semantic
  · rw [if_pos hmode, if_pos (.inl hmode), hmode, lexicalMatches, take_nil]
  · rw [if_neg hmode]
    by_cases hle : pool ≤ maxQueryLimit
    · rw [if_neg (by omega), if_pos (.inr hle)]
    · rw [if_pos (by omega), if_neg (not_or.mpr ⟨hmode, hle⟩)]

omit [LinearOrder S] in
/-- More are announced if the pool has more. -/
theorem more_iff (ranked : List (Ranked S)) :
    k * L + ((ranked.drop (k * L)).take L).length < ranked.length ↔ (k + 1) * L < ranked.length := by
  have hsum := (Nat.add_one_mul k L).symm
  rw [length_take, length_drop]
  omega

omit [LinearOrder S] in
theorem length_window {ranked : List (Ranked S)} (h : (k + 1) * L < ranked.length) :
    ((ranked.drop (k * L)).take L).length = L := by
  have hsum := (Nat.add_one_mul k L).symm
  rw [length_take, length_drop]
  omega

/-- The notes at the offset of a page. -/
theorem retrieveNotes_page (hpositive : 0 < L) (hle : L ≤ 100) {found : List (Ranked S) × Nat} :
    retrieveNotes scores index mode L (k * L) = .ok found ↔
      Served mode L k ∧ found = (((pooled scores index mode (poolOf L k)).drop (k * L)).take L,
        (pooled scores index mode (poolOf L k)).length) := by
  have hsum := (Nat.add_one_mul k L).symm
  have hlarge : 500 < maxU32 := by decide
  rw [retrieveNotes]
  by_cases hend : (k + 1) * L ≤ 500
  · rw [if_neg (by omega)]
    show (searchNotesQuery index mode (poolOf L k) >>= _) = _ ↔ _
    rw [searchNotesQuery_ok (le_poolOf L k)]
    by_cases hpool : mode = .semantic ∨ poolOf L k ≤ maxQueryLimit
    · rw [if_pos hpool, and_iff_right ⟨hend, hpool⟩]
      have hpooled : sortRanked (fuse scores ((lexicalMatches index mode).take (poolOf L k))
          (semanticHits scores index mode (poolOf L k))) = pooled scores index mode (poolOf L k) := by
        rw [semanticHits_eq (le_poolOf L k), pooled]
      rw [← hpooled]
      exact ⟨fun h => (Except.ok.inj h).symm, fun h => congrArg Except.ok h.symm⟩
    · rw [if_neg hpool]
      constructor
      · intro h
        cases h
      · intro h
        exact absurd h.1.2 hpool
  · rw [if_pos (by omega)]
    constructor
    · intro h
      cases h
    · intro h
      exact absurd h.1.1 hend

omit [LinearOrder S] in
/-- The next cursor of a served page. -/
theorem next_eq (h : (k + 1) * L ≤ 500) (ranked : List (Ranked S)) :
    (if min maxU32 (k * L + ((ranked.drop (k * L)).take L).length) < ranked.length then
      some (offsetCursor (min maxU32 (k * L + ((ranked.drop (k * L)).take L).length))) else none) =
    if (k + 1) * L < ranked.length then some (offsetCursor ((k + 1) * L)) else none := by
  have hsum := (Nat.add_one_mul k L).symm
  have hlarge : 500 ≤ maxU32 := by decide
  have hshort := length_take_le L (ranked.drop (k * L))
  rw [Nat.min_eq_right (by omega)]
  by_cases hmore : (k + 1) * L < ranked.length
  · rw [if_pos ((more_iff _).mpr hmore), if_pos hmore, length_window hmore, hsum]
  · rw [if_neg (mt (more_iff _).mp hmore), if_neg hmore]

/-- The answer at the offset of a page. -/
theorem searchData_page (hpositive : 0 < L) (hle : L ≤ 100) :
    searchData scores index mode L (k * L) = .ok page ↔
      Served mode L k ∧ page = pageAt scores index mode L k := by
  rw [searchData]
  cases hfound : retrieveNotes scores index mode L (k * L) with
  | error e =>
    constructor
    · intro h
      cases h
    · intro h
      rw [(retrieveNotes_page hpositive hle).mpr ⟨h.1, rfl⟩] at hfound
      cases hfound
  | ok found =>
    obtain ⟨hserved, rfl⟩ := (retrieveNotes_page hpositive hle).mp hfound
    rw [and_iff_right hserved, pageAt, ← next_eq hserved.1, eq_comm, Except.ok.injEq]

/-- A cursor stands at the page with number `k`. -/
def StandsAt (L : Nat) (cursor : Option Text) (k : Nat) : Prop :=
  parseCursor cursor = .ok (k * L)

theorem standsAt_first : StandsAt L none 0 := by
  rw [StandsAt, Nat.zero_mul]
  rfl

theorem standsAt_next (h : (k + 1) * L ≤ 500) :
    StandsAt L (some (offsetCursor ((k + 1) * L))) (k + 1) := by
  have hsmall : 500 ≤ maxU32 := by decide
  have hmost : 500 ≤ maxOffset := by decide
  rw [StandsAt, parseCursor_offsetCursor (Nat.le_trans h hsmall),
    if_neg (Nat.not_lt.mpr (Nat.le_trans h hmost))]

/-- The answer at a cursor. -/
theorem searchNotes_page (hlimit : boundedLimit limit 12 = .ok L) (hcursor : StandsAt L cursor k) :
    searchNotes scores index mode limit cursor = .ok page ↔
      Served mode L k ∧ page = pageAt scores index mode L k := by
  obtain ⟨hpositive, hle⟩ := boundedLimit_ok hlimit
  rw [← searchData_page hpositive hle, searchNotes, hlimit]
  show (parseCursor cursor >>= _) = _ ↔ _
  rw [hcursor]
  rfl

/-- A served page's pool has no more than is wanted. -/
theorem served_le (h : Served mode L k) :
    (pooled scores index mode (poolOf L k)).length ≤ wanted scores index mode := by
  refine Nat.le_min.mpr ⟨?_, pooled_length_le _⟩
  have hbound := @pooled_length_bound S γ _ scores index mode (poolOf L k)
  have hpool := poolOf_eq h.1
  have hend := h.1
  have hquery : maxQueryLimit = 100 := rfl
  rcases h.2 with hmode | hsmall
  · rw [if_pos hmode] at hbound
    split_ifs at hbound <;> omega
  · split_ifs at hbound <;> omega

end PageLemmas

/-! ## Completeness -/

section Complete

variable {S γ : Type} [LinearOrder S]

/-- The cursors give the first 500 notes, and end. -/
def Complete (scores : Scores S γ) (index : SearchIndex γ) (mode : Mode) (limit : Option Nat) :
    Prop :=
  (∃ out, Follows (searchNotes scores index mode limit) none out ∧
    out.map (·.note) = (ranking scores index mode).take 500) ∧
  ∀ cursor page, Reachable (searchNotes scores index mode limit) cursor →
    searchNotes scores index mode limit cursor = .ok page → page.next = none →
      ∃ offset, parseCursor cursor = .ok offset ∧
        wanted scores index mode ≤ offset + page.items.length

variable {scores : Scores S γ} {index : SearchIndex γ} {mode : Mode} {L : Nat}
  {limit : Option Nat}

theorem length_take_ranking :
    ((ranking scores index mode).take 500).length = wanted scores index mode :=
  length_take

theorem map_pageAt (k : Nat) : (pageAt scores index mode L k).items.map (·.note) =
    window L ((pooled scores index mode (poolOf L k)).map (·.note)) k := by
  rw [pageAt, window, map_take, map_drop]

variable {k : Nat} {cursor : Option Text}

theorem pageAt_next {c : Text} (h : (pageAt scores index mode L k).next = some c) :
    (k + 1) * L < (pooled scores index mode (poolOf L k)).length ∧ c = offsetCursor ((k + 1) * L) := by
  rw [pageAt] at h
  split_ifs at h with hmore
  exact ⟨hmore, (Option.some.inj h).symm⟩

theorem pageAt_last (h : (pageAt scores index mode L k).next = none) :
    ¬ (k + 1) * L < (pooled scores index mode (poolOf L k)).length := by
  intro hmore
  rw [pageAt, if_pos hmore] at h
  cases h

/-- What `Stable` says from a page on. -/
def StableFrom (scores : Scores S γ) (index : SearchIndex γ) (mode : Mode) (L k : Nat) : Prop :=
  ∀ j, k ≤ j → j = k ∨ j * L < wanted scores index mode →
    (mode = .semantic ∨ poolOf L j ≤ maxQueryLimit) ∧
    window L ((pooled scores index mode (poolOf L j)).map (·.note)) j =
      window L ((ranking scores index mode).take 500) j ∧
    ((j + 1) * L < wanted scores index mode →
      (j + 1) * L < (pooled scores index mode (poolOf L j)).length)

/-- Who gets the wanted notes has seen stable pools. -/
theorem stableFrom_of_follows (hlimit : boundedLimit limit 12 = .ok L) {out : List (Ranked S)}
    (h : Follows (searchNotes scores index mode limit) cursor out) :
    ∀ k, StandsAt L cursor k → k = 0 ∨ k * L < wanted scores index mode →
      out.map (·.note) = ((ranking scores index mode).take 500).drop (k * L) →
        StableFrom scores index mode L k := by
  induction h with
  | @last cursor page hpage hnext =>
    intro k hcursor hk hout
    obtain ⟨hserved, rfl⟩ := (searchNotes_page hlimit hcursor).mp hpage
    -- the last page has all that is left, so that no later page is wanted
    have hlength : wanted scores index mode ≤ (k + 1) * L := by
      have hshort := congrArg List.length hout
      rw [length_map, length_drop, length_take_ranking, pageAt, length_take] at hshort
      have hsum := (Nat.add_one_mul k L).symm
      omega
    intro j hkj hj
    have hjk : j = k := by
      rcases hj with rfl | hj
      · rfl
      · by_contra hne
        have hnext : k + 1 ≤ j := by omega
        have hmul := Nat.mul_le_mul_right L hnext
        omega
    subst hjk
    refine ⟨hserved.2, ?_, fun hmore => absurd hmore (Nat.not_lt.mpr hlength)⟩
    have hsum := (Nat.add_one_mul j L).symm
    have hrest : (((ranking scores index mode).take 500).drop (j * L)).length ≤ L := by
      rw [length_drop, length_take_ranking]
      omega
    rw [← map_pageAt, hout, window, take_of_length_le hrest]
  | @more cursor page c rest hpage hnext hrest ih =>
    intro k hcursor hk hout
    obtain ⟨hserved, rfl⟩ := (searchNotes_page hlimit hcursor).mp hpage
    obtain ⟨hmore, rfl⟩ := pageAt_next hnext
    have hwanted : (k + 1) * L < wanted scores index mode :=
      Nat.lt_of_lt_of_le hmore (served_le hserved)
    have hsum := (Nat.add_one_mul k L).symm
    rw [map_append] at hout
    have hitems : ((pageAt scores index mode L k).items.map (·.note)).length = L := by
      rw [length_map]
      exact length_window hmore
    have hpage : (pageAt scores index mode L k).items.map (·.note) =
        window L ((ranking scores index mode).take 500) k := by
      rw [window, ← hout, take_left' hitems]
    have hout' : rest.map (·.note) = ((ranking scores index mode).take 500).drop ((k + 1) * L) := by
      rw [← hsum, ← drop_drop, ← hout, drop_left' hitems]
    have hlater := ih (k + 1) (standsAt_next hserved.1) (.inr hwanted) hout'
    intro j hkj hj
    rcases Nat.eq_or_lt_of_le hkj with rfl | hlt
    · exact ⟨hserved.2, (map_pageAt k).symm.trans hpage, fun _ => hmore⟩
    · refine hlater j hlt ?_
      rcases hj with rfl | hj
      · exact absurd hlt (Nat.lt_irrefl _)
      · exact .inr hj

/-- A client's cursors stand at wanted pages. -/
theorem standsAt_of_reachable (hlimit : boundedLimit limit 12 = .ok L)
    (h : Reachable (searchNotes scores index mode limit) cursor) :
    ∃ k, StandsAt L cursor k ∧ Wanted scores index mode L k := by
  induction h with
  | first => exact ⟨0, standsAt_first, .inl rfl⟩
  | more _ hpage hnext ih =>
    obtain ⟨k, hcursor, -⟩ := ih
    obtain ⟨hserved, rfl⟩ := (searchNotes_page hlimit hcursor).mp hpage
    obtain ⟨hmore, rfl⟩ := pageAt_next hnext
    exact ⟨k + 1, standsAt_next hserved.1, .inr (Nat.lt_of_lt_of_le hmore (served_le hserved))⟩

/-- Stable pools are served. -/
theorem Stable.served (h : Stable scores index mode L) (hle : L ≤ 100)
    (hk : Wanted scores index mode L k) : Served mode L k := by
  refine ⟨?_, h.pool k hk⟩
  cases k with
  | zero => omega
  | succ k =>
    have hmost : wanted scores index mode ≤ 500 := Nat.min_le_left _ _
    have hbegin : (k + 1) * L < wanted scores index mode := hk.resolve_left (Nat.succ_ne_zero k)
    rcases h.pool (k + 1) hk with hmode | hsmall
    · have hmore := h.more k hbegin
      have hbound := @pooled_length_bound S γ _ scores index mode (poolOf L k)
      rw [if_pos hmode, if_neg (by rw [hmode]; decide), poolOf_eq (by omega)] at hbound
      have hsum : (k + 1) * L + L = (k + 1 + 1) * L := by rw [Nat.add_mul (k + 1), Nat.one_mul]
      rw [poolOf_eq (by omega)] at hmore
      omega
    · exact end_of_poolOf hsmall

section Stability

variable (h : Stable scores index mode L) (hlimit : boundedLimit limit 12 = .ok L)

include h hlimit

variable {k : Nat} {cursor : Option Text}

theorem Stable.page (hcursor : StandsAt L cursor k) (hk : Wanted scores index mode L k) :
    searchNotes scores index mode limit cursor = .ok (pageAt scores index mode L k) :=
  (searchNotes_page hlimit hcursor).mpr ⟨h.served (boundedLimit_ok hlimit).2 hk, rfl⟩

/-- The last wanted page ends the listing. -/
theorem Stable.follows_last (hcursor : StandsAt L cursor k) (hk : Wanted scores index mode L k)
    (hend : wanted scores index mode ≤ (k + 1) * L) :
    ∃ out, Follows (searchNotes scores index mode limit) cursor out ∧
      out.map (·.note) = ((ranking scores index mode).take 500).drop (k * L) := by
  have hserved := h.served (boundedLimit_ok hlimit).2 hk
  refine ⟨_, Follows.last (h.page hlimit hcursor hk) ?_, ?_⟩
  · rw [pageAt, if_neg (Nat.not_lt.mpr (Nat.le_trans (served_le hserved) hend))]
  · have hsum := (Nat.add_one_mul k L).symm
    have hrest : (((ranking scores index mode).take 500).drop (k * L)).length ≤ L := by
      rw [length_drop, length_take_ranking]
      omega
    rw [map_pageAt, h.notes k hk, window, take_of_length_le hrest]

/-- What a client gets from a wanted page on. -/
theorem Stable.follows (left : Nat) : ∀ (k : Nat) (cursor : Option Text),
    wanted scores index mode - k * L ≤ left → StandsAt L cursor k → Wanted scores index mode L k →
        ∃ out, Follows (searchNotes scores index mode limit) cursor out ∧
          out.map (·.note) = ((ranking scores index mode).take 500).drop (k * L) := by
  obtain ⟨hpositive, hle⟩ := boundedLimit_ok hlimit
  induction left with
  | zero =>
    intro k cursor hleft hcursor hk
    have hsum := (Nat.add_one_mul k L).symm
    exact h.follows_last hlimit hcursor hk (by omega)
  | succ left ih =>
    intro k cursor hleft hcursor hk
    have hsum := (Nat.add_one_mul k L).symm
    by_cases hmore : (k + 1) * L < wanted scores index mode
    · have hend := (h.served hle hk).1
      obtain ⟨rest, hrest, hnotes⟩ := ih (k + 1) _ (by omega) (standsAt_next hend) (.inr hmore)
      refine ⟨_, Follows.more (h.page hlimit hcursor hk) ?_ hrest, ?_⟩
      · rw [pageAt, if_pos (h.more k hmore)]
      · rw [map_append, map_pageAt, h.notes k hk, hnotes, window, ← hsum,
          ← drop_drop, take_append_drop]
    · exact h.follows_last hlimit hcursor hk (Nat.le_of_not_lt hmore)

/-- A last page has the last wanted notes. -/
theorem Stable.ends {page : Page Text (Ranked S)}
    (hcursor : Reachable (searchNotes scores index mode limit) cursor)
    (hpage : searchNotes scores index mode limit cursor = .ok page) (hnext : page.next = none) :
    ∃ offset, parseCursor cursor = .ok offset ∧
      wanted scores index mode ≤ offset + page.items.length := by
  obtain ⟨k, hk, hwanted⟩ := standsAt_of_reachable hlimit hcursor
  obtain ⟨-, rfl⟩ := (searchNotes_page hlimit hk).mp hpage
  refine ⟨k * L, hk, ?_⟩
  have hend := mt (h.more k) (pageAt_last hnext)
  have hlength := congrArg List.length (h.notes k hwanted)
  rw [← map_pageAt, length_map, window, length_take, length_drop, length_take_ranking] at hlength
  have hsum := (Nat.add_one_mul k L).symm
  omega

end Stability

/-- Complete iff the pools are stable. -/
theorem complete_iff_stable (hlimit : boundedLimit limit 12 = .ok L) :
    Complete scores index mode limit ↔ Stable scores index mode L := by
  constructor
  · rintro ⟨⟨out, hout, hnotes⟩, -⟩
    have hzero : out.map (·.note) = ((ranking scores index mode).take 500).drop (0 * L) := by
      rw [hnotes, Nat.zero_mul, drop_zero]
    have hstable := stableFrom_of_follows hlimit hout 0 standsAt_first (.inl rfl) hzero
    refine ⟨?_, ?_, ?_⟩
    · exact fun k hk => (hstable k (Nat.zero_le k) hk).1
    · exact fun k hk => (hstable k (Nat.zero_le k) hk).2.1
    · intro k hmore
      have hbegin : k * L ≤ (k + 1) * L := Nat.mul_le_mul_right L (Nat.le_succ k)
      exact (hstable k (Nat.zero_le k) (.inr (Nat.lt_of_le_of_lt hbegin hmore))).2.2 hmore
  · intro h
    refine ⟨?_, fun cursor page hcursor hpage hnext => h.ends hlimit hcursor hpage hnext⟩
    obtain ⟨out, hout, hnotes⟩ :=
      h.follows hlimit _ 0 none (Nat.le_refl _) standsAt_first (.inl rfl)
    rw [Nat.zero_mul] at hnotes
    exact ⟨out, hout, hnotes⟩

end Complete

/-! ## One ranking alone

Without fusion a pool is the beginning of the ranking, and says that there are more notes only
below its least size of 50. -/

section Single

variable {S γ : Type} [LinearOrder S] {scores : Scores S γ} {index : SearchIndex γ} {mode : Mode}
  {L : Nat}

/-- The end of the page reaching the least pool. -/
def reach (L : Nat) : Nat := (50 + L - 1) / L * L

theorem le_reach (hpositive : 0 < L) : 50 ≤ reach L := by
  have hlast := Nat.lt_div_mul_add hpositive (a := 50 + L - 1)
  rw [reach]
  omega

theorem reach_lt (hpositive : 0 < L) : reach L < 50 + L := by
  have hlast := Nat.div_mul_le_self (50 + L - 1) L
  rw [reach]
  omega

/-- Earlier pages end within the least pool. -/
theorem end_lt_of_lt_reach (hpositive : 0 < L) {k : Nat} (h : k * L < reach L) : k * L < 50 := by
  have hk : k < (50 + L - 1) / L := Nat.lt_of_mul_lt_mul_right h
  have hnext : (k + 1) * L ≤ reach L := Nat.mul_le_mul_right L hk
  have hreach := reach_lt hpositive
  rw [Nat.add_mul] at hnext
  omega

theorem next_le_reach {k : Nat} (h : k * L < reach L) : (k + 1) * L ≤ reach L :=
  Nat.mul_le_mul_right L (Nat.lt_of_mul_lt_mul_right h)

theorem window_take {notes : List Note} {k size : Nat} (h : (k + 1) * L ≤ size) :
    window L (notes.take size) k = window L notes k := by
  rw [Nat.add_mul] at h
  rw [window, window, drop_take, take_take, Nat.min_eq_left (by omega)]

variable (hcut : ∀ pool, (pooled scores index mode pool).map (·.note) =
  (ranking scores index mode).take pool)

include hcut

theorem length_pooled (pool : Nat) :
    (pooled scores index mode pool).length = min pool (ranking scores index mode).length := by
  rw [← length_map, hcut, length_take]

/-- Such pools are stable up to the least one. -/
theorem stable_iff_of_prefix (hpositive : 0 < L) (hle : L ≤ 100) :
    Stable scores index mode L ↔ (ranking scores index mode).length ≤ reach L := by
  have hreach := reach_lt hpositive
  constructor
  · intro h
    by_contra hmany
    obtain ⟨k, hk⟩ : ∃ k, (50 + L - 1) / L = k + 1 :=
      Nat.exists_eq_succ_of_ne_zero (Nat.ne_of_gt (Nat.div_pos (by omega) hpositive))
    have hend : (k + 1) * L = reach L := by rw [reach, hk]
    have hwanted : (k + 1) * L < wanted scores index mode := by
      rw [wanted]
      omega
    have hmore := h.more k hwanted
    rw [length_pooled hcut, poolOf_eq (by omega)] at hmore
    have hleast := le_reach hpositive
    omega
  · intro hfew
    -- a wanted page begins before the reach, and so ends with it at the latest
    have hend : ∀ k, Wanted scores index mode L k → (k + 1) * L ≤ 100 := by
      intro k hk
      rcases hk with rfl | hk
      · omega
      · have hbegin : k * L < reach L := by
          rw [wanted] at hk
          omega
        have hnext := next_le_reach hbegin
        have hone : k = 0 ∨ L ≤ k * L := by
          rcases Nat.eq_zero_or_pos k with hzero | hk
          · exact .inl hzero
          · exact .inr (Nat.le_mul_of_pos_left L hk)
        have hshort := end_lt_of_lt_reach hpositive hbegin
        rcases hone with rfl | hone <;> omega
    have hpool : ∀ k, Wanted scores index mode L k → poolOf L k = max 50 ((k + 1) * L) :=
      fun k hk => poolOf_eq (Nat.le_trans (hend k hk) (by decide))
    refine ⟨?_, ?_, ?_⟩
    · intro k hk
      have hshort := hend k hk
      rw [hpool k hk, maxQueryLimit]
      omega
    · intro k hk
      have hshort := hend k hk
      rw [hcut, hpool k hk, window_take (by omega), window_take (by omega)]
    · intro k hmore
      rw [wanted] at hmore
      have hshort := end_lt_of_lt_reach hpositive (by omega : (k + 1) * L < reach L)
      rw [length_pooled hcut, poolOf_eq (by omega)]
      omega

end Single

section Falling

variable {S γ : Type} [LinearOrder S] {scores : Scores S γ} {index : SearchIndex γ}
  {hits : List (Note × S)} {ranked : List (Ranked S)}

/-- A list with falling scores is sorted. -/
theorem sortRanked_eq (h : (ranked.map (·.score)).Pairwise (· > ·)) :
    sortRanked ranked = ranked := by
  refine List.Pairwise.insertionSort_eq (List.Pairwise.imp ?_ (pairwise_map.mp h))
  intro a b hab
  exact Prod.Lex.toLex_le_toLex.mpr (.inl hab)

theorem lexicalRanked_falling (notes : List Note) :
    ((lexicalRanked scores notes).map (·.score)).Pairwise (· > ·) := by
  refine pairwise_iff_getElem.mpr ?_
  intro i j hi hj hij
  simpa [lexicalRanked] using scores.lexical_anti hij

theorem lexicalRanked_notes (notes : List Note) :
    (lexicalRanked scores notes).map (·.note) = notes := by
  refine ext_getElem ?_ ?_
  · simp [lexicalRanked]
  · intro i h h'
    simp [lexicalRanked]

/-- Without semantic hits the matches are the ranking. -/
theorem sortRanked_lexical (notes : List Note) :
    (sortRanked (fuse scores notes [])).map (·.note) = notes := by
  show (sortRanked (lexicalRanked scores notes)).map (·.note) = notes
  rw [sortRanked_eq (lexicalRanked_falling notes), lexicalRanked_notes]

theorem ranking_lexical : ranking scores index .lexical = index.matchAll :=
  sortRanked_lexical _

theorem pooled_lexical (pool : Nat) : (pooled scores index .lexical pool).map (·.note) =
    (ranking scores index .lexical).take pool := by
  rw [ranking_lexical]
  show (sortRanked (fuse scores (index.matchAll.take pool) (List.take pool []))).map (·.note) = _
  rw [take_nil, sortRanked_lexical]

/-- The notes that are selected have files of their own. -/
theorem selectNotes_files {hits : List (VectorHit γ)} {pool : Nat} {selected excluded : List Nat} :
    ((selectNotes scores index pool selected excluded hits).map (·.1.fileId)).Nodup ∧
      ∀ id ∈ (selectNotes scores index pool selected excluded hits).map (·.1.fileId),
        id ∉ selected := by
  induction hits generalizing selected excluded with
  | nil => exact ⟨nodup_nil, nofun⟩
  | cons hit rest ih =>
    rw [selectNotes]
    cases hjudge : judge scores index selected excluded hit with
    | skip | exclude => exact ih
    | select note component =>
      obtain ⟨hfile, hnew⟩ := judge_select hjudge
      by_cases hfull : pool ≤ selected.length + 1
      · rw [if_pos hfull, map_singleton, hfile]
        refine ⟨nodup_singleton _, fun id hid => ?_⟩
        rw [mem_singleton.mp hid]
        exact hnew
      · rw [if_neg hfull, map_cons, hfile]
        obtain ⟨hnodup, hrest⟩ := @ih (hit.fileId :: selected) excluded
        refine ⟨nodup_cons.mpr ⟨fun hmem => ?_, hnodup⟩, ?_⟩
        · exact hrest _ hmem mem_cons_self
        · intro id hid
          rcases mem_cons.mp hid with rfl | hid
          · exact hnew
          · exact fun hmem => hrest id hid (mem_cons_of_mem _ hmem)

/-- Hits of different files are appended. -/
theorem fuse_append (h : (files ranked ++ hits.map (·.1.fileId)).Nodup) :
    hits.foldl (addSemantic scores) ranked =
      ranked ++ hits.map fun hit => ⟨hit.1, scores.add scores.zero hit.2⟩ := by
  induction hits generalizing ranked with
  | nil => rw [foldl_nil, map_nil, append_nil]
  | cons hit hits ih =>
    have hnew : hit.1.fileId ∉ files ranked := by
      intro hmem
      exact (nodup_append'.mp h).2.2 hmem mem_cons_self
    have hstep : addSemantic scores ranked hit =
        ranked ++ [⟨hit.1, scores.add scores.zero hit.2⟩] := if_neg hnew
    rw [foldl_cons, hstep, ih, append_assoc]
    · rfl
    · rw [files, map_append, append_assoc]
      exact h

/-- The contributions fall along the semantic matches. -/
def Falling (scores : Scores S γ) (index : SearchIndex γ) : Prop :=
  ((semanticMatches scores index .semantic).map fun hit =>
    scores.add scores.zero hit.2).Pairwise (· > ·)

theorem semanticMatches_nodup (mode : Mode) :
    ((semanticMatches scores index mode).map (·.1.fileId)).Nodup := by
  rw [semanticMatches]
  split_ifs
  · exact nodup_nil
  · exact selectNotes_files.1

theorem sortRanked_semantic (hnodup : (hits.map (·.1.fileId)).Nodup)
    (hfalling : (hits.map fun hit => scores.add scores.zero hit.2).Pairwise (· > ·)) :
    (sortRanked (fuse scores [] hits)).map (·.note) = hits.map (·.1) := by
  have hfuse : fuse scores [] hits =
      hits.map fun hit => ⟨hit.1, scores.add scores.zero hit.2⟩ := by
    rw [fuse, fuse_append]
    · rfl
    · exact hnodup
  rw [hfuse, sortRanked_eq, map_map]
  · rfl
  · rw [map_map]
    exact hfalling

theorem ranking_semantic (h : Falling scores index) :
    ranking scores index .semantic = (semanticMatches scores index .semantic).map (·.1) :=
  sortRanked_semantic (semanticMatches_nodup _) h

theorem pooled_semantic (h : Falling scores index) (pool : Nat) :
    (pooled scores index .semantic pool).map (·.note) =
      (ranking scores index .semantic).take pool := by
  rw [ranking_semantic h, pooled, lexicalMatches, take_nil, ← map_take]
  refine sortRanked_semantic ?_ ?_
  · exact (semanticMatches_nodup _).sublist ((take_sublist _ _).map _)
  · exact List.Pairwise.sublist ((take_sublist _ _).map _) h

end Falling

/-! ## Results -/

section Results

variable {S γ : Type} [LinearOrder S] {scores : Scores S γ} {index : SearchIndex γ}

/-- The ranking has each file that matches once. -/
theorem ranking_files (scores : Scores S γ) (index : SearchIndex γ) (mode : Mode) :
    ((ranking scores index mode).map (·.fileId)).Nodup ∧
      ∀ id, id ∈ (ranking scores index mode).map (·.fileId) ↔
        id ∈ (lexicalMatches index mode).map (·.fileId) ∨
          id ∈ (semanticMatches scores index mode).map (·.1.fileId) := by
  have hperm : ((ranking scores index mode).map (·.fileId)).Perm
      (files (fuse scores (lexicalMatches index mode) (semanticMatches scores index mode))) := by
    rw [ranking, map_map]
    exact (perm_insertionSort _ _).map _
  constructor
  · exact hperm.nodup_iff.mpr (fuse_files_nodup (lexicalMatches_nodup index mode) _)
  · intro id
    rw [hperm.mem_iff, fuse, mem_files_fuse, files_lexicalRanked]

/-- A pool beyond 100 is refused. -/
theorem Stable.hybrid_le {L : Nat} (hpositive : 0 < L)
    (h : Stable scores index .hybrid L) :
    (ranking scores index .hybrid).length ≤ 100 / L * L := by
  by_contra hmany
  have hbegin : 100 / L * L ≤ 100 := Nat.div_mul_le_self 100 L
  have hend : 100 < (100 / L + 1) * L := by
    rw [Nat.add_mul, Nat.one_mul]
    exact Nat.lt_div_mul_add hpositive
  have hwanted : Wanted scores index .hybrid L (100 / L) := by
    refine .inr ?_
    rw [wanted]
    omega
  rcases h.pool _ hwanted with hmode | hsmall
  · cases hmode
  · rw [poolOf_eq (end_of_poolOf hsmall), maxQueryLimit] at hsmall
    omega

/-- Pools with all matches are stable. -/
theorem stable_of_whole {mode : Mode} {L : Nat} (hpositive : 0 < L) (hle : L ≤ 100)
    (hlexical : (lexicalMatches index mode).length ≤ max 50 L)
    (hsemantic : (semanticMatches scores index mode).length ≤ max 50 L)
    (hfew : mode ≠ .semantic → (ranking scores index mode).length ≤ 100 / L * L) :
    Stable scores index mode L := by
  have hwhole : ∀ pool, max 50 L ≤ pool →
      (pooled scores index mode pool).map (·.note) = ranking scores index mode := by
    intro pool hpool
    rw [pooled, take_of_length_le (Nat.le_trans hlexical hpool),
      take_of_length_le (Nat.le_trans hsemantic hpool)]
    rfl
  have hpool : ∀ k, max 50 L ≤ poolOf L k := by
    intro k
    have hlarge : 500 ≤ maxU32 := by decide
    rw [poolOf, poolLimit]
    omega
  have hmost : (ranking scores index mode).length ≤ 200 := by
    have hbound := @pooled_length_bound S γ _ scores index mode (max 50 L)
    rw [← length_map (·.note), hwhole _ (Nat.le_refl _)] at hbound
    split_ifs at hbound <;> omega
  have hend : ∀ k, Wanted scores index mode L k → (k + 1) * L ≤ 500 := by
    intro k hk
    have hsum := Nat.add_one_mul k L
    rw [Wanted, wanted] at hk
    rcases hk with rfl | hk <;> omega
  refine ⟨?_, ?_, ?_⟩
  · intro k hk
    refine or_iff_not_imp_left.mpr fun hmode => ?_
    have hshort : (k + 1) * L ≤ 100 := by
      rcases hk with rfl | hk
      · omega
      · rw [wanted] at hk
        have hfew := hfew hmode
        have hlast : k * L < 100 / L * L := by omega
        exact Nat.le_trans (Nat.mul_le_mul_right L (Nat.lt_of_mul_lt_mul_right hlast))
          (Nat.div_mul_le_self 100 L)
    rw [poolOf_eq (hend k hk), maxQueryLimit]
    omega
  · intro k hk
    rw [hwhole _ (hpool k), window_take (hend k hk)]
  · intro k hmore
    rw [← length_map (·.note), hwhole _ (hpool k)]
    exact Nat.lt_of_lt_of_le hmore (Nat.min_le_right _ _)

/-- **WHEN SEARCH PAGES ARE COMPLETE.**  In one ranking, exactly up to the first page that
    reaches the least pool.  In two, up to the last page that is served, if both are within the
    first pool. -/
theorem search_pages_iff {L : Nat} {limit : Option Nat} (hlimit : boundedLimit limit 12 = .ok L) :
    (Complete scores index .lexical limit ↔ index.matchAll.length ≤ reach L) ∧
    (Falling scores index → (Complete scores index .semantic limit ↔
        (semanticMatches scores index .semantic).length ≤ reach L)) ∧
    (Complete scores index .hybrid limit →
      (ranking scores index .hybrid).length ≤ 100 / L * L) ∧
    (∀ mode, (lexicalMatches index mode).length ≤ max 50 L →
      (semanticMatches scores index mode).length ≤ max 50 L →
      (mode ≠ .semantic → (ranking scores index mode).length ≤ 100 / L * L) →
        Complete scores index mode limit) ∧
    ∀ mode, ((ranking scores index mode).map (·.fileId)).Nodup ∧
      ∀ id, id ∈ (ranking scores index mode).map (·.fileId) ↔
        id ∈ (lexicalMatches index mode).map (·.fileId) ∨
          id ∈ (semanticMatches scores index mode).map (·.1.fileId) := by
  obtain ⟨hpositive, hle⟩ := boundedLimit_ok hlimit
  refine ⟨?_, ?_, ?_, ?_, ranking_files scores index⟩
  · rw [complete_iff_stable hlimit, stable_iff_of_prefix pooled_lexical hpositive hle,
      ranking_lexical]
  · intro hfalling
    rw [complete_iff_stable hlimit,
      stable_iff_of_prefix (pooled_semantic hfalling) hpositive hle, ranking_semantic hfalling,
      length_map]
  · intro h
    exact ((complete_iff_stable hlimit).mp h).hybrid_le hpositive
  · intro mode hlexical hsemantic hfew
    exact (complete_iff_stable hlimit).mpr (stable_of_whole hpositive hle hlexical hsemantic hfew)

/-- Reciprocal ranks, as rational numbers. -/
def reciprocalScores : Scores ℚ ℚ where
  zero := 0
  add := (· + ·)
  lexical rank := 1 / (60 + rank + 1)
  semantic cosine rank := if 0 ≤ cosine then some (cosine / (60 + rank + 1)) else none
  lexical_anti := by
    intro a b hab
    have hcast : (a : ℚ) < b := Nat.cast_lt.mpr hab
    have hpositive : (0 : ℚ) < 60 + a + 1 := by positivity
    exact one_div_lt_one_div_of_lt hpositive (by linarith)

/-- `n` notes match, and no vectors. -/
def plainIndex (n : Nat) : SearchIndex ℚ where
  matchAll := (List.range n).map fun i => ⟨i, Nat.toDigits 10 i⟩
  matchAny := []
  vectors := []
  noteOf _ := none
  inScope _ := true
  matchAll_nodup := by
    rw [map_map]
    exact (map_id _).symm ▸ nodup_range
  matchAny_nodup := nodup_nil
  noteOf_fileId _ _ h := nomatch h

theorem length_plainIndex (n : Nat) : (plainIndex n).matchAll.length = n := by
  rw [plainIndex, length_map, length_range]

/-- With 51 matches and pages of 50 there is no next one. -/
theorem last_note_not_paged : (ranking reciprocalScores (plainIndex 51) .lexical).length = 51 ∧
    (∃ page, searchNotes reciprocalScores (plainIndex 51) .lexical (some 50) none = .ok page ∧
      page.items.length = 50 ∧ page.next = none) ∧
    ¬ Complete reciprocalScores (plainIndex 51) .lexical (some 50) := by
  have hlength : (ranking reciprocalScores (plainIndex 51) .lexical).length = 51 := by
    rw [ranking_lexical, length_plainIndex]
  have hpool : (pooled reciprocalScores (plainIndex 51) .lexical (poolOf 50 0)).length = 50 := by
    rw [length_pooled pooled_lexical, hlength]
    decide
  refine ⟨hlength, ⟨pageAt reciprocalScores (plainIndex 51) .lexical 50 0, ?_, ?_, ?_⟩, ?_⟩
  · exact (searchNotes_page rfl standsAt_first).mpr ⟨⟨by decide, .inr (by decide)⟩, rfl⟩
  · rw [pageAt, length_take, length_drop, hpool]
    rfl
  · rw [pageAt, hpool]
    rfl
  · rw [complete_iff_stable rfl, stable_iff_of_prefix pooled_lexical (by decide) (by decide), hlength]
    decide

theorem few_notes_paged : boundedLimit none 12 = .ok 12 ∧
    Complete reciprocalScores (plainIndex 30) .lexical none := by
  refine ⟨rfl, (search_pages_iff rfl).1.mpr ?_⟩
  decide

end Results

end NoteSearch
