import Mathlib

/-! # Vector search — the best hits of all pages

The stored vectors are read page by page, and each page is merged into the best hits so far.  The
hits are the first ones of the sorted list of all that can be scored, for every size of the
pages. -/

namespace VectorIndex

open List

/-! ## The first ones of a sorted list -/

section Best

variable {α β : Type} [LinearOrder β] (f : α → β) {k : Nat} {l l' s ys : List α}

def sorted (l : List α) : List α := l.insertionSort fun a b => f a ≤ f b

def best (k : Nat) (l : List α) : List α := (sorted f l).take k

theorem sorted_pairwise (l : List α) : (sorted f l).Pairwise fun a b => f a ≤ f b :=
  haveI : Std.Total fun a b => f a ≤ f b := ⟨fun _ _ => le_total _ _⟩
  haveI : IsTrans α fun a b => f a ≤ f b := ⟨fun _ _ _ => le_trans⟩
  pairwise_insertionSort _ l

/-- Where keys tell members apart, order is lost. -/
theorem sorted_congr (hinj : ∀ a ∈ l, ∀ b ∈ l, f a = f b → a = b) (h : l ~ l') :
    sorted f l = sorted f l' := by
  have hperm : sorted f l ~ sorted f l' :=
    (perm_insertionSort _ l).trans (h.trans (perm_insertionSort _ l').symm)
  refine hperm.eq_of_pairwise ?_ (sorted_pairwise f l) (sorted_pairwise f l')
  intro a b ha hb hab hba
  exact hinj a ((mem_insertionSort _).mp ha) b (h.mem_iff.mpr ((mem_insertionSort _).mp hb))
    (le_antisymm hab hba)

/-- What is inserted pushes out the last one. -/
theorem take_orderedInsert (x : α) : (s.orderedInsert (fun a b => f a ≤ f b) x).take k =
    ((s.take k).orderedInsert (fun a b => f a ≤ f b) x).take k := by
  induction s generalizing k with
  | nil => simp
  | cons y s ih =>
    cases k with
    | zero => rfl
    | succ k =>
      rw [take_succ_cons, orderedInsert_cons, orderedInsert_cons]
      split_ifs with h
      · cases k with
        | zero => rfl
        | succ k => simp [take_take]
      · rw [take_succ_cons, take_succ_cons, ih]

theorem best_append (ys : List α) : best f k (ys ++ best f k l) = best f k (ys ++ l) := by
  induction ys with
  | nil =>
    have hsorted := (sorted_pairwise f l).sublist (take_sublist k _)
    show ((best f k l).insertionSort _).take k = _
    rw [best, hsorted.insertionSort_eq, take_take, min_self]
    rfl
  | cons y ys ih =>
    show (orderedInsert _ y (sorted f (ys ++ best f k l))).take k =
      (orderedInsert _ y (sorted f (ys ++ l))).take k
    rw [take_orderedInsert, take_orderedInsert f (s := sorted f (ys ++ l))]
    exact congrArg (fun s => (orderedInsert _ y s).take k) ih

/-- Merging into the best so far loses none of the best. -/
theorem best_best_append (hinj : ∀ a ∈ l ++ ys, ∀ b ∈ l ++ ys, f a = f b → a = b) :
    best f k (best f k l ++ ys) = best f k (l ++ ys) := by
  have hsub : ∀ a ∈ best f k l ++ ys, a ∈ l ++ ys := by
    intro a ha
    refine mem_append.mpr ((mem_append.mp ha).imp_left fun ha => ?_)
    exact (mem_insertionSort _).mp (mem_of_mem_take ha)
  calc best f k (best f k l ++ ys)
      = best f k (ys ++ best f k l) := congrArg (take k) (sorted_congr f
        (fun a ha b hb => hinj a (hsub a ha) b (hsub b hb)) perm_append_comm)
    _ = best f k (ys ++ l) := best_append f ys
    _ = best f k (l ++ ys) := (congrArg (take k) (sorted_congr f hinj perm_append_comm)).symm

end Best

/-! ## The scan -/

/-- What is read, and what is only passed on. -/
structure EmbeddingRecord (O K I X : Type) where
  id : I
  objectId : O
  chunkKey : K
  rest : X

structure VectorCandidate (O K I X V : Type) where
  embedding : EmbeddingRecord O K I X
  vector : V

structure VectorHit (O K I X S : Type) where
  embedding : EmbeddingRecord O K I X
  score : S

inductive ProviderError where
  | dimensionMismatch
  | invalidConfiguration (message : String)
  deriving DecidableEq

/-- What the search asks of floating-point vectors. -/
structure Vectors (V S : Type) where
  length : V → Nat
  (isFinite hasMagnitude : V → Bool)
  exactCosineSimilarity : V → V → Option S

variable {O K I X V S : Type}

/-- `vector_hit_order`: greater scores come first. -/
def vectorHitOrder (h : VectorHit O K I X S) : Sᵒᵈ ×ₗ O ×ₗ K ×ₗ I :=
  toLex (OrderDual.toDual h.score,
    toLex (h.embedding.objectId, toLex (h.embedding.chunkKey, h.embedding.id)))

def hit (vs : Vectors V S) (query : V) (c : VectorCandidate O K I X V) :
    Option (VectorHit O K I X S) :=
  (vs.exactCosineSimilarity query c.vector).map fun score => ⟨c.embedding, score⟩

/-- Hits of rows with different ids are told apart. -/
theorem hit_injOn {vs : Vectors V S} {query : V} {rows : List (VectorCandidate O K I X V)}
    (hids : (rows.map (·.embedding.id)).Nodup) :
    ∀ a ∈ rows.filterMap (hit vs query), ∀ b ∈ rows.filterMap (hit vs query),
      vectorHitOrder a = vectorHitOrder b → a = b := by
  intro a ha b hb hab
  obtain ⟨c, hc, hca⟩ := mem_filterMap.mp ha
  obtain ⟨d, hd, hdb⟩ := mem_filterMap.mp hb
  obtain ⟨x, -, rfl⟩ := Option.map_eq_some_iff.mp hca
  obtain ⟨y, -, rfl⟩ := Option.map_eq_some_iff.mp hdb
  have hid : c.embedding.id = d.embedding.id :=
    congrArg (fun k => (ofLex (ofLex (ofLex k).2).2).2) hab
  obtain rfl := inj_on_of_nodup_map hids hc hd hid
  exact Option.some.inj (hca.symm.trans hdb)

variable [LinearOrder O] [LinearOrder K] [LinearOrder I] [LinearOrder S]

/-- A backend whose pages are not empty. -/
structure SqliteVectorIndex where
  scanPageSize : Nat
  positive : 0 < scanPageSize

section Scan

variable (index : SqliteVectorIndex) (vs : Vectors V S) (query : V) (limit : Nat) {offset : Nat}
  {rows : List (VectorCandidate O K I X V)}

/-- The loop of `search`, from an offset on. -/
def scan (rows : List (VectorCandidate O K I X V)) (hits : List (VectorHit O K I X S))
    (offset : Nat) : Except ProviderError (List (VectorHit O K I X S)) :=
  let candidates := (rows.drop offset).take index.scanPageSize
  let hits := best vectorHitOrder limit (hits ++ candidates.filterMap (hit vs query))
  if candidates.length < index.scanPageSize then .ok hits
  else if 2 ^ 32 ≤ offset + candidates.length then
    .error (.invalidConfiguration "vector scan offset overflow")
  else scan rows hits (offset + candidates.length)
termination_by rows.length - offset
decreasing_by
  have := index.positive
  simp only [candidates, length_take, length_drop] at *
  omega

/-- The hits so far are the best of the rows so far. -/
theorem scan_eq (hids : (rows.map (·.embedding.id)).Nodup) (hrows : rows.length < 2 ^ 32)
    (hoffset : offset ≤ rows.length) :
    scan index vs query limit rows
      (best vectorHitOrder limit ((rows.take offset).filterMap (hit vs query))) offset =
      .ok (best vectorHitOrder limit (rows.filterMap (hit vs query))) := by
  induction h : rows.length - offset using Nat.strong_induction_on generalizing offset with
  | h n ih =>
    have hpositive := index.positive
    rw [scan]
    set page := (rows.drop offset).take index.scanPageSize with hpage
    have hlength : page.length = min index.scanPageSize (rows.length - offset) := by
      rw [length_take, length_drop]
    have hread : rows.take (offset + page.length) = rows.take offset ++ page := by
      rw [take_add, length_take, ← take_eq_take_min]
    have hhits : best vectorHitOrder limit
        (best vectorHitOrder limit ((rows.take offset).filterMap (hit vs query)) ++
          page.filterMap (hit vs query)) =
        best vectorHitOrder limit ((rows.take (offset + page.length)).filterMap (hit vs query)) := by
      rw [hread, filterMap_append]
      refine best_best_append _ ?_
      rw [← filterMap_append, ← hread]
      exact hit_injOn ((take_sublist _ _).map _ |>.nodup hids)
    rw [hhits]
    split_ifs with hlast hoverflow
    · rw [take_of_length_le (by omega)]
    · omega
    · exact ih _ (by omega) (by omega) rfl

end Scan

structure Request (V : Type) where
  objectType : String
  dimension : Nat
  query : V
  limit : Nat

/-- `list_vectors` serves slices of `rows`. -/
def search (index : SqliteVectorIndex) (vs : Vectors V S) (r : Request V)
    (rows : List (VectorCandidate O K I X V)) :
    Except ProviderError (List (VectorHit O K I X S)) :=
  if r.objectType = "" ∨ r.dimension = 0 ∨ vs.length r.query ≠ r.dimension ∨ r.limit = 0 then
    .error .dimensionMismatch
  else if !vs.isFinite r.query then
    .error (.invalidConfiguration "query vector contains a non-finite value")
  else if !vs.hasMagnitude r.query then
    .error (.invalidConfiguration "query vector has zero magnitude")
  else scan index vs r.query r.limit rows [] 0

/-- The requests that are not refused. -/
structure Accepted (vs : Vectors V S) (r : Request V) : Prop where
  objectType : r.objectType ≠ ""
  dimension : 0 < r.dimension
  length : vs.length r.query = r.dimension
  limit : 0 < r.limit
  isFinite : vs.isFinite r.query
  hasMagnitude : vs.hasMagnitude r.query

/-- **A SEARCH RETURNS THE BEST** of all vectors. -/
theorem search_best (index : SqliteVectorIndex) (vs : Vectors V S) (r : Request V)
    (rows : List (VectorCandidate O K I X V)) (haccepted : Accepted vs r)
    (hids : (rows.map (·.embedding.id)).Nodup) (hrows : rows.length < 2 ^ 32) :
    search index vs r rows =
      .ok ((sorted vectorHitOrder (rows.filterMap (hit vs r.query))).take r.limit) := by
  obtain ⟨htype, hdimension, hlength, hlimit, hfinite, hmagnitude⟩ := haccepted
  rw [search, if_neg, hfinite, hmagnitude]
  · simpa [best, sorted] using scan_eq index vs r.query r.limit hids hrows (Nat.zero_le _)
  · simp only [htype, false_or]
    omega

def dots : Vectors (List Nat) Nat where
  length := List.length
  isFinite _ := true
  hasMagnitude v := v.any (0 < ·)
  exactCosineSimilarity u v := some (zipWith (· * ·) u v).sum

def three : List (VectorCandidate Nat Nat Nat Unit (List Nat)) :=
  [⟨⟨0, 0, 0, ()⟩, [1]⟩, ⟨⟨1, 0, 0, ()⟩, [3]⟩, ⟨⟨2, 0, 0, ()⟩, [2]⟩]

theorem search_best_two : search ⟨1, by decide⟩ dots ⟨"note", 1, [1], 2⟩ three =
    .ok [⟨⟨1, 0, 0, ()⟩, 3⟩, ⟨⟨2, 0, 0, ()⟩, 2⟩] := by
  rw [search_best _ _ _ _ ⟨by decide, by decide, rfl, by decide, rfl, rfl⟩ (by decide) (by decide)]
  rfl

theorem search_refuses_no_limit :
    search ⟨1, by decide⟩ dots ⟨"note", 1, [1], 0⟩ three = .error .dimensionMismatch := rfl

end VectorIndex
