import McpVault.StorageProofs
import McpVault.FallibleProofs

/-! # Building a tree — `create_dir_all` and `create_new`

`Placed` says what a list of entries, written by these two calls of the host, has made of a tree:
what was there stays, each file is new, and every other new name is a directory on the way to an
entry. -/

namespace TreeBuild

open VaultDomain VaultStorage List Option
open Fallible (bind_ok_iff foldlM_invariant)

/-- A directory that a call has made. -/
def madeDir : Node := ⟨.directory, none⟩

/-- A file that a call has made. -/
def madeFile (bytes : Bytes) : Node := ⟨.file bytes, none⟩

/-- `create_dir_all` below a directory that exists. -/
def createDirAllFrom (t : Tree) (done : VaultPath) : List String → Except ErrorKind Tree
  | [] => .ok t
  | name :: rest =>
    match t.node (done ++ [name]) with
    | some n =>
      if n.kind = .directory then createDirAllFrom t (done ++ [name]) rest
      else .error .notADirectory
    | none =>
      match t.tryPut (done ++ [name]) madeDir with
      | some t' => createDirAllFrom t' (done ++ [name]) rest
      | none => .error .notFound

def createDirAll (t : Tree) (p : VaultPath) : Except ErrorKind Tree := createDirAllFrom t [] p

/-- `create_new`, with all bytes written. -/
def createNew (t : Tree) (p : VaultPath) (bytes : Bytes) : Except ErrorKind Tree :=
  match t.node p with
  | some _ => .error .alreadyExists
  | none =>
    match t.tryPut p (madeFile bytes) with
    | some t' => .ok t'
    | none => .error .notFound

/-! ## Directories -/

section Directories

variable {t t' : Tree} {done p q : VaultPath} {names : List String}

/-- Everything above a directory is a directory. -/
theorem isDir_of_le (h : t.isDir p) (hq : q <+: p) : t.isDir q := by
  by_cases heq : q = p
  · exact heq ▸ h
  · exact Tree.isDir_of_prefix (Tree.isDir_node h) hq heq

/-- A new directory below one that exists. -/
theorem tryPut_dir {name : String} (hdone : t.isDir done) :
    ∃ t₁, t.tryPut (done ++ [name]) madeDir = some t₁ :=
  tryPut_exists (by simp) (by rwa [dropLast_concat]) (.inl rfl)

theorem isDir_tryPut (h : t.tryPut p madeDir = some t') : t'.isDir p := by
  rw [Tree.isDir, tryPut_node h, Function.update_self]
  rfl

/-- What `create_dir_all` leaves at each name. -/
theorem createDirAllFrom_ok (hdone : t.isDir done)
    (h : createDirAllFrom t done names = .ok t') :
    t'.isDir (done ++ names) ∧
      ∀ q, t'.node q = if t.node q = none ∧ q <+: done ++ names then some madeDir else t.node q := by
  induction names generalizing t done with
  | nil =>
    cases h
    rw [append_nil]
    refine ⟨hdone, fun q => ?_⟩
    rw [if_neg]
    rintro ⟨hnone, hq⟩
    exact Tree.isDir_node (isDir_of_le hdone hq) hnone
  | cons name rest ih =>
    rw [createDirAllFrom] at h
    rw [append_cons]
    cases hnode : t.node (done ++ [name]) with
    | some n =>
      rw [hnode] at h
      by_cases hkind : n.kind = .directory
      · have hdir : t.isDir (done ++ [name]) := by
          rw [Tree.isDir, isDirectory, hnode, map_some, hkind]
          rfl
        exact ih hdir ((if_pos hkind).symm.trans h)
      · cases (if_neg hkind).symm.trans h
    | none =>
      rw [hnode] at h
      obtain ⟨t₁, hput⟩ := @tryPut_dir t done name hdone
      simp only [hput] at h
      obtain ⟨hdir, hmade⟩ := ih (isDir_tryPut hput) h
      refine ⟨hdir, fun q => ?_⟩
      rw [hmade q, tryPut_node hput]
      by_cases hq : q = done ++ [name]
      · rw [hq, Function.update_self, if_neg (fun h => by cases h.1),
          if_pos ⟨hnode, prefix_append _ _⟩]
      · rw [Function.update_of_ne hq]

theorem createDirAll_ok (h : createDirAll t p = .ok t') : t'.isDir p ∧
      ∀ q, t'.node q = if t.node q = none ∧ q <+: p then some madeDir else t.node q :=
  createDirAllFrom_ok t.root h

end Directories

/-! ## Entries -/

/-- A directory or a file to be made. -/
inductive Entry where
  | directory (path : VaultPath)
  | file (path : VaultPath) (bytes : Bytes)

/-- The directories that an entry needs. -/
def Entry.above : Entry → VaultPath
  | .directory p => p
  | .file p _ => p.dropLast

def Entry.path : Entry → VaultPath
  | .directory p | .file p _ => p

def Entry.filePath : Entry → Option VaultPath
  | .directory _ => none
  | .file p _ => some p

def place (t : Tree) : Entry → Except ErrorKind Tree
  | .directory p => createDirAll t p
  | .file p bytes => do
    let t ← createDirAll t p.dropLast
    createNew t p bytes

/-- What the entries have made of a tree. -/
structure Placed (t : Tree) (entries : List Entry) (t' : Tree) : Prop where
  keep : ∀ q n, t.node q = some n → t'.node q = some n
  file : ∀ p bytes, .file p bytes ∈ entries →
    p ≠ [] ∧ t.node p = none ∧ t'.node p = some (madeFile bytes)
  above : ∀ e ∈ entries, t'.isDir e.above
  made : ∀ q, t.node q = none → t'.node q ≠ none → (∃ bytes, .file q bytes ∈ entries) ∨
      t'.node q = some madeDir ∧ ∃ e ∈ entries, q <+: e.above
  nodup : (entries.filterMap Entry.filePath).Nodup

section Placing

variable {t t₁ t' : Tree} {e : Entry} {entries : List Entry} {p : VaultPath} {bytes : Bytes}

theorem createNew_ok (h : createNew t p bytes = .ok t') :
    p ≠ [] ∧ t.node p = none ∧ t'.node = Function.update t.node p (some (madeFile bytes)) := by
  rw [createNew] at h
  cases hnode : t.node p with
  | some n =>
    rw [hnode] at h
    cases h
  | none =>
    rw [hnode] at h
    cases hput : t.tryPut p (madeFile bytes) with
    | none =>
      simp only [hput] at h
      cases h
    | some t₁ =>
      simp only [hput] at h
      cases h
      refine ⟨?_, rfl, tryPut_node hput⟩
      rintro rfl
      exact Tree.isDir_node t.root hnode

theorem not_prefix_dropLast_self (hp : p ≠ []) : ¬ p <+: p.dropLast := by
  intro h
  have hlen := h.length_le
  rw [length_dropLast] at hlen
  have := length_pos_iff.mpr hp
  omega

theorem Placed.nil (t : Tree) : Placed t [] t where
  keep _ _ h := h
  file _ _ h := nomatch h
  above _ h := nomatch h
  made _ hnone h := absurd hnone h
  nodup := nodup_nil

/-- One entry. -/
theorem place_placed (h : place t e = .ok t') : Placed t [e] t' := by
  cases e with
  | directory p =>
    obtain ⟨hdir, hnode⟩ := createDirAll_ok h
    refine ⟨?_, ?_, ?_, ?_, nodup_nil⟩
    · intro q n hq
      rw [hnode, if_neg (by rw [hq]; exact fun h => nomatch h.1), hq]
    · intro p bytes hmem
      cases mem_singleton.mp hmem
    · intro e he
      rw [mem_singleton.mp he]
      exact hdir
    · intro q hnone hne
      rw [hnode] at hne ⊢
      by_cases hq : t.node q = none ∧ q <+: p
      · rw [if_pos hq]
        exact .inr ⟨rfl, _, mem_singleton_self _, hq.2⟩
      · rw [if_neg hq] at hne
        exact absurd hnone hne
  | file p bytes =>
    obtain ⟨t₁, hdirs, hfile⟩ := bind_ok_iff.mp h
    obtain ⟨hdir, hmade⟩ := createDirAll_ok hdirs
    obtain ⟨hp, hfree, hnode⟩ := createNew_ok hfile
    have hbefore : t.node p = none := by
      rw [hmade, if_neg (fun h => not_prefix_dropLast_self hp h.2)] at hfree
      exact hfree
    refine ⟨?_, ?_, ?_, ?_, nodup_singleton p⟩
    · intro q n hq
      have hne : q ≠ p := by
        rintro rfl
        rw [hbefore] at hq
        cases hq
      rw [hnode, Function.update_of_ne hne, hmade,
        if_neg (by rw [hq]; exact fun h => nomatch h.1), hq]
    · intro p' bytes' hmem
      cases mem_singleton.mp hmem
      exact ⟨hp, hbefore, by rw [hnode, Function.update_self]⟩
    · intro e he
      rw [mem_singleton.mp he]
      show isDirectory (t'.node p.dropLast)
      rw [hnode, Function.update_of_ne (dropLast_ne hp)]
      exact hdir
    · intro q hnone hne
      by_cases hq : q = p
      · exact .inl ⟨bytes, mem_singleton.mpr (by rw [hq])⟩
      · rw [hnode, Function.update_of_ne hq, hmade] at hne ⊢
        by_cases hway : t.node q = none ∧ q <+: p.dropLast
        · rw [if_pos hway]
          exact .inr ⟨rfl, _, mem_singleton_self _, hway.2⟩
        · rw [if_neg hway] at hne
          exact absurd hnone hne

/-- One list of entries after another. -/
theorem Placed.append {first rest : List Entry} (h : Placed t first t₁) (h' : Placed t₁ rest t') :
    Placed t (first ++ rest) t' := by
  have hkeep : ∀ {q n}, t₁.node q = some n → t'.node q = some n := fun hq => h'.keep _ _ hq
  refine ⟨fun q n hq => hkeep (h.keep q n hq), ?_, ?_, ?_, ?_⟩
  · intro p bytes hmem
    rcases mem_append.mp hmem with hmem | hmem
    · obtain ⟨hp, hnone, hnode⟩ := h.file p bytes hmem
      exact ⟨hp, hnone, hkeep hnode⟩
    · obtain ⟨hp, hnone, hnode⟩ := h'.file p bytes hmem
      refine ⟨hp, ?_, hnode⟩
      by_contra hsome
      obtain ⟨n, hn⟩ := ne_none_iff_exists'.mp hsome
      rw [h.keep p n hn] at hnone
      cases hnone
  · intro e he
    rcases mem_append.mp he with he | he
    · have hdir := h.above e he
      obtain ⟨n, hn⟩ := ne_none_iff_exists'.mp (Tree.isDir_node hdir)
      rw [Tree.isDir, hn] at hdir
      rw [Tree.isDir, hkeep hn]
      exact hdir
    · exact h'.above e he
  · intro q hnone hne
    cases hmiddle : t₁.node q with
    | some n =>
      rcases h.made q hnone (by rw [hmiddle]; exact some_ne_none n) with
        ⟨bytes, hfile⟩ | ⟨hdir, e, he, hq⟩
      · exact .inl ⟨bytes, mem_append_left _ hfile⟩
      · exact .inr ⟨hkeep hdir, e, mem_append_left _ he, hq⟩
    | none =>
      rcases h'.made q hmiddle hne with ⟨bytes, hfile⟩ | ⟨hdir, e, he, hq⟩
      · exact .inl ⟨bytes, mem_append_right _ hfile⟩
      · exact .inr ⟨hdir, e, mem_append_right _ he, hq⟩
  · rw [filterMap_append]
    refine nodup_append'.mpr ⟨h.nodup, h'.nodup, fun p hfirst hrest => ?_⟩
    -- a file of the second list is new, but the first list has made it
    obtain ⟨e, he, hpath⟩ := mem_filterMap.mp hfirst
    obtain ⟨e', he', hpath'⟩ := mem_filterMap.mp hrest
    cases e with
    | directory q => cases hpath
    | file q bytes =>
      cases e' with
      | directory q' => cases hpath'
      | file q' bytes' =>
        cases hpath
        cases hpath'
        have hmade := (h.file _ _ he).2.2
        rw [(h'.file _ _ he').2.1] at hmade
        cases hmade

variable (h : Placed t entries t')

include h

/-- A new file is one of the entries. -/
theorem Placed.file_iff (hnone : t.node p = none) :
    t'.bytes p = some bytes ↔ .file p bytes ∈ entries := by
  constructor
  · intro hbytes
    obtain ⟨identity, hnode⟩ := Tree.bytes_eq_some.mp hbytes
    rcases h.made p hnone (by rw [hnode]; exact some_ne_none _) with
      ⟨bytes', hfile⟩ | ⟨hdir, -⟩
    · have hmade := (h.file p bytes' hfile).2.2
      rw [hnode] at hmade
      cases hmade
      exact hfile
    · rw [hnode] at hdir
      cases hdir
  · intro hfile
    exact Tree.bytes_eq_some.mpr ⟨none, (h.file p bytes hfile).2.2⟩

end Placing

end TreeBuild
