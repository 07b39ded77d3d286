import McpVault.DomainProofs

/-! # Vault storage — one content root as a tree of files and directories

Each primitive of `storage-fs` is the change it makes to a tree, or its error.  In a tree the
root is a directory and whatever exists has a directory above it.  Links and special files are
refused by every primitive and left out; time stamps are whatever the host reports. -/

namespace VaultStorage

open VaultDomain List Option
open Function (update_of_ne update_self)

abbrev Bytes := List UInt8

inductive EntryKind where
  | regularFile
  | directory
  deriving DecidableEq

/-- The `ErrorKind`s that calls report. -/
inductive ErrorKind where
  | notFound
  | notADirectory
  | directoryNotEmpty
  | alreadyExists
  | invalidInput
  | fileTooLarge
  | broken
  deriving DecidableEq

inductive StorageError where
  | domain (error : DomainError)
  | io (operation : String) (kind : ErrorKind)
  | unsafeEntry (kind : EntryKind)
  | destinationExists
  | sourceNotFound
  | invalidOperation (message : String)
  | invalidContentHash
  | historyNotFound
  deriving DecidableEq

/-- What a name stands for. -/
inductive Content where
  | file (bytes : Bytes)
  | directory
  deriving DecidableEq

/-- An entry with the host's device and inode text. -/
structure Node where
  content : Content
  identity : Option String
  deriving DecidableEq

def Node.kind (n : Node) : EntryKind :=
  match n.content with
  | .file _ => .regularFile
  | .directory => .directory

def Node.size (n : Node) : Nat :=
  match n.content with
  | .file bytes => bytes.length
  | .directory => 0

/-- Whether a looked-up entry is a directory. -/
def isDirectory (n : Option Node) : Bool := decide (n.map Node.kind = some .directory)

/-- The tree below a content root. -/
structure Tree where
  node : VaultPath → Option Node
  names : List VaultPath
  named : ∀ p, node p ≠ none → p ∈ names
  root : isDirectory (node [])
  closed : ∀ p, p ≠ [] → node p ≠ none → isDirectory (node p.dropLast)

/-- A root without entries. -/
def emptyTree : Tree where
  node p := if p = [] then some ⟨.directory, none⟩ else none
  names := [[]]
  named p h := by
    by_contra hp
    rw [List.mem_singleton] at hp
    exact h (if_neg hp)
  root := rfl
  closed p hp h := absurd (if_neg hp) h

def Tree.isDir (t : Tree) (p : VaultPath) : Bool := isDirectory (t.node p)

/-- The bytes of the regular file at a path. -/
def Tree.bytes (t : Tree) (p : VaultPath) : Option Bytes :=
  match t.node p with
  | some ⟨.file bytes, _⟩ => some bytes
  | _ => none

/-- No entry directly below `p`. -/
def Tree.childless (t : Tree) (p : VaultPath) : Bool :=
  t.names.all fun q => decide (q = [] ∨ q.dropLast ≠ p ∨ t.node q = none)

variable {managed : Bool} {policy : PathPolicy} {t : Tree} {dst p q src : VaultPath}

theorem dropLast_ne (hp : p ≠ []) : p.dropLast ≠ p := by
  intro h
  have hlen := congrArg List.length h
  rw [length_dropLast] at hlen
  have := length_pos_iff.mpr hp
  omega

/-! ## Building trees -/

/-- Enter `n` at `p`, over nothing or over a file. -/
def Tree.put (t : Tree) (p : VaultPath) (n : Node) (hp : p ≠ [])
    (hparent : t.isDir p.dropLast)
    (hkind : n.kind = .directory ∨ t.isDir p = false) : Tree where
  node := Function.update t.node p (some n)
  names := p :: t.names
  named := by
    intro q hq
    by_cases hqp : q = p
    · rw [hqp]
      exact mem_cons_self
    · rw [update_of_ne hqp] at hq
      exact mem_cons_of_mem _ (t.named q hq)
  root := by
    rw [update_of_ne hp.symm]
    exact t.root
  closed := by
    intro q hq hnode
    by_cases hqp : q = p
    · rw [hqp, update_of_ne (dropLast_ne hp)]
      exact hparent
    · rw [update_of_ne hqp] at hnode
      have hdir := t.closed q hq hnode
      by_cases hbelow : q.dropLast = p
      · rw [hbelow, update_self]
        rcases hkind with hkind | hkind
        · simp [isDirectory, hkind]
        · rw [hbelow] at hdir
          exact absurd hdir (by rw [show isDirectory (t.node p) = false from hkind]; simp)
      · rw [update_of_ne hbelow]
        exact hdir

theorem Tree.childless_spec (h : t.childless p) (hq : q ≠ []) (hnode : t.node q ≠ none) :
    q.dropLast ≠ p := by
  have hall := all_eq_true.mp h q (t.named q hnode)
  rcases of_decide_eq_true hall with hroot | hne | hnone
  · exact absurd hroot hq
  · exact hne
  · exact absurd hnone hnode

/-- Remove a file or an empty directory. -/
def Tree.erase (t : Tree) (p : VaultPath) (hp : p ≠ [])
    (hempty : t.childless p) : Tree where
  node := Function.update t.node p none
  names := t.names
  named := by
    intro q hq
    by_cases hqp : q = p
    · rw [hqp, update_self] at hq
      exact absurd rfl hq
    · rw [update_of_ne hqp] at hq
      exact t.named q hq
  root := by
    rw [update_of_ne hp.symm]
    exact t.root
  closed := by
    intro q hq hnode
    by_cases hqp : q = p
    · rw [hqp, update_self] at hnode
      exact absurd rfl hnode
    · rw [update_of_ne hqp] at hnode
      rw [update_of_ne (Tree.childless_spec hempty hq hnode)]
      exact t.closed q hq hnode

/-- What is at `q` once `src` has moved to `dst`. -/
def relocated (t : Tree) (src dst q : VaultPath) : Option Node :=
  if dst <+: q then t.node (src ++ q.drop dst.length)
  else if src <+: q then none
  else t.node q

theorem relocated_below (t : Tree) (src dst r : VaultPath) :
    relocated t src dst (dst ++ r) = t.node (src ++ r) := by
  rw [relocated, if_pos (prefix_append dst r), drop_left]

theorem relocated_other (hdst : ¬ dst <+: q) (hsrc : ¬ src <+: q) :
    relocated t src dst q = t.node q := by
  rw [relocated, if_neg hdst, if_neg hsrc]

theorem relocated_source (hdst : ¬ dst <+: q) (hsrc : src <+: q) :
    relocated t src dst q = none := by
  rw [relocated, if_neg hdst, if_pos hsrc]

theorem not_prefix_dropLast (h : ¬ p <+: q) : ¬ p <+: q.dropLast :=
  fun hp => h (hp.trans ( dropLast_prefix q))

/-- Rename `src` and all below to `dst`. -/
def Tree.relocate (t : Tree) (src dst : VaultPath) (hsrc : src ≠ []) (hdst : dst ≠ [])
    (hparent : t.isDir dst.dropLast) (hout : ¬ src <+: dst) : Tree where
  node := relocated t src dst
  names := t.names ++ t.names.map fun q => dst ++ q.drop src.length
  named := by
    intro q hq
    by_cases hd : dst <+: q
    · obtain ⟨r, rfl⟩ := hd
      rw [relocated_below] at hq
      refine mem_append_right _ (mem_map.mpr ⟨src ++ r, t.named _ hq, ?_⟩)
      rw [drop_left]
    · by_cases hs : src <+: q
      · rw [relocated_source hd hs] at hq
        exact absurd rfl hq
      · rw [relocated_other hd hs] at hq
        exact mem_append_left _ (t.named q hq)
  root := by
    have hd : ¬ dst <+: [] := fun h => hdst (prefix_nil.mp h)
    have hs : ¬ src <+: [] := fun h => hsrc (prefix_nil.mp h)
    rw [relocated_other hd hs]
    exact t.root
  closed := by
    intro q hq hnode
    by_cases hd : dst <+: q
    · obtain ⟨r, rfl⟩ := hd
      rcases eq_nil_or_concat' r with rfl | ⟨r', a, rfl⟩
      · -- the new name itself: its parent is outside both subtrees
        have hd : ¬ dst <+: dst.dropLast := by
          intro h
          have hlen := h.length_le
          rw [length_dropLast] at hlen
          have := length_pos_iff.mpr hdst
          omega
        rw [append_nil, relocated_other hd (not_prefix_dropLast hout)]
        exact hparent
      · rw [relocated_below, ← append_assoc] at hnode
        have hdir := t.closed (src ++ r' ++ [a]) (by simp) hnode
        rw [dropLast_concat] at hdir
        rw [← append_assoc, dropLast_concat, relocated_below]
        exact hdir
    · by_cases hs : src <+: q
      · rw [relocated_source hd hs] at hnode
        exact absurd rfl hnode
      · rw [relocated_other hd hs] at hnode
        rw [relocated_other (not_prefix_dropLast hd) (not_prefix_dropLast hs)]
        exact t.closed q hq hnode

/-- Whatever exists has directories all the way up. -/
theorem Tree.isDir_of_prefix (hnode : t.node q ≠ none) (hpq : p <+: q) (hne : p ≠ q) :
    t.isDir p := by
  obtain ⟨r, rfl⟩ := hpq
  induction r using List.reverseRecOn with
  | nil => exact absurd (append_nil p).symm hne
  | append_singleton r a ih =>
    rw [← append_assoc] at hnode
    have hdir := t.closed (p ++ r ++ [a]) (by simp) hnode
    rw [dropLast_concat] at hdir
    by_cases hr : r = []
    · rw [hr, append_nil] at hdir
      exact hdir
    · refine ih ?_ ?_
      · intro hnone
        rw [hnone] at hdir
        exact absurd hdir (by simp [isDirectory])
      · intro h
        exact hr (append_right_eq_self.mp h.symm)

theorem Tree.isDir_node (h : t.isDir p) : t.node p ≠ none := by
  intro hnone
  rw [Tree.isDir, hnone] at h
  exact absurd h (by simp [isDirectory])

/-- A directory is not a file. -/
theorem Tree.bytes_of_isDir (h : t.isDir p) : t.bytes p = none := by
  unfold Tree.bytes
  split
  next bytes identity hn =>
    rw [Tree.isDir, hn] at h
    exact absurd h (by simp [isDirectory, Node.kind])
  next => rfl

theorem Tree.bytes_eq_some {bytes : Bytes} :
    t.bytes p = some bytes ↔ ∃ identity, t.node p = some ⟨.file bytes, identity⟩ := by
  unfold Tree.bytes
  constructor
  · intro h
    split at h
    next b identity hn =>
      cases h
      exact ⟨identity, hn⟩
    next => cases h
  · rintro ⟨identity, hn⟩
    rw [hn]

/-! ## Changes that may be refused -/

def Tree.tryPut (t : Tree) (p : VaultPath) (n : Node) : Option Tree :=
  if h : p ≠ [] ∧ t.isDir p.dropLast ∧ (n.kind = .directory ∨ t.isDir p = false) then
    some (t.put p n h.1 h.2.1 h.2.2)
  else none

def Tree.tryErase (t : Tree) (p : VaultPath) : Option Tree :=
  if h : p ≠ [] ∧ t.childless p then some (t.erase p h.1 h.2) else none

def Tree.tryRelocate (t : Tree) (src dst : VaultPath) : Option Tree :=
  if h : src ≠ [] ∧ dst ≠ [] ∧ t.isDir dst.dropLast ∧ ¬ src <+: dst then
    some (t.relocate src dst h.1 h.2.1 h.2.2.1 h.2.2.2)
  else none

section Changes

variable {t t' : Tree} {p : VaultPath} {n : Node}

theorem tryPut_node (h : t.tryPut p n = some t') : t'.node = Function.update t.node p (some n) := by
  unfold Tree.tryPut at h
  split at h
  next => cases h; rfl
  next => cases h

theorem tryPut_exists (hp : p ≠ []) (hparent : t.isDir p.dropLast)
    (hkind : n.kind = .directory ∨ t.isDir p = false) : ∃ t', t.tryPut p n = some t' :=
  ⟨_, dif_pos ⟨hp, hparent, hkind⟩⟩

theorem tryErase_node (h : t.tryErase p = some t') : t'.node = Function.update t.node p none := by
  unfold Tree.tryErase at h
  split at h
  next => cases h; rfl
  next => cases h

end Changes

/-! ## The path policy -/

/-- The reserved namespace, and folding of paths. -/
structure PathPolicy where
  reservedRoot : VaultPath
  nonRoot : reservedRoot ≠ []
  fold : String → String

section

variable (policy : PathPolicy) (p : VaultPath)

def PathPolicy.comparisonKey : VaultPath :=
  p.map policy.fold

def PathPolicy.isReserved : Bool :=
  (policy.comparisonKey policy.reservedRoot).isPrefixOf (policy.comparisonKey p)

/-- `validate_managed_path` or `validate_user_path`. -/
def PathPolicy.validatePathFor (managed : Bool) :
    Except StorageError Unit :=
  if managed then
    if policy.isReserved p then .ok () else .error (.domain .pathNotManaged)
  else if policy.isReserved p then .error (.domain (.reservedPath p))
  else .ok ()

def PathPolicy.validateWritePathFor (managed : Bool) : Except StorageError Unit := do
  policy.validatePathFor p managed
  if p = [] then .error (.invalidOperation "the Vault root is not an entry")
  else .ok ()

end

theorem validatePathFor_ok :
    policy.validatePathFor p managed = .ok () ↔ policy.isReserved p = managed := by
  unfold PathPolicy.validatePathFor
  cases managed <;> cases policy.isReserved p <;> simp

theorem validateWritePathFor_ok : policy.validateWritePathFor p managed = .ok () ↔
      policy.isReserved p = managed ∧ p ≠ [] := by
  rw [← validatePathFor_ok]
  unfold PathPolicy.validateWritePathFor
  cases policy.validatePathFor p managed with
  | error e => simp [bind, Except.bind]
  | ok u => by_cases hp : p = [] <;> simp [bind, Except.bind]

/-! ## Reading -/

structure FileMetadata where
  path : VaultPath
  kind : EntryKind
  size : Nat
  modifiedAt : Option Int
  identity : Option String
  deriving DecidableEq

/-- The host's modification time of a path. -/
abbrev HostTimes := Tree → VaultPath → Option Int

def fileMetadata (times : HostTimes) (t : Tree) (p : VaultPath) (n : Node) :
    FileMetadata :=
  ⟨p, n.kind, n.size, times t p, n.identity⟩

/-- `open_parent_with_leaf`: the directories above. -/
def openParent (t : Tree) : VaultPath → VaultPath → Except StorageError Unit
  | _, [] => .error (.invalidOperation "the Vault root has no leaf entry")
  | _, [_] => .ok ()
  | done, a :: b :: rest =>
    match t.node (done ++ [a]) with
    | none => .error (.io "open directory component" .notFound)
    | some n =>
      if n.kind = .directory then openParent t (done ++ [a]) (b :: rest)
      else .error (.io "open directory component" .notADirectory)

/-- Open the parents and look at the last segment. -/
def lookup (t : Tree) (p : VaultPath) : Except StorageError Node := do
  openParent t [] p
  match t.node p with
  | some n => .ok n
  | none => .error .sourceNotFound

/-- The metadata of what is at a path. -/
def stat (policy : PathPolicy) (times : HostTimes) (t : Tree) (p : VaultPath)
    (managed : Bool) : Except StorageError FileMetadata := do
  policy.validatePathFor p managed
  if p = [] then
    match t.node [] with
    | some n => .ok (fileMetadata times t [] n)
    | none => .error (.io "inspect storage root" .notFound)
  else
    let n ← lookup t p
    .ok (fileMetadata times t p n)

/-- `open_read` and the stream it gives, to the end. -/
def openRead (policy : PathPolicy) (t : Tree) (p : VaultPath) (managed : Bool) :
    Except StorageError Bytes := do
  policy.validatePathFor p managed
  if p = [] then .error (.invalidOperation "the Vault root is not a file")
  else
    let n ← lookup t p
    match n.content with
    | .file bytes => .ok bytes
    | .directory => .error (.invalidOperation "entry is not a regular file")

section Reading

variable {policy : PathPolicy} {times : HostTimes} {t : Tree} {p done rest : VaultPath}
variable {managed : Bool}

/-- The walk succeeds below a directory. -/
theorem openParent_ok (hdone : t.isDir done) (hrest : rest ≠ []) :
    openParent t done rest = .ok () ↔ t.isDir (done ++ rest.dropLast) := by
  induction rest generalizing done with
  | nil => exact absurd rfl hrest
  | cons a rest ih =>
    cases rest with
    | nil => simp [openParent, hdone]
    | cons b rest =>
      have hsplit : done ++ (a :: b :: rest).dropLast =
          (done ++ [a]) ++ (b :: rest).dropLast := by simp
      rw [openParent, hsplit]
      split
      next hnone =>
        refine ⟨nofun, fun hdir => ?_⟩
        by_cases hb : (b :: rest).dropLast = []
        · rw [hb, append_nil] at hdir
          exact absurd hnone (Tree.isDir_node hdir)
        · have habove := Tree.isDir_of_prefix (Tree.isDir_node hdir)
            (prefix_append (done ++ [a]) _) (fun h => hb (by simpa using h))
          exact absurd hnone (Tree.isDir_node habove)
      next n hn =>
        by_cases hkind : n.kind = .directory
        · rw [if_pos hkind]
          exact ih (by simp [Tree.isDir, isDirectory, hn, hkind]) (by simp)
        · rw [if_neg hkind]
          have hfile : t.isDir (done ++ [a]) = false := by
            simp [Tree.isDir, isDirectory, hn, hkind]
          refine ⟨nofun, fun hdir => ?_⟩
          by_cases hb : (b :: rest).dropLast = []
          · rw [hb] at hdir
            exact absurd hdir (by simp [hfile])
          · have habove := Tree.isDir_of_prefix (Tree.isDir_node hdir)
              (prefix_append (done ++ [a]) _) (fun h => hb (by simpa using h))
            exact absurd habove (by simp [hfile])

theorem openParent_root (hp : p ≠ []) : openParent t [] p = .ok () ↔ t.isDir p.dropLast :=
  openParent_ok t.root hp

variable {e : StorageError}

theorem openParent_error (hrest : rest ≠ []) (h : openParent t done rest = .error e) :
    ∃ kind, e = .io "open directory component" kind := by
  induction rest generalizing done with
  | nil => exact absurd rfl hrest
  | cons a rest ih =>
    cases rest with
    | nil => cases h
    | cons b rest =>
      rw [openParent] at h
      split at h
      next => cases h; exact ⟨_, rfl⟩
      next =>
        split at h
        next => exact ih (by simp) h
        next => cases h; exact ⟨_, rfl⟩

/-- The first missing directory is reported. -/
theorem openParent_missing {above : VaultPath} {a b : String} {below : VaultPath}
    (hdir : t.isDir (done ++ above)) (hnone : t.node (done ++ above ++ [a]) = none) :
    openParent t done (above ++ a :: b :: below) =
      .error (.io "open directory component" .notFound) := by
  induction above generalizing done with
  | nil =>
    rw [append_nil] at hnone
    rw [nil_append, openParent, hnone]
  | cons c above ih =>
    have hc : t.isDir (done ++ [c]) := by
      cases above with
      | nil => exact hdir
      | cons x xs =>
        exact Tree.isDir_of_prefix (Tree.isDir_node hdir) ⟨x :: xs, by simp⟩ (by simp)
    obtain ⟨n, hn⟩ := ne_none_iff_exists'.mp (Tree.isDir_node hc)
    have hkind : n.kind = .directory := by
      simpa [Tree.isDir, isDirectory, hn] using hc
    have hstep : openParent t done (c :: above ++ a :: b :: below) =
        openParent t (done ++ [c]) (above ++ a :: b :: below) := by
      cases above with
      | nil | cons x xs => simp [openParent, hn, hkind]
    rw [hstep]
    refine ih ?_ ?_
    · simpa using hdir
    · simpa using hnone

/-- What exists is found. -/
theorem lookup_ok {n : Node} (hp : p ≠ []) : lookup t p = .ok n ↔ t.node p = some n := by
  unfold lookup
  constructor
  · intro h
    cases hopen : openParent t [] p with
    | error e => rw [hopen] at h; cases h
    | ok u =>
      rw [hopen] at h
      cases hn : t.node p with
      | none => rw [hn] at h; cases h
      | some m => rw [hn] at h; cases h; rfl
  · intro hn
    rw [(openParent_root hp).mpr (t.closed p hp (by simp [hn])), hn]
    rfl

theorem root_node : ∃ n, t.node [] = some n ∧ n.kind = .directory := by
  have h := t.root
  cases hn : t.node [] with
  | none => rw [hn] at h; cases h
  | some n => rw [hn] at h; exact ⟨n, rfl, by simpa [isDirectory] using h⟩

theorem stat_ok {metadata : FileMetadata} :
    stat policy times t p managed = .ok metadata ↔ policy.isReserved p = managed ∧
      ∃ n, t.node p = some n ∧ metadata = fileMetadata times t p n := by
  rw [← validatePathFor_ok]
  unfold stat
  cases hv : policy.validatePathFor p managed with
  | error e => exact ⟨nofun, nofun⟩
  | ok u =>
    by_cases hp : p = []
    · subst hp
      obtain ⟨n, hn, _⟩ := root_node (t := t)
      simp [bind, Except.bind, hn, eq_comm]
    · simp only [bind, Except.bind, hp, true_and]
      cases hl : lookup t p with
      | error e =>
        refine ⟨nofun, ?_⟩
        rintro ⟨n, hn, _⟩
        rw [(lookup_ok hp).mpr hn] at hl
        cases hl
      | ok n => simp [(lookup_ok hp).mp hl, eq_comm]

/-- The policy, absence, or no such parent. -/
theorem stat_error (h : stat policy times t p managed = .error e) :
    (policy.isReserved p ≠ managed ∧ ∃ error, e = .domain error) ∨
    (policy.isReserved p = managed ∧ t.node p = none ∧
      (t.isDir p.dropLast ∧ e = .sourceNotFound ∨ t.isDir p.dropLast = false ∧
          ∃ kind, e = .io "open directory component" kind)) := by
  unfold stat at h
  cases hv : policy.validatePathFor p managed with
  | error error =>
    rw [hv] at h
    cases h
    refine .inl ⟨fun hallowed => ?_, ?_⟩
    · rw [validatePathFor_ok.mpr hallowed] at hv
      cases hv
    · unfold PathPolicy.validatePathFor at hv
      cases managed <;> cases hr : policy.isReserved p <;> simp [hr] at hv <;>
        exact ⟨_, hv.symm⟩
  | ok u =>
    rw [hv] at h
    refine .inr ⟨validatePathFor_ok.mp hv, ?_⟩
    by_cases hp : p = []
    · subst hp
      obtain ⟨n, hn, _⟩ := root_node (t := t)
      simp [bind, Except.bind, hn] at h
    · simp only [bind, hp, lookup] at h
      cases ho : openParent t [] p with
      | error error =>
        rw [ho] at h
        cases h
        have hdir : t.isDir p.dropLast = false := by
          rw [← Bool.not_eq_true, ← openParent_root hp, ho]
          simp
        refine ⟨?_, .inr ⟨hdir, openParent_error hp ho⟩⟩
        by_contra hnode
        exact absurd (t.closed p hp hnode) (by simpa [Tree.isDir] using hdir)
      | ok u =>
        rw [ho] at h
        cases hn : t.node p with
        | some n => rw [hn] at h; cases h
        | none =>
          rw [hn] at h
          cases h
          exact ⟨rfl, .inl ⟨(openParent_root hp).mp ho, rfl⟩⟩

/-- No directory stands on the way to `p`. -/
def Blocked (t : Tree) (p : VaultPath) : Prop :=
  ∃ q, q <+: p ∧ t.node q ≠ none ∧ t.isDir q = false

/-- Some name on a free way is the first missing. -/
theorem exists_missing (hdir : t.isDir done) (hnone : t.node (done ++ rest) = none)
    (hclear : ¬ Blocked t (done ++ rest)) :
    ∃ above a below, rest = above ++ a :: below ∧ t.isDir (done ++ above) ∧
      t.node (done ++ above ++ [a]) = none := by
  induction rest generalizing done with
  | nil =>
    rw [append_nil] at hnone
    exact absurd hnone (Tree.isDir_node hdir)
  | cons a rest ih =>
    have hsplit : done ++ a :: rest = done ++ [a] ++ rest := by simp
    by_cases ha : t.node (done ++ [a]) = none
    · exact ⟨[], a, rest, rfl, by simpa using hdir, by simpa using ha⟩
    · have hdir' : t.isDir (done ++ [a]) := by
        by_contra hfile
        exact hclear ⟨done ++ [a], ⟨rest, hsplit.symm⟩, ha, Bool.eq_false_iff.mpr hfile⟩
      rw [hsplit] at hnone hclear
      obtain ⟨above, b, below, rfl, habove, hb⟩ := ih hdir' hnone hclear
      exact ⟨a :: above, b, below, rfl, by simpa using habove, by simpa using hb⟩

/-- What is not there is not found on a free way. -/
theorem stat_absent (hallowed : policy.isReserved p = managed) (hnone : t.node p = none)
    (hclear : ¬ Blocked t p.dropLast) :
    stat policy times t p managed = .error .sourceNotFound ∨ stat policy times t p managed =
        .error (.io "open directory component" .notFound) := by
  have hroot : p ≠ [] := by
    rintro rfl
    exact absurd hnone (Tree.isDir_node t.root)
  have hclear' : ¬ Blocked t ([] ++ p) := by
    rintro ⟨q, hq, hnode, hfile⟩
    rcases prefix_concat_iff.mp
      ((dropLast_append_getLast hroot).symm ▸ hq : q <+: p.dropLast ++ [p.getLast hroot])
      with hqp | hqp
    · rw [dropLast_append_getLast] at hqp
      exact hnode (hqp ▸ hnone)
    · exact hclear ⟨q, hqp, hnode, hfile⟩
  obtain ⟨above, a, below, hp, hdir, hmissing⟩ : ∃ above a below, p = above ++ a :: below ∧
      t.isDir ([] ++ above) ∧ t.node ([] ++ above ++ [a]) = none :=
    exists_missing t.root hnone hclear'
  rw [← validatePathFor_ok] at hallowed
  cases below with
  | nil =>
    have hparent : openParent t [] p = .ok () :=
      (openParent_root hroot).mpr (by rw [hp, dropLast_concat]; exact hdir)
    exact .inl (by simp [stat, hallowed, bind, Except.bind, hroot, lookup, hparent, hnone])
  | cons b below =>
    have hparent : openParent t [] (above ++ a :: b :: below) = _ :=
      openParent_missing hdir hmissing
    rw [← hp] at hparent
    exact .inr (by simp [stat, hallowed, bind, Except.bind, hroot, lookup, hparent])

/-- A file can be read if the policy agrees. -/
theorem openRead_ok {bytes : Bytes} : openRead policy t p managed = .ok bytes ↔
      policy.isReserved p = managed ∧ t.bytes p = some bytes := by
  rw [← validatePathFor_ok, Tree.bytes_eq_some]
  unfold openRead
  cases hv : policy.validatePathFor p managed with
  | error e => exact ⟨nofun, nofun⟩
  | ok u =>
    by_cases hp : p = []
    · subst hp
      obtain ⟨n, hn, hkind⟩ := root_node (t := t)
      simp only [bind, true_and, hn]
      refine ⟨nofun, ?_⟩
      rintro ⟨identity, h⟩
      cases h
      cases hkind
    · simp only [bind, Except.bind, hp, true_and]
      cases hl : lookup t p with
      | error e =>
        refine ⟨nofun, ?_⟩
        rintro ⟨identity, hn⟩
        rw [(lookup_ok hp).mpr hn] at hl
        cases hl
      | ok n =>
        obtain ⟨content, identity⟩ := n
        rw [(lookup_ok hp).mp hl]
        cases content <;> simp

end Reading

/-! ## Writing -/

inductive DestinationPolicy where
  | mustNotExist
  | replaceExisting
  deriving DecidableEq

/-- A component of `create_directory_all`. -/
def ensureDirectory (t : Tree) (p : VaultPath) (leaf : Bool) (identity : Option String) :
    Except StorageError Tree :=
  match t.node p with
  | some n =>
    if n.kind = .directory then .ok t
    else if leaf then .error (.unsafeEntry n.kind)
    else .error (.io "open directory component" .notADirectory)
  | none =>
    match t.tryPut p ⟨.directory, identity⟩ with
    | some t' => .ok t'
    | none => .error (.io "create directory" .notFound)

/-- `prepare_temp`: the name must be new. -/
def prepareTemp (t : Tree) (temp : VaultPath) (identity : Option String) :
    Except StorageError Tree := do
  openParent t [] temp
  match t.node temp with
  | some _ => .error (.io "create temporary file" .alreadyExists)
  | none =>
    match t.tryPut temp ⟨.file [], identity⟩ with
    | some t' => .ok t'
    | none => .error (.io "create temporary file" .notFound)

/-- Append below 2^63 bytes; unnamed, unseen. -/
def writeChunk (t : Tree) (temp : VaultPath) (chunk : Bytes) : Except StorageError Tree :=
  match t.node temp with
  | some ⟨.file bytes, identity⟩ =>
    if bytes.length + chunk.length < 2 ^ 63 then
      .ok ((t.tryPut temp ⟨.file (bytes ++ chunk), identity⟩).getD t)
    else .error (.io "write temporary file" .fileTooLarge)
  | _ => .ok t

/-- `cleanup_temp`: failures are ignored. -/
def cleanupTemp (t : Tree) (temp : VaultPath) : Tree :=
  match t.node temp with
  | some ⟨.file _, _⟩ => (t.tryErase temp).getD t
  | _ => t

/-- Free, or a file that may be replaced. -/
def validateDestination (t : Tree) (p : VaultPath) (policy : DestinationPolicy) :
    Except StorageError Unit :=
  match t.node p with
  | none => .ok ()
  | some ⟨.file _, _⟩ =>
    if policy = .replaceExisting then .ok () else .error .destinationExists
  | some ⟨.directory, _⟩ => .error (.invalidOperation "destination is a directory")

/-- `commit_temp`: the name goes if it fails. -/
def commitTemp (t : Tree) (temp p : VaultPath) (policy : DestinationPolicy) :
    Except StorageError Unit × Tree :=
  match validateDestination t p policy with
  | .error e => (.error e, cleanupTemp t temp)
  | .ok () =>
    match t.node temp with
    | some ⟨.file bytes, identity⟩ =>
      match (t.tryErase temp).bind (·.tryPut p ⟨.file bytes, identity⟩) with
      | some t' => (.ok (), t')
      | none => (.error (.io "atomically rename file" .notFound), cleanupTemp t temp)
    | _ => (.error (.io "atomically rename file" .notFound), t)

/-- `move_entry` onto a name that must not exist. -/
def moveEntry (policy : PathPolicy) (t : Tree) (src dst : VaultPath) :
    Except StorageError Tree := do
  policy.validateWritePathFor src false
  policy.validateWritePathFor dst false
  if src = dst then .error (.invalidOperation "source and destination match")
  else
    openParent t [] src
    openParent t [] dst
    match t.node src with
    | none => .error .sourceNotFound
    | some _ => do
      validateDestination t dst .mustNotExist
      match t.tryRelocate src dst with
      | some t' => .ok t'
      | none => .error (.io "move filesystem entry" .invalidInput)

/-- `delete_entry`: a file or empty directory. -/
def deleteEntry (policy : PathPolicy) (t : Tree) (p : VaultPath) (managed : Bool) :
    Except StorageError Tree := do
  policy.validateWritePathFor p managed
  openParent t [] p
  match t.node p with
  | none => .error .sourceNotFound
  | some _ =>
    match t.tryErase p with
    | some t' => .ok t'
    | none => .error (.io "delete filesystem entry" .directoryNotEmpty)

/-- The naming convention of temporary files. -/
def temporaryStem : String := ".mcp-vault-tmp-"

/-- `TemporaryPath::parse`: the last segment. -/
def parseTemporary (p : VaultPath) : Except StorageError VaultPath :=
  match p.getLast? with
  | none => .error (.invalidOperation "temporary path has no file name")
  | some name =>
    if temporaryStem.toList.isPrefixOf name.toList then .ok p
    else .error (.invalidOperation "temporary path name is invalid")

/-- `remove_temporary`: a leftover. -/
def removeTemporary (t : Tree) (temp : VaultPath) : Except StorageError Tree := do
  openParent t [] temp
  match t.node temp with
  | none => .ok t
  | some ⟨.file _, _⟩ => .ok (cleanupTemp t temp)
  | some ⟨.directory, _⟩ => .error (.unsafeEntry .directory)

/-! ## What a change of files leaves -/

section Files

variable {t t₁ t₂ : Tree} {path temp : VaultPath} {bytes chunk : Bytes}
  {identity : Option String}

/-- A file is no directory. -/
theorem Tree.isDir_of_bytes (h : t.bytes path = some bytes) : t.isDir path = false := by
  obtain ⟨identity, hn⟩ := Tree.bytes_eq_some.mp h
  simp [Tree.isDir, isDirectory, hn, Node.kind]

theorem prepareTemp_ok (h : prepareTemp t₁ temp identity = .ok t₂) :
    (∀ q, q ≠ temp → t₂.node q = t₁.node q) ∧ t₂.bytes temp = some [] := by
  unfold prepareTemp at h
  cases hopen : openParent t₁ [] temp with
  | error e => rw [hopen] at h; cases h
  | ok u =>
    rw [hopen] at h
    cases hn : t₁.node temp with
    | some n => rw [hn] at h; cases h
    | none =>
      rw [hn] at h
      cases hput : t₁.tryPut temp ⟨.file [], identity⟩ with
      | none => rw [hput] at h; cases h
      | some t' =>
        rw [hput] at h
        cases h
        refine ⟨fun q hq => ?_, Tree.bytes_eq_some.mpr ⟨identity, ?_⟩⟩
        · rw [tryPut_node hput, update_of_ne hq]
        · rw [tryPut_node hput, update_self]

/-- A chunk is appended while addressable. -/
theorem writeChunk_ok (hbytes : t₁.bytes temp = some bytes)
    (h : writeChunk t₁ temp chunk = .ok t₂) :
    (∀ q, q ≠ temp → t₂.node q = t₁.node q) ∧ t₂.bytes temp = some (bytes ++ chunk) ∧
      (bytes ++ chunk).length < 2 ^ 63 := by
  obtain ⟨identity, hn⟩ := Tree.bytes_eq_some.mp hbytes
  have hroot : temp ≠ [] := by
    rintro rfl
    exact absurd t₁.root (by simp [hn, isDirectory, Node.kind])
  obtain ⟨t', hput⟩ := tryPut_exists (n := ⟨.file (bytes ++ chunk), identity⟩)
    hroot (t₁.closed temp hroot (by simp [hn])) (.inr (Tree.isDir_of_bytes hbytes))
  rw [writeChunk, hn] at h
  simp only [hput, getD_some] at h
  split at h
  next hshort =>
    cases h
    refine ⟨fun q hq => ?_, Tree.bytes_eq_some.mpr ⟨identity, ?_⟩, by simpa using hshort⟩
    · rw [tryPut_node hput, update_of_ne hq]
    · rw [tryPut_node hput, update_self]
  next => cases h

theorem cleanupTemp_frame (t : Tree) (temp : VaultPath) :
    (∀ q, q ≠ temp → (cleanupTemp t temp).node q = t.node q) ∧
      ((cleanupTemp t temp).isDir temp → t.isDir temp) := by
  unfold cleanupTemp
  split
  next bytes identity hn =>
    cases he : t.tryErase temp with
    | none => exact ⟨fun _ _ => rfl, id⟩
    | some t' =>
      have hnode := tryErase_node he
      refine ⟨fun q hq => ?_, fun hdir => ?_⟩
      · rw [getD_some, hnode, update_of_ne hq]
      · rw [getD_some, Tree.isDir, hnode, update_self] at hdir
        cases hdir
  next => exact ⟨fun _ _ => rfl, id⟩

/-- The rename: refused, or done. -/
theorem commitTemp_cases (temp path : VaultPath) (policy : DestinationPolicy)
    (hbytes : t₁.bytes temp = some bytes) :
    (∃ e, (commitTemp t₁ temp path policy).1 = .error e ∧
      (∀ q, q ≠ temp → (commitTemp t₁ temp path policy).2.node q = t₁.node q) ∧
      ((commitTemp t₁ temp path policy).2.isDir temp → t₁.isDir temp)) ∨
    (commitTemp t₁ temp path policy).1 = .ok () ∧ ∃ n, n.content = .file bytes ∧
      t₁.node temp = some n ∧ (commitTemp t₁ temp path policy).2.node =
        Function.update (Function.update t₁.node temp none) path (some n) := by
  obtain ⟨identity, hn⟩ := Tree.bytes_eq_some.mp hbytes
  unfold commitTemp
  cases validateDestination t₁ path policy with
  | error e => exact .inl ⟨e, rfl, cleanupTemp_frame t₁ temp⟩
  | ok u =>
    simp only [hn]
    cases he : t₁.tryErase temp with
    | none => exact .inl ⟨_, rfl, cleanupTemp_frame t₁ temp⟩
    | some t' =>
      simp only [bind_some]
      cases hput : t'.tryPut path ⟨.file bytes, identity⟩ with
      | none => exact .inl ⟨_, rfl, cleanupTemp_frame t₁ temp⟩
      | some t'' =>
        refine .inr ⟨rfl, ⟨.file bytes, identity⟩, rfl, rfl, ?_⟩
        rw [tryPut_node hput, tryErase_node he]

end Files

/-! ## Content addresses -/

/-- `hex_value`, as the digit in lower case. -/
def hexDigit (c : Char) : Option Char :=
  if '0' ≤ c ∧ c ≤ '9' ∨ 'a' ≤ c ∧ c ≤ 'f' then some c
  else if 'A' ≤ c ∧ c ≤ 'F' then some (Char.ofNat (c.toNat + 32))
  else none

/-- `ContentHash::from_hex`. -/
def fromHex (value : String) : Except StorageError String :=
  if value.utf8ByteSize = 64 then
    match value.toList.mapM hexDigit with
    | some digits => .ok (String.ofList digits)
    | none => .error .invalidContentHash
  else .error .invalidContentHash

/-- The digest, whose texts are addresses. -/
structure ContentHasher where
  digest : Bytes → String
  canonical : ∀ bytes, fromHex (digest bytes) = .ok (digest bytes)

def smallDigest (k : Fin 10) : String := String.ofList (List.replicate 64 (Nat.digitChar k))

/-- The sum of the bytes modulo ten, computable. -/
def smallHasher : ContentHasher where
  digest bytes := smallDigest (Fin.ofNat 10 (bytes.map (·.toNat)).sum)
  canonical bytes := by
    have h : ∀ k, fromHex (smallDigest k) = .ok (smallDigest k) := by decide
    exact h _

/-- `strip_prefix("sha256:")`, or the whole text. -/
def stripSha256 (hash : String) : String :=
  match hash.toList with
  | 's' :: 'h' :: 'a' :: '2' :: '5' :: '6' :: ':' :: rest => String.ofList rest
  | _ => hash

/-- An address never has the prefix. -/
theorem stripSha256_of_fromHex {hash address : String} (h : fromHex hash = .ok address) :
    stripSha256 hash = hash := by
  unfold stripSha256
  split
  next rest hs =>
    simp only [fromHex, hs] at h
    split at h
    next => simp [hexDigit] at h
    next => cases h
  next => rfl

end VaultStorage
