import McpVault.HostPathProofs
import McpVault.PathProofs
import McpVault.TreeBuildProofs

/-! # Backup archives — the manifest, validation, and extraction

Validation compares entries with the manifest by their path texts, while extraction hands the
texts to the host, which reads components.  Texts that the host reads the same are refused by the
host alone. -/

namespace BackupArchive

open List
open PlainText (Text)
open VaultDomain (VaultId VaultPath)
open VaultStorage HostPath TreeBuild
open Fallible (bind_ok_iff of_check foldlM_invariant)
open String (ofList)

/-! ## Limits and errors -/

inductive BackupError where
  | storage (error : StorageError)
  | io (operation : String)
  | json
  | archive (message : String)
  | limit (bound : String)
  | notFound
  | inconsistentSource
  deriving DecidableEq

structure BackupLimits where
  (maxEntryBytes maxTotalBytes maxArchiveBytes maxEntries : Nat)

def maxManifestBytes : Nat := 4 * 1024 * 1024

/-- `u64::MAX`. -/
def maxU64 : Nat := 2 ^ 64 - 1

/-- `checked_add`, with the limit named on overflow. -/
def checkedAdd (bound : String) (a b : Nat) : Except BackupError Nat :=
  if maxU64 < a + b then .error (.limit bound) else .ok (a + b)

/-! ## The manifest -/

structure BackupArtifact where
  path : Text
  size : Nat
  sha256 : String
  deriving DecidableEq

structure VaultBackupManifest where
  vaultId : VaultId
  (slug contentRoot : String)
  settingsRevision : Nat
  (content history : List BackupArtifact)
  deriving DecidableEq

structure BackupManifest where
  formatVersion : Nat
  serviceVersion : String
  (schemaVersion createdAt completedAt : Int)
  state : BackupArtifact
  keyVersionIds : List Nat
  vaults : List VaultBackupManifest
  (fileCount totalBytes : Nat)
  deriving DecidableEq

/-- The files of a Vault. -/
def VaultBackupManifest.artifacts (v : VaultBackupManifest) : List BackupArtifact :=
  v.content ++ v.history

/-- All files that a manifest lists. -/
def BackupManifest.artifacts (m : BackupManifest) : List BackupArtifact :=
  m.state :: m.vaults.flatMap VaultBackupManifest.artifacts

/-- Digest, identifier texts and manifest reader. -/
structure ArchiveEnv where
  hasher : ContentHasher
  idText : VaultId → Text
  idText_name : ∀ id, IsName (idText id)
  idText_injective : Function.Injective idText
  readManifest : Bytes → Option BackupManifest

def formatVersion : Nat := 1

def stateArchivePath : Text := "state/mcp-vault.sqlite3".toList

def manifestArchivePath : Text := "manifest.json".toList

def contentPath (env : ArchiveEnv) (id : VaultId) : Text :=
  "vaults/".toList ++ env.idText id ++ "/content/".toList

def historyPath (env : ArchiveEnv) (id : VaultId) : Text :=
  "history/".toList ++ env.idText id ++ "/".toList

/-- What `validate_manifest` keeps on its way. -/
structure Tally where
  paths : List Text
  (count total : Nat)

/-- The closure `add`. -/
def addArtifact (limits : BackupLimits) (tally : Tally) (item : BackupArtifact) :
    Except BackupError Tally :=
  if item.path ∈ tally.paths ∨ limits.maxEntryBytes < item.size ∨ item.sha256.utf8ByteSize ≠ 64 then
    .error (.archive "manifest artifact is invalid")
  else if item.path ≠ stateArchivePath ∧ ¬ "vaults/".toList <+: item.path ∧
      ¬ "history/".toList <+: item.path then
    .error (.archive "manifest artifact root is invalid")
  else if isConfined item.path = false then
    .error (.archive "manifest artifact path is unsafe")
  else
    match fromHex item.sha256 with
    | .error e => .error (.storage e)
    | .ok _ => do
      let total ← checkedAdd "manifest totals" tally.total item.size
      .ok ⟨item.path :: tally.paths, tally.count + 1, total⟩

/-- The files of one kind of a Vault, below its own path. -/
def addIsolated (limits : BackupLimits) (below : Text) (message : String) (tally : Tally)
    (items : List BackupArtifact) : Except BackupError Tally :=
  items.foldlM (fun tally item =>
    if below <+: item.path then addArtifact limits tally item
    else .error (.archive message)) tally

/-- The content and the history of one Vault. -/
def addVault (env : ArchiveEnv) (limits : BackupLimits) (tally : Tally)
    (v : VaultBackupManifest) : Except BackupError Tally :=
  if v.slug = "" ∨ v.contentRoot = "" then
    .error (.archive "Vault manifest identity is invalid")
  else do
    let tally ← addIsolated limits (contentPath env v.vaultId)
      "Vault content path is not isolated" tally v.content
    addIsolated limits (historyPath env v.vaultId)
      "Vault history path is not isolated" tally v.history

/-- Whether the versions of a manifest are accepted. -/
def versionsValid (m : BackupManifest) : Bool :=
  decide (m.formatVersion = formatVersion ∧ m.serviceVersion ≠ "" ∧ 0 < m.schemaVersion ∧
    m.keyVersionIds ≠ [] ∧ 0 ∉ m.keyVersionIds) &&
  (m.keyVersionIds.zip m.keyVersionIds.tail).all fun pair => decide (pair.1 < pair.2)

/-- `validate_manifest`, before any file is made. -/
def validateManifest (env : ArchiveEnv) (limits : BackupLimits) (m : BackupManifest) :
    Except BackupError Unit :=
  if versionsValid m = false then .error (.archive "manifest version is invalid")
  else if limits.maxEntries < m.fileCount ∨ limits.maxTotalBytes < m.totalBytes then
    .error (.limit "manifest totals")
  else if m.state.path ≠ stateArchivePath then
    .error (.archive "state artifact path is invalid")
  else do
    let tally ← addArtifact limits ⟨[], 0, 0⟩ m.state
    let tally ← m.vaults.foldlM (addVault env limits) tally
    if tally.count ≠ m.fileCount ∨ tally.total ≠ m.totalBytes then
      .error (.archive "manifest totals do not match")
    else .ok ()

/-! ## The archive -/

inductive EntryType where
  | regular
  | directory
  | symlink
  | hardLink
  | char
  | block
  | fifo
  | other
  deriving DecidableEq

structure TarEntry where
  path : Text
  type : EntryType
  bytes : Bytes

/-- An archive: its entries and its length. -/
structure Archive where
  entries : List TarEntry
  length : Nat

def allowedRoots : List Text := ["state".toList, "vaults".toList, "history".toList]

/-- A confined path below an allowed root. -/
def archivePathString (path : Text) : Except BackupError Text :=
  if isConfined path = false then .error (.archive "archive traversal path")
  else if path = [] ∨ '\\' ∈ path ∨ "./".toList <+: path then
    .error (.archive "archive path normalization failed")
  else if path ≠ manifestArchivePath ∧ (path.splitOn '/').headD [] ∉ allowedRoots then
    .error (.archive "archive path root is not allowed")
  else .ok path

/-- What the loop of `validate_archive_file` keeps. -/
structure Scan where
  paths : List Text
  files : List (Text × Nat × String)
  manifestBytes : Option Bytes
  (archiveEntries totalBytes : Nat)

def Scan.start : Scan := ⟨[], [], none, 0, 0⟩

/-- A regular entry in the loop. -/
def scanFile (env : ArchiveEnv) (limits : BackupLimits) (s : Scan) (path : Text) (bytes : Bytes) :
    Except BackupError Scan :=
  if path ∈ s.files.map (·.1) then .error (.archive "duplicate file")
  else if limits.maxEntryBytes < bytes.length then .error (.limit "entry_bytes")
  else do
    let totalBytes ← checkedAdd "total_bytes" s.totalBytes bytes.length
    if limits.maxTotalBytes < totalBytes then .error (.limit "total_bytes")
    else if path = manifestArchivePath ∧ maxManifestBytes < bytes.length then
      .error (.limit "manifest_bytes")
    else
      .ok { s with
        totalBytes
        manifestBytes := if path = manifestArchivePath then some bytes else s.manifestBytes
        files := s.files ++ [(path, bytes.length, env.hasher.digest bytes)] }

/-- One entry of the loop. -/
def scanEntry (env : ArchiveEnv) (limits : BackupLimits) (s : Scan) (e : TarEntry) :
    Except BackupError Scan := do
  let archiveEntries ← checkedAdd "entry_count" s.archiveEntries 1
  if min maxU64 (limits.maxEntries + 1000) < archiveEntries then .error (.limit "entry_count")
  else
    let path ← archivePathString e.path
    if path ∈ s.paths then .error (.archive "duplicate archive path")
    else
      let s := { s with archiveEntries := archiveEntries, paths := path :: s.paths }
      match e.type with
      | .symlink | .hardLink | .char | .block | .fifo =>
        .error (.archive "link or special entry")
      | .directory => .ok s
      | .other => .error (.archive "unsupported tar entry")
      | .regular => scanFile env limits s path e.bytes

structure RestorePreview where
  manifest : BackupManifest
  (archiveEntries archiveBytes : Nat)

/-- What the manifest says an archive has. -/
def expectedFiles (m : BackupManifest) : List (Text × Nat × String) :=
  m.artifacts.map fun item => (item.path, item.size, item.sha256)

/-- The scan, the manifest, and that both agree. -/
def validateArchiveFile (env : ArchiveEnv) (limits : BackupLimits) (archive : Archive) :
    Except BackupError RestorePreview :=
  if limits.maxArchiveBytes < archive.length then .error (.limit "archive_bytes")
  else do
    let scan ← archive.entries.foldlM (scanEntry env limits) Scan.start
    match scan.manifestBytes with
    | none => .error (.archive "manifest is missing")
    | some bytes =>
      match env.readManifest bytes with
      | none => .error .json
      | some manifest => do
        validateManifest env limits manifest
        let expected := expectedFiles manifest
        if ¬ (expected.map (·.1)).Nodup then .error (.archive "duplicate manifest artifact")
        else if scan.files.length ≠ expected.length + 1 ∨
            manifestArchivePath ∉ scan.files.map (·.1) then
          .error (.archive "archive and manifest entries differ")
        else if ∃ item ∈ expected, scan.files.lookup item.1 ≠ some item.2 then
          .error (.archive "artifact checksum mismatch")
        else .ok ⟨manifest, scan.archiveEntries, archive.length⟩

/-! ## Extraction -/

def safeJoin (root : VaultPath) (relative : Text) : Except BackupError VaultPath :=
  if isConfined relative = false then .error (.archive "generated archive path is unsafe")
  else .ok (join root relative)

/-- A host call, with the operation it reports. -/
def host (operation : String) (r : Except ErrorKind Tree) : Except BackupError Tree :=
  match r with
  | .ok t => .ok t
  | .error _ => .error (.io operation)

def extractEntry (destination : VaultPath) (t : Tree) (e : TarEntry) : Except BackupError Tree := do
  let relative ← archivePathString e.path
  let target ← safeJoin destination relative
  if e.type = .directory then host "create extracted directory" (createDirAll t target)
  else
    let t ← host "create extraction parent" (createDirAll t target.dropLast)
    host "create extracted file" (createNew t target e.bytes)

/-- Validate the archive, then make its files. -/
def extractArchive (env : ArchiveEnv) (limits : BackupLimits) (archive : Archive)
    (destination : VaultPath) (t : Tree) : Except BackupError (BackupManifest × Tree) := do
  let preview ← validateArchiveFile env limits archive
  let t ← host "create extraction root" (createDirAll t destination)
  let t ← archive.entries.foldlM (extractEntry destination) t
  .ok (preview.manifest, t)

/-! ## What a valid manifest has -/

section Manifest

variable {env : ArchiveEnv} {limits : BackupLimits} {tally tally' : Tally}
  {item : BackupArtifact} {items more : List BackupArtifact} {m : BackupManifest}

theorem checkedAdd_ok {bound : String} {a b c : Nat} (h : checkedAdd bound a b = .ok c) :
    c = a + b ∧ a + b ≤ maxU64 := by
  obtain ⟨hle, h⟩ := of_check h
  exact ⟨(Except.ok.inj h).symm, Nat.le_of_not_lt hle⟩

/-- What is checked of each file. -/
structure ValidArtifact (limits : BackupLimits) (item : BackupArtifact) : Prop where
  size : item.size ≤ limits.maxEntryBytes
  root : item.path = stateArchivePath ∨ "vaults/".toList <+: item.path ∨
    "history/".toList <+: item.path
  confined : isConfined item.path

/-- The tally of a list of files. -/
structure Tallied (limits : BackupLimits) (items : List BackupArtifact) (tally : Tally) : Prop where
  paths : ∀ p, p ∈ tally.paths ↔ p ∈ items.map (·.path)
  count : tally.count = items.length
  total : tally.total = (items.map (·.size)).sum
  valid : ∀ item ∈ items, ValidArtifact limits item
  nodup : (items.map (·.path)).Nodup

theorem Tallied.nil (limits : BackupLimits) : Tallied limits [] ⟨[], 0, 0⟩ where
  paths _ := Iff.rfl
  count := rfl
  total := rfl
  valid _ h := nomatch h
  nodup := nodup_nil

theorem Tallied.add (h : Tallied limits items tally)
    (hadd : addArtifact limits tally item = .ok tally') : Tallied limits (items ++ [item]) tally' := by
  obtain ⟨hfresh, hadd⟩ := of_check hadd
  obtain ⟨hroot, hadd⟩ := of_check hadd
  obtain ⟨hconfined, hadd⟩ := of_check hadd
  cases hhex : fromHex item.sha256 with
  | error e =>
    rw [hhex] at hadd
    cases hadd
  | ok address =>
    rw [hhex] at hadd
    obtain ⟨total, htotal, hadd⟩ := bind_ok_iff.mp hadd
    obtain ⟨rfl, -⟩ := checkedAdd_ok htotal
    cases hadd
    obtain ⟨hpath, hsize⟩ := not_or.mp hfresh
    refine ⟨?_, ?_, ?_, ?_, ?_⟩
    · intro p
      rw [mem_cons, h.paths, map_append, mem_append, map_singleton, mem_singleton, or_comm]
    · rw [length_append, h.count, length_singleton]
    · rw [map_append, sum_append, h.total, map_singleton, sum_singleton]
    · intro other hother
      rcases mem_append.mp hother with hother | hother
      · exact h.valid other hother
      · rw [mem_singleton.mp hother]
        refine ⟨Nat.le_of_not_lt (not_or.mp hsize).1, ?_, eq_true_of_ne_false hconfined⟩
        by_contra hnone
        rw [not_or, not_or] at hnone
        exact hroot hnone
    · rw [map_append]
      refine nodup_append'.mpr ⟨h.nodup, nodup_singleton _, ?_⟩
      exact disjoint_singleton.mpr fun hmem => hpath ((h.paths _).mpr hmem)

theorem Tallied.addIsolated {below : Text} {message : String} (h : Tallied limits items tally)
    (hadd : addIsolated limits below message tally more = .ok tally') :
    Tallied limits (items ++ more) tally' ∧ ∀ item ∈ more, below <+: item.path := by
  refine foldlM_invariant (P := fun done s => Tallied limits (items ++ done) s ∧
    ∀ item ∈ done, below <+: item.path) ?_ ?_ hadd
  · rintro done item s s' - ⟨hdone, hbelow⟩ hitem
    by_cases hitemBelow : below <+: item.path
    · rw [if_pos hitemBelow] at hitem
      rw [← append_assoc]
      refine ⟨hdone.add hitem, fun other hother => ?_⟩
      rcases mem_append.mp hother with hother | hother
      · exact hbelow other hother
      · exact mem_singleton.mp hother ▸ hitemBelow
    · rw [if_neg hitemBelow] at hitem
      cases hitem
  · rw [append_nil]
    exact ⟨h, nofun⟩

/-- The files of a Vault are below its own paths. -/
structure Isolated (env : ArchiveEnv) (v : VaultBackupManifest) : Prop where
  content : ∀ item ∈ v.content, contentPath env v.vaultId <+: item.path
  history : ∀ item ∈ v.history, historyPath env v.vaultId <+: item.path

theorem Tallied.addVault {v : VaultBackupManifest} (h : Tallied limits items tally)
    (hadd : addVault env limits tally v = .ok tally') :
    Tallied limits (items ++ v.artifacts) tally' ∧ Isolated env v := by
  rw [BackupArchive.addVault] at hadd
  obtain ⟨-, hadd⟩ := of_check hadd
  obtain ⟨middle, hcontent, hhistory⟩ := bind_ok_iff.mp hadd
  obtain ⟨hmiddle, hbelow⟩ := h.addIsolated hcontent
  obtain ⟨hend, hbelow'⟩ := hmiddle.addIsolated hhistory
  rw [append_assoc] at hend
  exact ⟨hend, hbelow, hbelow'⟩

theorem Tallied.addVaults {vaults : List VaultBackupManifest} (h : Tallied limits items tally)
    (hadd : vaults.foldlM (BackupArchive.addVault env limits) tally = .ok tally') :
    Tallied limits (items ++ vaults.flatMap VaultBackupManifest.artifacts) tally' ∧
      ∀ v ∈ vaults, Isolated env v := by
  refine foldlM_invariant (P := fun done s =>
    Tallied limits (items ++ done.flatMap VaultBackupManifest.artifacts) s ∧
      ∀ v ∈ done, Isolated env v) ?_ ?_ hadd
  · rintro done v s s' - ⟨hdone, hisolated⟩ hv
    obtain ⟨htallied, hown⟩ := hdone.addVault hv
    rw [flatMap_append, flatMap_singleton, ← append_assoc]
    refine ⟨htallied, fun other hother => ?_⟩
    rcases mem_append.mp hother with hother | hother
    · exact hisolated other hother
    · exact mem_singleton.mp hother ▸ hown
  · rw [flatMap_nil, append_nil]
    exact ⟨h, nofun⟩

/-- What an accepted manifest satisfies. -/
structure ValidManifest (env : ArchiveEnv) (limits : BackupLimits) (m : BackupManifest) : Prop where
  state : m.state.path = stateArchivePath
  valid : ∀ item ∈ m.artifacts, ValidArtifact limits item
  nodup : (m.artifacts.map (·.path)).Nodup
  isolated : ∀ v ∈ m.vaults, Isolated env v
  count : m.artifacts.length ≤ limits.maxEntries
  total : (m.artifacts.map (·.size)).sum ≤ limits.maxTotalBytes

theorem validateManifest_ok (h : validateManifest env limits m = .ok ()) :
    ValidManifest env limits m := by
  obtain ⟨-, h⟩ := of_check h
  obtain ⟨hlimits, h⟩ := of_check h
  obtain ⟨hstate, h⟩ := of_check h
  simp only [bind_ok_iff] at h
  obtain ⟨first, hfirst, tally, htally, h⟩ := h
  obtain ⟨htotals, -⟩ := of_check h
  obtain ⟨htallied, hisolated⟩ := ((Tallied.nil limits).add hfirst).addVaults htally
  rw [not_or, Nat.not_lt, Nat.not_lt] at hlimits
  rw [not_or, not_not, not_not] at htotals
  refine ⟨not_not.mp hstate, htallied.valid, htallied.nodup, hisolated, ?_, ?_⟩
  · calc m.artifacts.length = tally.count := htallied.count.symm
      _ = m.fileCount := htotals.1
      _ ≤ limits.maxEntries := hlimits.1
  · calc (m.artifacts.map (·.size)).sum = tally.total := htallied.total.symm
      _ = m.totalBytes := htotals.2
      _ ≤ limits.maxTotalBytes := hlimits.2

end Manifest

/-! ## What a valid archive has -/

section Scanning

variable {env : ArchiveEnv} {limits : BackupLimits} {s s' : Scan} {e : TarEntry}
  {es : List TarEntry}

/-- What is asked of the path of an entry. -/
structure Portable (path : Text) : Prop where
  confined : isConfined path
  nonempty : path ≠ []

theorem archivePathString_ok {path value : Text} (h : archivePathString path = .ok value) :
    value = path ∧ Portable path := by
  obtain ⟨hconfined, h⟩ := of_check h
  obtain ⟨hnormal, h⟩ := of_check h
  obtain ⟨-, h⟩ := of_check h
  exact ⟨(Except.ok.inj h).symm, eq_true_of_ne_false hconfined, (not_or.mp hnormal).1⟩

def regulars (es : List TarEntry) : List TarEntry := es.filter fun e => decide (e.type = .regular)

def fileOf (env : ArchiveEnv) (e : TarEntry) : Text × Nat × String :=
  (e.path, e.bytes.length, env.hasher.digest e.bytes)

/-- The state of the loop after some entries. -/
structure Scanned (env : ArchiveEnv) (limits : BackupLimits) (es : List TarEntry) (s : Scan) :
    Prop where
  paths : ∀ p, p ∈ s.paths ↔ p ∈ es.map (·.path)
  files : s.files = (regulars es).map (fileOf env)
  count : s.archiveEntries = es.length
  total : s.totalBytes = ((regulars es).map (·.bytes.length)).sum
  manifest : ∀ bytes, s.manifestBytes = some bytes →
    ∃ e ∈ regulars es, e.path = manifestArchivePath ∧ e.bytes = bytes
  portable : ∀ e ∈ es, Portable e.path ∧ (e.type = .directory ∨ e.type = .regular)
  nodup : (es.map (·.path)).Nodup
  sizes : ∀ e ∈ regulars es, e.bytes.length ≤ limits.maxEntryBytes
  totalLe : s.totalBytes ≤ limits.maxTotalBytes

theorem Scanned.start : Scanned env limits [] Scan.start where
  paths _ := Iff.rfl
  files := rfl
  count := rfl
  total := rfl
  manifest _ h := nomatch h
  portable _ h := nomatch h
  nodup := nodup_nil
  sizes _ h := nomatch h
  totalLe := Nat.zero_le _

theorem scanFile_ok {path : Text} {bytes : Bytes} (h : scanFile env limits s path bytes = .ok s') :
    bytes.length ≤ limits.maxEntryBytes ∧ s.totalBytes + bytes.length ≤ limits.maxTotalBytes ∧
      s' = { s with
        totalBytes := s.totalBytes + bytes.length
        manifestBytes := if path = manifestArchivePath then some bytes else s.manifestBytes
        files := s.files ++ [(path, bytes.length, env.hasher.digest bytes)] } := by
  obtain ⟨-, h⟩ := of_check h
  obtain ⟨hsize, h⟩ := of_check h
  obtain ⟨total, htotal, h⟩ := bind_ok_iff.mp h
  obtain ⟨rfl, -⟩ := checkedAdd_ok htotal
  obtain ⟨hle, h⟩ := of_check h
  obtain ⟨-, h⟩ := of_check h
  exact ⟨Nat.le_of_not_lt hsize, Nat.le_of_not_lt hle, (Except.ok.inj h).symm⟩

theorem regulars_append_singleton (es : List TarEntry) (e : TarEntry) :
    regulars (es ++ [e]) = regulars es ++ if e.type = .regular then [e] else [] := by
  rw [regulars, filter_append, filter_singleton]
  by_cases h : e.type = .regular
  · rw [if_pos h, decide_eq_true h]
    rfl
  · rw [if_neg h, decide_eq_false h]
    rfl

/-- One entry that was accepted. -/
theorem Scanned.add (h : Scanned env limits es s) (hadd : scanEntry env limits s e = .ok s') :
    Scanned env limits (es ++ [e]) s' := by
  obtain ⟨count, hcount, hadd⟩ := bind_ok_iff.mp hadd
  obtain ⟨rfl, -⟩ := checkedAdd_ok hcount
  obtain ⟨-, hadd⟩ := of_check hadd
  obtain ⟨path, hpath, hadd⟩ := bind_ok_iff.mp hadd
  obtain ⟨rfl, hportable⟩ := archivePathString_ok hpath
  obtain ⟨hfresh, hadd⟩ := of_check hadd
  have hpaths : ∀ p, p ∈ e.path :: s.paths ↔ p ∈ (es ++ [e]).map (·.path) := by
    intro p
    rw [mem_cons, h.paths, map_append, mem_append, map_singleton, mem_singleton, or_comm]
  have hnodup : ((es ++ [e]).map (·.path)).Nodup := by
    rw [map_append]
    refine nodup_append'.mpr ⟨h.nodup, nodup_singleton _, ?_⟩
    exact disjoint_singleton.mpr fun hmem => hfresh ((h.paths _).mpr hmem)
  have hlength : s.archiveEntries + 1 = (es ++ [e]).length := by
    rw [length_append, h.count, length_singleton]
  have hkinds : ∀ (_ : e.type = .directory ∨ e.type = .regular), ∀ e' ∈ es ++ [e],
      Portable e'.path ∧ (e'.type = .directory ∨ e'.type = .regular) := by
    intro hkind e' he'
    rcases mem_append.mp he' with he' | he'
    · exact h.portable e' he'
    · rw [mem_singleton.mp he']
      exact ⟨hportable, hkind⟩
  cases htype : e.type with
  | directory =>
    rw [htype] at hadd
    cases hadd
    have hregulars : regulars (es ++ [e]) = regulars es := by
      rw [regulars_append_singleton, if_neg (by rw [htype]; decide), append_nil]
    refine ⟨hpaths, ?_, hlength, ?_, ?_, hkinds (.inl htype), hnodup, ?_, h.totalLe⟩
    · rw [hregulars]
      exact h.files
    · rw [hregulars]
      exact h.total
    · rw [hregulars]
      exact h.manifest
    · rw [hregulars]
      exact h.sizes
  | regular =>
    rw [htype] at hadd
    obtain ⟨hsize, htotal, rfl⟩ := scanFile_ok hadd
    have hregulars : regulars (es ++ [e]) = regulars es ++ [e] := by
      rw [regulars_append_singleton, if_pos htype]
    refine ⟨hpaths, ?_, hlength, ?_, ?_, hkinds (.inr htype), hnodup, ?_, htotal⟩
    · rw [hregulars, map_append]
      exact congrArg (· ++ [fileOf env e]) h.files
    · rw [hregulars, map_append, sum_append, ← h.total, map_singleton, sum_singleton]
    · intro bytes hbytes
      rw [hregulars]
      by_cases hmanifest : e.path = manifestArchivePath
      · rw [if_pos hmanifest] at hbytes
        exact ⟨e, mem_append_right _ (mem_singleton_self e), hmanifest, Option.some.inj hbytes⟩
      · rw [if_neg hmanifest] at hbytes
        obtain ⟨e', he', hfound⟩ := h.manifest bytes hbytes
        exact ⟨e', mem_append_left _ he', hfound⟩
    · intro e' he'
      rw [hregulars] at he'
      rcases mem_append.mp he' with he' | he'
      · exact h.sizes e' he'
      · rw [mem_singleton.mp he']
        exact hsize
  | symlink | hardLink | char | block | fifo | other => rw [htype] at hadd; cases hadd

theorem scanned_of_run (hrun : es.foldlM (scanEntry env limits) Scan.start = .ok s) :
    Scanned env limits es s :=
  foldlM_invariant (fun _ _ _ _ _ hdone he => hdone.add he)
    Scanned.start hrun

end Scanning

section Validation

variable {env : ArchiveEnv} {limits : BackupLimits} {archive : Archive} {preview : RestorePreview}
  {m : BackupManifest} {files expected : List (Text × Nat × String)}

/-- An accepted archive, with its manifest. -/
structure ValidArchive (env : ArchiveEnv) (limits : BackupLimits) (es : List TarEntry)
    (m : BackupManifest) : Prop where
  manifest : ValidManifest env limits m
  portable : ∀ e ∈ es, Portable e.path ∧ (e.type = .directory ∨ e.type = .regular)
  sizes : ∀ e ∈ regulars es, e.bytes.length ≤ limits.maxEntryBytes
  total : ((regulars es).map (·.bytes.length)).sum ≤ limits.maxTotalBytes
  own : ∃ e ∈ regulars es, e.path = manifestArchivePath ∧ env.readManifest e.bytes = some m
  count : (regulars es).length = m.artifacts.length + 1
  listed : ∀ item ∈ m.artifacts, ∃ e ∈ regulars es, e.path = item.path ∧
    e.bytes.length = item.size ∧ env.hasher.digest e.bytes = item.sha256
  complete : ∀ e ∈ regulars es, e.path = manifestArchivePath ∨
    ∃ item ∈ m.artifacts, item.path = e.path

/-- Listed files are not the manifest. -/
theorem ValidArtifact.path_ne {item : BackupArtifact} (h : ValidArtifact limits item) :
    item.path ≠ manifestArchivePath := by
  intro heq
  rcases h.root with hstate | hroot | hroot
  · exact absurd (hstate.symm.trans heq) (by decide)
  · rw [heq] at hroot
    exact absurd hroot (by decide)
  · rw [heq] at hroot
    exact absurd hroot (by decide)

/-- As many keys as expected are all of them. -/
theorem mem_keys_of_length {key : Text} (hexpected : (key :: expected.map (·.1)).Nodup)
    (hlength : files.length = expected.length + 1)
    (hsubset : key :: expected.map (·.1) ⊆ files.map (·.1)) {p : Text} (hp : p ∈ files.map (·.1)) :
    p = key ∨ p ∈ expected.map (·.1) := by
  have hsubperm := subperm_of_subset hexpected hsubset
  have hperm := hsubperm.perm_of_length_le (by
    rw [length_cons, length_map, length_map]
    omega)
  exact mem_cons.mp (hperm.mem_iff.mpr hp)

theorem validateArchiveFile_ok (h : validateArchiveFile env limits archive = .ok preview) :
    ValidArchive env limits archive.entries preview.manifest := by
  obtain ⟨-, h⟩ := of_check h
  obtain ⟨scan, hscan, h⟩ := bind_ok_iff.mp h
  have hscanned := scanned_of_run hscan
  cases hbytes : scan.manifestBytes with
  | none =>
    rw [hbytes] at h
    cases h
  | some bytes =>
    rw [hbytes] at h
    obtain ⟨own, hown, hpath, hownBytes⟩ := hscanned.manifest bytes hbytes
    cases hread : env.readManifest bytes with
    | none =>
      simp only [hread] at h
      cases h
    | some m =>
      simp only [hread] at h
      obtain ⟨u, hvalid, h⟩ := bind_ok_iff.mp h
      have hmanifest := validateManifest_ok hvalid
      obtain ⟨hnodup, h⟩ := of_check h
      obtain ⟨hlength, h⟩ := of_check h
      obtain ⟨hlookup, h⟩ := of_check h
      cases h
      rw [not_or, not_not, not_not] at hlength
      rw [not_exists] at hlookup
      rw [not_not] at hnodup
      have hregular : ∀ e ∈ regulars archive.entries, fileOf env e ∈ scan.files := by
        intro e he
        rw [hscanned.files]
        exact mem_map_of_mem he
      have hfound : ∀ item ∈ expectedFiles m, item ∈ scan.files := by
        intro item hitem
        have hsome := not_not.mp (fun hne => hlookup item ⟨hitem, hne⟩)
        obtain ⟨before, after, hsplit, -⟩ := lookup_eq_some_iff.mp hsome
        rw [hsplit]
        exact mem_append_right _ mem_cons_self
      refine ⟨hmanifest, hscanned.portable, hscanned.sizes, ?_, ?_, ?_, ?_, ?_⟩
      · rw [← hscanned.total]
        exact hscanned.totalLe
      · exact ⟨own, hown, hpath, hownBytes ▸ hread⟩
      · have hfiles := congrArg List.length hscanned.files
        rw [length_map] at hfiles
        rw [← hfiles, hlength.1, expectedFiles, length_map]
      · intro item hitem
        have hmem := hfound _ (mem_map_of_mem hitem)
        rw [hscanned.files] at hmem
        obtain ⟨e, he, heq⟩ := mem_map.mp hmem
        obtain ⟨hsame, hdata⟩ := Prod.mk.inj heq
        exact ⟨e, he, hsame, Prod.mk.inj hdata⟩
      · intro e he
        have hmem : e.path ∈ scan.files.map (·.1) :=
          mem_map_of_mem (hregular e he)
        have hnew : manifestArchivePath ∉ (expectedFiles m).map (·.1) := by
          intro hmem
          rw [expectedFiles, map_map] at hmem
          obtain ⟨item, hitem, heq⟩ := mem_map.mp hmem
          exact (hmanifest.valid item hitem).path_ne heq
        have hcase := mem_keys_of_length (nodup_cons.mpr ⟨hnew, hnodup⟩) hlength.1
          (cons_subset.mpr ⟨hlength.2, fun p hp => by
            obtain ⟨item, hitem, rfl⟩ := mem_map.mp hp
            exact mem_map_of_mem (hfound item hitem)⟩) hmem
        refine hcase.imp_right fun hmem => ?_
        rw [expectedFiles, map_map] at hmem
        exact mem_map.mp hmem

end Validation

/-! ## What extraction makes -/

section Extraction

variable {env : ArchiveEnv} {limits : BackupLimits} {archive : Archive} {m : BackupManifest}
  {destination : VaultPath} {t t' : Tree} {e : TarEntry} {es : List TarEntry}

/-- The place of an entry below the destination. -/
def placed (destination : VaultPath) (e : TarEntry) : Entry :=
  if e.type = .directory then .directory (destination ++ names e.path)
  else .file (destination ++ names e.path) e.bytes

theorem path_placed (destination : VaultPath) (e : TarEntry) :
    (placed destination e).path = destination ++ names e.path := by
  rw [placed]
  split_ifs <;> rfl

theorem above_placed (destination : VaultPath) (e : TarEntry) :
    (placed destination e).above <+: destination ++ names e.path := by
  rw [placed]
  split_ifs
  · exact prefix_refl _
  · exact dropLast_prefix _

theorem host_ok {operation : String} {r : Except ErrorKind Tree} (h : host operation r = .ok t) :
    r = .ok t := by
  cases r with
  | error e => cases h
  | ok t' => exact congrArg Except.ok (Except.ok.inj h)

theorem extractEntry_ok (h : extractEntry destination t e = .ok t') :
    place t (placed destination e) = .ok t' := by
  obtain ⟨relative, hrelative, h⟩ := bind_ok_iff.mp h
  obtain ⟨rfl, hportable⟩ := archivePathString_ok hrelative
  obtain ⟨target, htarget, h⟩ := bind_ok_iff.mp h
  rw [safeJoin, hportable.confined, join_of_confined hportable.confined] at htarget
  cases htarget
  rw [placed]
  by_cases hdir : e.type = .directory
  · rw [if_pos hdir] at h ⊢
    exact host_ok h
  · rw [if_neg hdir] at h ⊢
    obtain ⟨middle, hmiddle, h⟩ := bind_ok_iff.mp h
    exact bind_ok_iff.mpr ⟨middle, host_ok hmiddle, host_ok h⟩

theorem extractEntries_ok (h : es.foldlM (extractEntry destination) t = .ok t') :
    Placed t (es.map (placed destination)) t' := by
  refine foldlM_invariant (P := fun done t₁ => Placed t (done.map (placed destination)) t₁) ?_
    (Placed.nil t) h
  intro done e t₁ t₂ _ hdone he
  rw [map_append]
  exact hdone.append (place_placed (extractEntry_ok he))

theorem extractArchive_ok (h : extractArchive env limits archive destination t = .ok (m, t')) :
    ValidArchive env limits archive.entries m ∧ ∃ t₁, createDirAll t destination = .ok t₁ ∧
      Placed t₁ (archive.entries.map (placed destination)) t' := by
  rw [extractArchive] at h
  simp only [bind_ok_iff] at h
  obtain ⟨preview, hpreview, t₁, hroot, t₂, hentries, h⟩ := h
  cases h
  exact ⟨validateArchiveFile_ok hpreview, t₁, host_ok hroot, extractEntries_ok hentries⟩

end Extraction

/-! ## Confinement -/

/-- A file that is new in the second tree. -/
def MadeFile (t t' : Tree) (p : VaultPath) (bytes : Bytes) : Prop :=
  t.node p = none ∧ t'.bytes p = some bytes

/-- The length of the file at a path. -/
def sizeAt (t : Tree) (p : VaultPath) : Nat := ((t.bytes p).getD []).length

/-- What an extraction made of the tree: only listed files below the directory, within the
    limits. -/
structure Confined (env : ArchiveEnv) (limits : BackupLimits) (m : BackupManifest)
    (destination : VaultPath) (t t' : Tree) : Prop where
  below : ∀ p, t'.node p ≠ t.node p → t.node p = none ∧ ∃ rest, rest ≠ [] ∧ p = destination ++ rest
  manifest : ∃ bytes, MadeFile t t' (destination ++ names manifestArchivePath) bytes ∧
    env.readManifest bytes = some m
  listed : ∀ item ∈ m.artifacts, ∃ bytes, MadeFile t t' (destination ++ names item.path) bytes ∧
    bytes.length = item.size ∧ env.hasher.digest bytes = item.sha256
  only : ∀ p bytes, MadeFile t t' p bytes → p = destination ++ names manifestArchivePath ∨
    ∃ item ∈ m.artifacts, p = destination ++ names item.path
  content : ∀ id rest bytes, MadeFile t t' (destination ++ "vaults" :: id :: "content" :: rest) bytes →
    ∃ v ∈ m.vaults, ofList (env.idText v.vaultId) = id ∧
      ∃ item ∈ v.content, names item.path = "vaults" :: id :: "content" :: rest
  history : ∀ id rest bytes, MadeFile t t' (destination ++ "history" :: id :: rest) bytes →
    ∃ v ∈ m.vaults, ofList (env.idText v.vaultId) = id ∧
      ∃ item ∈ v.history, names item.path = "history" :: id :: rest
  through : ∀ p q bytes, t'.node p ≠ t.node p → MadeFile t t' q bytes → q <+: p → q = p
  limits : ∃ files : List VaultPath, files.Nodup ∧
    (∀ p, p ∈ files ↔ ∃ bytes, MadeFile t t' p bytes) ∧
    files.length = m.artifacts.length + 1 ∧ m.artifacts.length ≤ limits.maxEntries ∧
    (files.map (sizeAt t')).sum ≤ limits.maxTotalBytes ∧
    ∀ p ∈ files, sizeAt t' p ≤ limits.maxEntryBytes

section Confinement

variable {env : ArchiveEnv} {limits : BackupLimits} {m : BackupManifest} {es : List TarEntry}
  {destination p : VaultPath} {t t' : Tree} {path : Text} {bytes : Bytes}

theorem three_segments (a b c rest : Text) :
    (a ++ ['/']) ++ b ++ '/' :: (c ++ ['/']) ++ rest = a ++ '/' :: (b ++ '/' :: (c ++ '/' :: rest)) := by
  simp only [append_assoc, cons_append, nil_append]

theorem two_segments (a b rest : Text) :
    (a ++ ['/']) ++ b ++ ['/'] ++ rest = a ++ '/' :: (b ++ '/' :: rest) := by
  simp only [append_assoc, cons_append, nil_append]

variable {item : BackupArtifact} {id : VaultId}

theorem names_content (hconfined : isConfined path) (h : contentPath env id <+: path) :
    ∃ rest, names path = "vaults" :: ofList (env.idText id) :: "content" :: rest := by
  obtain ⟨rest, rfl⟩ := h
  have hsegments : contentPath env id ++ rest = "vaults".toList ++ '/' :: (env.idText id ++
      '/' :: ("content".toList ++ '/' :: rest)) :=
    three_segments "vaults".toList (env.idText id) "content".toList rest
  rw [names_of_confined hconfined, hsegments, segmentNames_append, segmentNames_append,
    segmentNames_append, segmentNames_name (by decide), segmentNames_name (env.idText_name id),
    segmentNames_name (by decide)]
  exact ⟨_, rfl⟩

theorem names_history (hconfined : isConfined path) (h : historyPath env id <+: path) :
    ∃ rest, names path = "history" :: ofList (env.idText id) :: rest := by
  obtain ⟨rest, rfl⟩ := h
  have hsegments : historyPath env id ++ rest =
      "history".toList ++ '/' :: (env.idText id ++ '/' :: rest) :=
    two_segments "history".toList (env.idText id) rest
  rw [names_of_confined hconfined, hsegments, segmentNames_append, segmentNames_append,
    segmentNames_name (by decide), segmentNames_name (env.idText_name id)]
  exact ⟨_, rfl⟩

theorem mem_artifacts : item ∈ m.artifacts ↔
    item = m.state ∨ ∃ v ∈ m.vaults, item ∈ v.content ∨ item ∈ v.history := by
  rw [BackupManifest.artifacts, mem_cons, mem_flatMap]
  refine or_congr_right (exists_congr fun v => and_congr_right fun _ => ?_)
  rw [VaultBackupManifest.artifacts, mem_append]

/-- A manifest's file is the state's, or a Vault's. -/
theorem ValidManifest.names_cases (h : ValidManifest env limits m) (hitem : item ∈ m.artifacts) :
    names item.path = ["state", "mcp-vault.sqlite3"] ∨ ∃ v ∈ m.vaults,
      (item ∈ v.content ∧ ∃ rest, names item.path =
        "vaults" :: ofList (env.idText v.vaultId) :: "content" :: rest) ∨
      (item ∈ v.history ∧ ∃ rest, names item.path =
        "history" :: ofList (env.idText v.vaultId) :: rest) := by
  have hconfined := (h.valid item hitem).confined
  rcases mem_artifacts.mp hitem with rfl | ⟨v, hv, hcontent | hhistory⟩
  · rw [h.state]
    exact .inl (by decide)
  · exact .inr ⟨v, hv, .inl ⟨hcontent, names_content hconfined ((h.isolated v hv).content _ hcontent)⟩⟩
  · exact .inr ⟨v, hv, .inr ⟨hhistory, names_history hconfined ((h.isolated v hv).history _ hhistory)⟩⟩

section Extracted

variable (hvalid : ValidArchive env limits es m) (hroot : t.isDir destination)
  (hplaced : Placed t (es.map (placed destination)) t')

include hplaced

include hvalid in
/-- The new files are the regular entries. -/
theorem madeFile_iff : MadeFile t t' p bytes ↔
    ∃ e ∈ regulars es, p = destination ++ names e.path ∧ bytes = e.bytes := by
  constructor
  · rintro ⟨hnone, hbytes⟩
    obtain ⟨e, he, hentry⟩ := mem_map.mp ((hplaced.file_iff hnone).mp hbytes)
    rw [placed] at hentry
    by_cases hdir : e.type = .directory
    · rw [if_pos hdir] at hentry
      cases hentry
    · rw [if_neg hdir] at hentry
      cases hentry
      have htype := (hvalid.portable e he).2.resolve_left hdir
      exact ⟨e, mem_filter.mpr ⟨he, decide_eq_true htype⟩, rfl, rfl⟩
  · rintro ⟨e, he, rfl, rfl⟩
    obtain ⟨hmem, htype⟩ := mem_filter.mp he
    have hentry : Entry.file (destination ++ names e.path) e.bytes ∈ es.map (placed destination) := by
      refine mem_map.mpr ⟨e, hmem, ?_⟩
      rw [placed, if_neg (by rw [of_decide_eq_true htype]; decide)]
    have hnone := (hplaced.file _ _ hentry).2.1
    exact ⟨hnone, (hplaced.file_iff hnone).mpr hentry⟩

include hroot in
/-- What is new is below the directory. -/
theorem made_below (h : t'.node p ≠ t.node p) :
    t.node p = none ∧ ∃ rest, rest ≠ [] ∧ p = destination ++ rest := by
  have hnone : t.node p = none := by
    by_contra hsome
    obtain ⟨n, hn⟩ := Option.ne_none_iff_exists'.mp hsome
    exact h ((hplaced.keep p n hn).trans hn.symm)
  refine ⟨hnone, ?_⟩
  -- it is at or above the place of an entry, and the directory is there already
  obtain ⟨e, -, hway⟩ : ∃ e ∈ es, p <+: destination ++ names e.path := by
    rcases hplaced.made p hnone (by rwa [hnone] at h) with ⟨bytes, hfile⟩ | ⟨-, entry, hentry, hway⟩
    · obtain ⟨e, he, hentry⟩ := mem_map.mp hfile
      have hpath : destination ++ names e.path = p :=
        (path_placed destination e).symm.trans (congrArg Entry.path hentry)
      exact ⟨e, he, hpath ▸ prefix_refl _⟩
    · obtain ⟨e, he, rfl⟩ := mem_map.mp hentry
      exact ⟨e, he, hway.trans (above_placed destination e)⟩
  rcases prefix_or_prefix_of_prefix hway (prefix_append destination _) with hp | hp
  · exact absurd hnone (Tree.isDir_node (isDir_of_le hroot hp))
  · obtain ⟨rest, rfl⟩ := hp
    refine ⟨rest, ?_, rfl⟩
    rintro rfl
    rw [append_nil] at hnone
    exact Tree.isDir_node hroot hnone

include hvalid in
/-- The entries' files, once, with all their bytes. -/
theorem made_limits : ∃ files : List VaultPath, files.Nodup ∧
    (∀ p, p ∈ files ↔ ∃ bytes, MadeFile t t' p bytes) ∧
    files.length = m.artifacts.length + 1 ∧ m.artifacts.length ≤ limits.maxEntries ∧
    (files.map (sizeAt t')).sum ≤ limits.maxTotalBytes ∧
    ∀ p ∈ files, sizeAt t' p ≤ limits.maxEntryBytes := by
  have hsize : ∀ e ∈ regulars es, sizeAt t' (destination ++ names e.path) = e.bytes.length := by
    intro e he
    have hmade := (madeFile_iff hvalid hplaced).mpr ⟨e, he, rfl, rfl⟩
    rw [sizeAt, hmade.2]
    rfl
  have hpaths : (es.map (placed destination)).filterMap Entry.filePath =
      (regulars es).map fun e => destination ++ names e.path := by
    rw [filterMap_map, regulars, ← filterMap_eq_map, filterMap_filter]
    refine filterMap_congr fun e he => ?_
    rcases (hvalid.portable e he).2 with htype | htype
    · rw [if_neg (by rw [htype]; decide), Function.comp, placed, if_pos htype]
      rfl
    · rw [if_pos (by rw [htype]; decide), Function.comp, placed, if_neg (by rw [htype]; decide)]
      rfl
  refine ⟨(regulars es).map fun e => destination ++ names e.path, ?_, ?_, ?_,
    hvalid.manifest.count, ?_, ?_⟩
  · rw [← hpaths]
    exact hplaced.nodup
  · intro p
    rw [mem_map]
    constructor
    · rintro ⟨e, he, rfl⟩
      exact ⟨e.bytes, (madeFile_iff hvalid hplaced).mpr ⟨e, he, rfl, rfl⟩⟩
    · rintro ⟨bytes, hmade⟩
      obtain ⟨e, he, rfl, -⟩ := (madeFile_iff hvalid hplaced).mp hmade
      exact ⟨e, he, rfl⟩
  · rw [length_map, hvalid.count]
  · rw [map_map, map_congr_left (g := fun e => e.bytes.length) hsize]
    exact hvalid.total
  · intro p hp
    obtain ⟨e, he, rfl⟩ := mem_map.mp hp
    rw [hsize e he]
    exact hvalid.sizes e he

include hvalid hroot in
theorem confined_of_placed : Confined env limits m destination t t' := by
  have hmade : ∀ {p bytes}, MadeFile t t' p bytes ↔
      ∃ e ∈ regulars es, p = destination ++ names e.path ∧ bytes = e.bytes :=
    madeFile_iff hvalid hplaced
  have honly : ∀ p bytes, MadeFile t t' p bytes → p = destination ++ names manifestArchivePath ∨
      ∃ item ∈ m.artifacts, p = destination ++ names item.path := by
    intro p bytes h
    obtain ⟨e, he, rfl, -⟩ := hmade.mp h
    rcases hvalid.complete e he with hpath | ⟨item, hitem, hpath⟩
    · exact .inl (by rw [hpath])
    · exact .inr ⟨item, hitem, by rw [hpath]⟩
  -- the names of a new file, with the manifest told apart by its only name
  have hnames : ∀ {first second rest bytes},
      MadeFile t t' (destination ++ first :: second :: rest) bytes →
        ∃ item ∈ m.artifacts, names item.path = first :: second :: rest := by
    intro first second rest bytes h
    rcases honly _ _ h with heq | ⟨item, hitem, heq⟩
    · cases append_cancel_left heq
    · exact ⟨item, hitem, (append_cancel_left heq).symm⟩
  refine ⟨fun p => made_below hroot hplaced, ?_, ?_, honly, ?_, ?_, ?_, made_limits hvalid hplaced⟩
  · obtain ⟨e, he, hpath, hread⟩ := hvalid.own
    exact ⟨e.bytes, hmade.mpr ⟨e, he, by rw [hpath], rfl⟩, hread⟩
  · intro item hitem
    obtain ⟨e, he, hpath, hsize, hdigest⟩ := hvalid.listed item hitem
    exact ⟨e.bytes, hmade.mpr ⟨e, he, by rw [hpath], rfl⟩, hsize, hdigest⟩
  · intro id rest bytes h
    obtain ⟨item, hitem, heq⟩ := hnames h
    rcases hvalid.manifest.names_cases hitem with
      hstate | ⟨v, hv, ⟨hcontent, below, hbelow⟩ | ⟨-, below, hbelow⟩⟩
    · rw [heq] at hstate
      exact absurd (List.cons.inj hstate).1 (by decide)
    · rw [heq] at hbelow
      have hid := (List.cons.inj (List.cons.inj hbelow).2).1
      exact ⟨v, hv, hid.symm, item, hcontent, heq⟩
    · rw [heq] at hbelow
      exact absurd (List.cons.inj hbelow).1 (by decide)
  · intro id rest bytes h
    obtain ⟨item, hitem, heq⟩ := hnames h
    rcases hvalid.manifest.names_cases hitem with
      hstate | ⟨v, hv, ⟨-, below, hbelow⟩ | ⟨hhistory, below, hbelow⟩⟩
    · rw [heq] at hstate
      exact absurd (List.cons.inj hstate).1 (by decide)
    · rw [heq] at hbelow
      exact absurd (List.cons.inj hbelow).1 (by decide)
    · rw [heq] at hbelow
      have hid := (List.cons.inj (List.cons.inj hbelow).2).1
      exact ⟨v, hv, hid.symm, item, hhistory, heq⟩
  · intro p q bytes hp hq hle
    by_contra hne
    have hnode : t'.node p ≠ none := by
      intro hnone
      exact hp (hnone.trans (made_below hroot hplaced hp).1.symm)
    have hdir := Tree.isDir_of_prefix hnode hle hne
    rw [Tree.isDir_of_bytes hq.2] at hdir
    cases hdir

end Extracted

/-- An accepted archive stays below the destination and has what its manifest says. -/
theorem extraction_confined {archive : Archive}
    (h : extractArchive env limits archive destination t = .ok (m, t')) :
    ∃ t₁, createDirAll t destination = .ok t₁ ∧ Confined env limits m destination t₁ t' := by
  obtain ⟨hvalid, t₁, hroot, hplaced⟩ := extractArchive_ok h
  exact ⟨t₁, hroot, confined_of_placed hvalid (createDirAll_ok hroot).1 hplaced⟩

end Confinement

/-! ## A small archive -/

/-- A manifest and a tree of which a check holds. -/
def extractsTo (m : BackupManifest) (check : Tree → Bool) :
    Except BackupError (BackupManifest × Tree) → Bool
  | .ok (m', t) => decide (m' = m) && check t
  | .error _ => false

theorem extractsTo_spec {m : BackupManifest} {check : Tree → Bool}
    {r : Except BackupError (BackupManifest × Tree)} (h : extractsTo m check r) :
    ∃ t, r = .ok (m, t) ∧ check t := by
  cases r with
  | error e => cases h
  | ok found =>
    obtain ⟨m', t⟩ := found
    rw [extractsTo, Bool.and_eq_true, decide_eq_true_eq] at h
    exact ⟨t, by rw [h.1], h.2⟩

/-- The state alone, with no Vault. -/
def stateManifest : BackupManifest where
  formatVersion
  serviceVersion := "1"
  schemaVersion := 1
  createdAt := 0
  completedAt := 0
  state := ⟨stateArchivePath, 1, smallDigest ⟨0, by decide⟩⟩
  keyVersionIds := [1]
  vaults := []
  fileCount := 1
  totalBytes := 1

theorem isName_replicate (n : Nat) : IsName (List.replicate (n + 1) 'v') := by
  have hmem : ∀ c ∈ List.replicate (n + 1) 'v', c = 'v' := fun c hc => eq_of_mem_replicate hc
  refine ⟨cons_ne_nil _ _, fun h => ?_, fun h => ?_, fun h => ?_⟩
  · exact absurd (hmem '.' (h ▸ mem_cons_self)) (by decide)
  · exact absurd (hmem '.' (h ▸ mem_cons_self)) (by decide)
  · exact absurd (hmem '/' h) (by decide)

/-- The text of that manifest. -/
def stateManifestBytes : Bytes :=
  ("\x7b\"format_version\":1,\"service_version\":\"1\",\"schema_version\":1,\"created_at\":0," ++
    "\"completed_at\":0,\"state\":\x7b\"path\":\"state/mcp-vault.sqlite3\",\"size\":1,\"sha256\":\"" ++
    smallDigest ⟨0, by decide⟩ ++ "\"\x7d,\"key_version_ids\":[1],\"vaults\":[]," ++
    "\"file_count\":1,\"total_bytes\":1\x7d").toList.map fun c => .ofNat c.toNat

def stateEnv : ArchiveEnv where
  hasher := smallHasher
  idText n := List.replicate (n + 1) 'v'
  idText_name := isName_replicate
  idText_injective a b h := by
    have hlength := congrArg List.length h
    rw [length_replicate, length_replicate] at hlength
    exact Nat.succ.inj hlength
  readManifest bytes := if bytes = stateManifestBytes then some stateManifest else none

def stateArchive : Archive where
  entries := [⟨manifestArchivePath, .regular, stateManifestBytes⟩, ⟨"state/".toList, .directory, []⟩,
    ⟨stateArchivePath, .regular, [0]⟩]
  length := 4096

/-- One file is allowed. -/
def oneFile : BackupLimits := ⟨1024, 1024, 4096, 1⟩

theorem stateArchive_extracted : ∃ t', extractArchive stateEnv oneFile stateArchive ["stage"]
    emptyTree = .ok (stateManifest, t') ∧
      decide (t'.bytes ["stage", "manifest.json"] = some stateManifestBytes ∧
        t'.bytes ["stage", "state", "mcp-vault.sqlite3"] = some [0]) :=
  extractsTo_spec (by decide +kernel)

/-- The manifest comes on top of the limit. -/
theorem manifest_not_counted : ∃ t₁ t', extractArchive stateEnv oneFile stateArchive ["stage"]
    emptyTree = .ok (stateManifest, t') ∧ createDirAll emptyTree ["stage"] = .ok t₁ ∧
      ∀ files : List VaultPath, (∀ p, p ∈ files ↔ ∃ bytes, MadeFile t₁ t' p bytes) →
        oneFile.maxEntries < files.length := by
  obtain ⟨t', hextract, hfiles⟩ := stateArchive_extracted
  obtain ⟨hvalid, t₁, hroot, hplaced⟩ := extractArchive_ok hextract
  refine ⟨t₁, t', hextract, hroot, fun files hmem => ?_⟩
  obtain ⟨hmanifest, hstate⟩ := of_decide_eq_true hfiles
  have hmade := (createDirAll_ok hroot).2
  have hnone : ∀ p, ¬ p <+: ["stage"] → t₁.node p = none := by
    intro p hp
    rw [hmade, if_neg (fun h => hp h.2)]
    refine if_neg ?_
    rintro rfl
    exact hp nil_prefix
  have hfirst := (hmem _).mpr ⟨_, hnone _ (by decide), hmanifest⟩
  have hsecond := (hmem _).mpr ⟨_, hnone _ (by decide), hstate⟩
  have hsubset : [["stage", "manifest.json"], ["stage", "state", "mcp-vault.sqlite3"]] ⊆ files :=
    cons_subset.mpr ⟨hfirst, cons_subset.mpr ⟨hsecond, nil_subset _⟩⟩
  exact (subperm_of_subset (by decide) hsubset).length_le

theorem stateArchive_confined : ∃ t', extractArchive stateEnv oneFile stateArchive ["stage"]
    emptyTree = .ok (stateManifest, t') ∧ ∃ t₁, createDirAll emptyTree ["stage"] = .ok t₁ ∧
      Confined stateEnv oneFile stateManifest ["stage"] t₁ t' := by
  obtain ⟨t', hextract, -⟩ := stateArchive_extracted
  exact ⟨t', hextract, extraction_confined hextract⟩

end BackupArchive
