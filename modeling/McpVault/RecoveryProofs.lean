import McpVault.CommitProofs
import McpVault.WriteProofs

/-! # Recovery — what a restart makes of an unfinished operation

Every open journal row is judged by what is on disk.  `recoveryState` asks for the old state and
for the new one, and a missing hash matches anything. A row is rolled back when only the old
state holds, finished when the new one does, and left for review otherwise. -/

namespace VaultCore

open VaultDomain FileStore VaultStorage Program SqlTable List

inductive RecoveryOutcome where
  | rolledBack
  | finalized
  | superseded
  | needsReview
  deriving DecidableEq

structure RecoveryReport where
  (rolledBack finalized superseded needsReview : Nat)
  deriving DecidableEq

def RecoveryReport.count (report : RecoveryReport) : RecoveryOutcome → RecoveryReport
  | .rolledBack => { report with rolledBack := report.rolledBack + 1 }
  | .finalized => { report with finalized := report.finalized + 1 }
  | .superseded => { report with superseded := report.superseded + 1 }
  | .needsReview => { report with needsReview := report.needsReview + 1 }

/-! ## The procedures -/

/-- The hash and the size of a file that is there. -/
def hashMatches (path : VaultPath) (managed : Bool) (size : Nat) (hash : String) :
    Core Bool := do
  let hashed ← demand (.hashFile path managed) mapStorage
  if hashed.2 = stripSha256 hash then do
    let again ← demand (.stat path managed) mapStorage
    pure (decide (size = again.size))
  else pure false

/-- `path_matches`: there, with the hash if given. -/
def pathMatches (env : Env) (path : VaultPath) (hash : Option String) : Core Bool := do
  let found ← perform (.stat path (env.policy.isReserved path))
  match found, hash with
  | .error e, _ => if storageNotFound e then pure false else .fail (mapStorage e)
  | .ok _, none => pure true
  | .ok metadata, some hash =>
    hashMatches path (env.policy.isReserved path) metadata.size hash

def isDelete (payload : CorePayload) : Bool :=
  decide (payload.operation = .delete ∨
    payload.operation = .externalChange ∧ payload.deletedAt.isSome)

/-- A move: one of the two paths has the entry. -/
def moveState (env : Env) (journal : JournalRow StoredPayload) (payload : CorePayload)
    (new : Bool) : Core Bool := do
  let source ← orFail .needsReview journal.sourcePath
  let destination ← orFail .needsReview journal.destinationPath
  let sourceExists ← pathMatches env source payload.contentHash
  let destinationExists ← pathMatches env destination payload.contentHash
  pure (if new then !sourceExists && destinationExists
    else sourceExists && !destinationExists)

/-- Whether the disk shows the new, or the old, state. -/
def recoveryState (env : Env) (journal : JournalRow StoredPayload) (payload : CorePayload)
    (new : Bool) : Core Bool :=
  if payload.operation = .move then moveState env journal payload new
  else do
    let target ← orFail .needsReview (journal.destinationPath.or journal.sourcePath)
    let found ← pathMatches env target payload.contentHash
    if new then pure (if isDelete payload then !found else found)
    else if isDelete payload then pure found
    else
      match journal.priorHash with
      | some priorHash => pathMatches env target (some priorHash)
      | none => pure (!found)

/-- The temporary name of the journal row, if it has one. -/
def removeLeftover : Option VaultPath → Core Unit
  | none => pure ()
  | some temp => do
    let temp ← ofExcept ((parseTemporary temp).mapError .storage)
    demand (.removeTemporary temp) mapStorage

def review {α : Type} (id : OperationId) (reason : String) (k : Core α) : Core α := do
  demand (.markNeedsReview id reason) .state
  k

def destinationReason : String := "recovery metadata destination already exists"

/-- A taken destination may be a replayed create's. -/
def adjudicate (env : Env) (journal : JournalRow StoredPayload) (path : VaultPath) :
    Core RecoveryOutcome := do
  let active ← (do
    match journal.priorFileId with
    | none => pure none
    | some prior => do
      let active ← perform (.getActive path)
      pure (active.map fun file => (prior, file)))
  match active with
  | none => review journal.id destinationReason (.fail .alreadyExists)
  | some (prior, replacement) => do
    let hashed ← perform (.hashFile path (env.policy.isReserved path))
    match hashed with
    | .error e => review journal.id destinationReason (.fail (mapStorage e))
    | .ok (_, hash) => do
      let result ← demand (.supersedeReplayedCreate ⟨journal.id, path, prior,
        replacement.id, replacement.currentRevision, hash⟩) .state
      if result = .notProven then
        review journal.id destinationReason (.fail .alreadyExists)
      else pure .superseded

def markCommittedIf (journal : JournalRow StoredPayload) (hash : Option String) : Core Unit :=
  if journal.state = .prepared then
    demand (.markFileCommitted journal.id hash) .state
  else pure ()

def ensureBlobFor (env : Env) (payload : CorePayload) : Core Unit :=
  if payload.contentHash.isSome ∧ payload.operation ≠ .delete then
    ensureHistoryBlob payload.path payload.contentHash (env.policy.isReserved payload.path)
  else pure ()

/-- The new state is on disk: finish the metadata. -/
def finalize (env : Env) (journal : JournalRow StoredPayload) (payload : CorePayload) :
    Core RecoveryOutcome := do
  removeLeftover journal.tempPath
  markCommittedIf journal payload.contentHash
  ensureBlobFor env payload
  let result ← attempt (commitPayload payload)
  match result with
  | .ok _ => pure .finalized
  | .error (.state (.invalidInput _)) =>
    review journal.id "recovery metadata commit was not provable" (pure .needsReview)
  | .error .alreadyExists => adjudicate env journal payload.path
  | .error e => .fail e

/-- Rolled back, finished, or left for review. -/
def recoverOne (env : Env) (journal : JournalRow StoredPayload) : Core RecoveryOutcome := do
  let payload ← orFail .needsReview journal.payload
  let old ← recoveryState env journal payload false
  let new ← recoveryState env journal payload true
  if old && !new then do
    removeLeftover journal.tempPath
    demand (.markRolledBack journal.id "recovered before canonical commit") .state
    pure .rolledBack
  else if new then finalize env journal payload
  else review journal.id "canonical old/new state is ambiguous" (pure .needsReview)

/-- Every open row of the Vault, in order. -/
def recoverAll (env : Env) (report : RecoveryReport) :
    List (JournalRow StoredPayload) → Core RecoveryReport
  | [] => pure report
  | journal :: rest => do
    let outcome ← recoverOne env journal
    recoverAll env (report.count outcome) rest

def recoverInner (env : Env) : Core RecoveryReport := do
  let journals ← perform .listIncomplete
  recoverAll env ⟨0, 0, 0, 0⟩ journals

/-! ## What the questions find -/

section Questions

variable {env : Env} {v : World} {done : List Milestone} {path : VaultPath}
  {hash : Option String} {bytes : Bytes}

theorem pathMatches_file (hash : Option String) (hbytes : v.tree.bytes path = some bytes) :
    Reads (traced env)
      (fun r => r = .ok (hash.all fun h => decide (env.hasher.digest bytes = stripSha256 h)))
      (pathMatches env path hash) (done, v) := by
  obtain ⟨identity, hnode⟩ := Tree.bytes_eq_some.mp hbytes
  have hstat : stat env.policy env.times v.tree path (env.policy.isReserved path) =
      .ok (fileMetadata env.times v.tree path ⟨.file bytes, identity⟩) :=
    stat_ok.mpr ⟨rfl, _, hnode, rfl⟩
  refine sat_call (by rw [exec, hstat]) rfl ?_
  cases hash with
  | none => exact reads_pure rfl
  | some hash =>
    refine sat_granted
      (by rw [exec, openRead_ok.mpr ⟨rfl, hbytes⟩]; rfl) rfl ?_
    by_cases hsame : env.hasher.digest bytes = stripSha256 hash
    · rw [if_pos hsame]
      refine sat_granted (by rw [exec, hstat]) rfl (reads_pure ?_)
      simp [fileMetadata, hsame]
    · rw [if_neg hsame]
      exact reads_pure (by simp [hsame])

theorem pathMatches_absent (hash : Option String) (hnone : v.tree.node path = none)
    (hclear : ¬ Blocked v.tree path.dropLast) :
    Reads (traced env) (fun r => r = .ok false) (pathMatches env path hash) (done, v) := by
  have hstat : stat env.policy env.times v.tree path (env.policy.isReserved path) = _ ∨
      stat env.policy env.times v.tree path (env.policy.isReserved path) = _ :=
    stat_absent rfl hnone hclear
  rcases hstat with hstat | hstat
  · refine sat_call (by rw [exec, hstat]) rfl ?_
    exact reads_pure rfl
  · refine sat_call (by rw [exec, hstat]) rfl ?_
    exact reads_pure rfl

/-- The way to what exists is not blocked. -/
theorem not_blocked_of_isDir {t : Tree} (h : t.isDir path) : ¬ Blocked t path := by
  rintro ⟨q, hq, _, hfile⟩
  by_cases hqp : q = path
  · rw [hqp, h] at hfile
    cases hfile
  · rw [Tree.isDir_of_prefix (Tree.isDir_node h) hq hqp] at hfile
    cases hfile

end Questions

/-! ## The three ways a row ends -/

section Ends

variable {env : Env} {v : World} {done : List Milestone}
  {row : JournalRow StoredPayload} {payload : CorePayload}

/-- The temporary name of a row can be removed. -/
def Removable (t : Tree) (temp : Option VaultPath) : Prop :=
  ∀ p ∈ temp, parseTemporary p = .ok p ∧ t.isDir p.dropLast ∧ t.isDir p = false

/-- Nothing but the temporary name has changed. -/
def Swept (temp : Option VaultPath) (t t' : Tree) : Prop :=
  ∀ q, q ∉ temp → t'.node q = t.node q

theorem removeLeftover_sat {α : Type} {Q : Except VaultError α → List Milestone × World → Prop}
    {temp : Option VaultPath} {f : Unit → Core α} (h : Removable v.tree temp)
    (hf : ∀ tree tick, Swept temp v.tree tree →
      Sat (traced env) (fun _ => True) Q (f ()) (done, { v with tree, tick })) :
    Sat (traced env) (fun _ => True) Q (removeLeftover temp >>= f) (done, v) := by
  cases temp with
  | none => exact hf v.tree v.tick fun _ _ => rfl
  | some p =>
    obtain ⟨hparse, hparent, hfile⟩ := h p rfl
    have hroot : p ≠ [] := by
      rintro rfl
      rw [Tree.isDir, v.tree.root] at hfile
      cases hfile
    obtain ⟨tree, hremove, hswept⟩ : ∃ tree, removeTemporary v.tree p = .ok tree ∧
        Swept (some p) v.tree tree := by
      rw [removeTemporary, (openParent_root hroot).mpr hparent]
      cases hn : v.tree.node p with
      | none => exact ⟨v.tree, by simp [bind, Except.bind], fun _ _ => rfl⟩
      | some n =>
        obtain ⟨content, identity⟩ := n
        cases content with
        | file bytes =>
          refine ⟨cleanupTemp v.tree p, by simp [bind, Except.bind], fun q hq => ?_⟩
          exact (cleanupTemp_frame v.tree p).1 q fun h => hq (by simp [h])
        | directory => simp [Tree.isDir, isDirectory, hn, Node.kind] at hfile
    rw [removeLeftover, hparse]
    refine sat_granted (b := ()) (v := { v with tree, tick := v.tick + 1 })
      (by simp only [exec, World.changed, hremove]) trivial ?_
    exact hf tree (v.tick + 1) hswept

/-- The answers to the two questions about a row. -/
def Judged (env : Env) (v : World) (row : JournalRow StoredPayload) (payload : CorePayload)
    (old new : Bool) : Prop :=
  ∀ done, Reads (traced env) (fun r => r = .ok old) (recoveryState env row payload false)
      (done, v) ∧
    Reads (traced env) (fun r => r = .ok new) (recoveryState env row payload true) (done, v)

section

variable (hpayload : row.payload = some payload) (hrow : row ∈ v.db.journal.rows)
  (hvault : row.vaultId = env.context.id)
  (hopen : row.state = .prepared ∨ row.state = .fileCommitted)

include hpayload hrow hvault hopen

/-- Only the old state is there: the row is rolled back. -/
theorem recoverOne_rollsBack (hjudged : Judged env v row payload true false)
    (htemp : Removable v.tree row.tempPath) :
    Sat (traced env) (fun _ => True)
      (fun r t => r = .ok .rolledBack ∧ Swept row.tempPath v.tree t.2.tree ∧
        ∃ reason now, markRolledBack v.db env.context.id row.id reason now = .ok t.2.db)
      (recoverOne env row) (done, v) := by
  rw [recoverOne, hpayload]
  refine (hjudged done).1.bind trivial (fun old hold => ?_) nofun
  cases hold
  refine (hjudged done).2.bind trivial (fun new hnew => ?_) nofun
  cases hnew
  refine removeLeftover_sat htemp fun tree tick hswept => ?_
  obtain ⟨db, hdb⟩ : ∃ db, markRolledBack v.db env.context.id row.id
      (some "recovered before canonical commit") (env.clock tick) = .ok db :=
    updateJournal_hits hrow hvault rfl (by simpa using hopen) fun _ => ⟨rfl, rfl, rfl⟩
  refine sat_granted (b := ()) (v := { v with tree, db, tick := tick + 1 })
    (by simp only [exec, World.stored, hdb]) trivial ?_
  exact sat_ret trivial ⟨rfl, hswept, _, _, hdb⟩

/-- Neither state is there: the row is left for review. -/
theorem recoverOne_reviews (hjudged : Judged env v row payload false false) :
    Sat (traced env) (fun _ => True)
      (fun r t => r = .ok .needsReview ∧ t.2.tree = v.tree ∧
        ∃ reason now, markNeedsReview v.db env.context.id row.id reason now = .ok t.2.db)
      (recoverOne env row) (done, v) := by
  rw [recoverOne, hpayload]
  refine (hjudged done).1.bind trivial (fun old hold => ?_) nofun
  cases hold
  refine (hjudged done).2.bind trivial (fun new hnew => ?_) nofun
  cases hnew
  obtain ⟨db, hdb⟩ : ∃ db, markNeedsReview v.db env.context.id row.id
      "canonical old/new state is ambiguous" (env.clock v.tick) = .ok db :=
    updateJournal_hits hrow hvault rfl (by simpa using hopen) fun _ => ⟨rfl, rfl, rfl⟩
  refine sat_granted (b := ()) (v := { v with db, tick := v.tick + 1 })
    (by simp only [exec, World.stored, hdb]) trivial ?_
  exact sat_ret trivial ⟨rfl, rfl, _, _, hdb⟩

end

/-- The row says that the file is in place. -/
def MarkedCommitted (vaultId : VaultId) (row : JournalRow StoredPayload)
    (hash : Option String) (db db' : Store StoredPayload) : Prop :=
  row.state = .fileCommitted ∧ db' = db ∨
    row.state = .prepared ∧ ∃ now, markFileCommitted db vaultId row.id hash now = .ok db'

theorem markCommittedIf_sat {α : Type} {Q : Except VaultError α → List Milestone × World → Prop}
    {hash : Option String} {f : Unit → Core α} (hrow : row ∈ v.db.journal.rows)
    (hvault : row.vaultId = env.context.id)
    (hopen : row.state = .prepared ∨ row.state = .fileCommitted)
    (hf : ∀ db tick, MarkedCommitted env.context.id row hash v.db db →
      Sat (traced env) (fun _ => True) Q (f ()) (done, { v with db, tick })) :
    Sat (traced env) (fun _ => True) Q (markCommittedIf row hash >>= f) (done, v) := by
  unfold markCommittedIf
  rcases hopen with hstate | hstate
  · rw [if_pos hstate]
    obtain ⟨db, hdb⟩ : ∃ db, markFileCommitted v.db env.context.id row.id hash
        (env.clock v.tick) = .ok db :=
      updateJournal_hits hrow hvault rfl (by simp [hstate]) fun _ => ⟨rfl, rfl, rfl⟩
    refine sat_granted (b := ()) (v := { v with db, tick := v.tick + 1 })
      (by simp only [exec, World.stored, hdb]) trivial ?_
    exact hf db (v.tick + 1) (.inr ⟨hstate, _, hdb⟩)
  · rw [if_neg (by rw [hstate]; exact fun h => by cases h)]
    exact hf v.db v.tick (.inl ⟨hstate, rfl⟩)

/-- The blob of the new content can be kept. -/
def Keepable (env : Env) (t : Tree) (payload : CorePayload) : Prop :=
  payload.operation = .delete ∨
    Hashed env t payload.path payload.contentHash (env.policy.isReserved payload.path)

theorem ensureBlobFor_sat {α : Type} {Q : Except VaultError α → List Milestone × World → Prop}
    {f : Unit → Core α} (h : Keepable env v.tree payload)
    (hf : ∀ H, Sat (traced env) (fun _ => True) Q (f ()) (done, { v with history := H })) :
    Sat (traced env) (fun _ => True) Q (ensureBlobFor env payload >>= f) (done, v) := by
  unfold ensureBlobFor
  by_cases hblob : payload.contentHash.isSome ∧ payload.operation ≠ .delete
  · rw [if_pos hblob]
    have hhashed := h.resolve_left hblob.2
    refine sat_bind (R := fun r s => r = .ok () ∧ ∃ H, s = (done, { v with history := H }))
      (ensureHistoryBlob_sat _ _ _ (fun _ => trivial) (fun H => ⟨rfl, H, rfl⟩)
        fun e H hno => absurd hhashed hno) ?_ ?_
    · rintro _ _ ⟨_, H, rfl⟩ _
      exact hf H
    · rintro x _ ⟨hx, _⟩
      cases hx
  · rw [if_neg hblob]
    exact hf v.history

/-- The new state is there: the metadata is committed. -/
theorem recoverOne_finalizes {old : Bool} (hpayload : row.payload = some payload)
    (hjudged : Judged env v row payload old true) (htemp : Removable v.tree row.tempPath)
    (hrow : row ∈ v.db.journal.rows) (hvault : row.vaultId = env.context.id)
    (hopen : row.state = .prepared ∨ row.state = .fileCommitted)
    (hblob : ∀ tree, Swept row.tempPath v.tree tree → Keepable env tree payload)
    (hready : ∀ db now, MarkedCommitted env.context.id row payload.contentHash v.db db →
      Ready db env.context.id (payload.toCommitInput now)) :
    Sat (traced env) (fun _ => True)
      (fun r t => r = .ok .finalized ∧ Swept row.tempPath v.tree t.2.tree ∧ ∃ db now now' commit,
          MarkedCommitted env.context.id row payload.contentHash v.db db ∧
          commitMutation db env.context.id (payload.toCommitInput now) (fun _ => .ok ())
            now' = .ok (t.2.db, commit))
      (recoverOne env row) (done, v) := by
  rw [recoverOne, hpayload]
  refine (hjudged done).1.bind trivial (fun o hold => ?_) fun e he => by cases he
  refine (hjudged done).2.bind trivial (fun new hnew => ?_) fun e he => by cases he
  cases hnew
  rw [if_neg (by simp)]
  refine removeLeftover_sat htemp fun tree tick hswept => ?_
  refine markCommittedIf_sat hrow hvault hopen
    fun db tick' hmarked => ?_
  refine ensureBlobFor_sat
    (hblob tree hswept) fun H => ?_
  obtain ⟨db', commit, hcommit⟩ := commit_ready (env.clock (tick' + 1))
    (hready db (env.clock tick') hmarked)
  refine sat_bind (R := fun r s => (∃ result, r = .ok (.ok result)) ∧
      Swept row.tempPath v.tree s.2.tree ∧ s.2.db = db') (sat_attempt ?_) ?_ ?_
  · refine sat_granted (b := commit) (v := { v with
        tree, db := db', tick := tick' + 2, history := H })
      (by simp only [exec, hcommit]) trivial ?_
    exact sat_ret trivial ⟨⟨_, rfl⟩, hswept, rfl⟩
  · rintro _ s ⟨⟨result, hr⟩, hswept', hdb⟩ _
    cases hr
    exact sat_ret trivial ⟨rfl, hswept', db, _, _, commit, hmarked, hdb ▸ hcommit⟩
  · rintro x s ⟨⟨result, hr⟩, _⟩
    cases hr

end Ends

/-! ## What the disk says of a content write -/

section Judging

variable {env : Env} {v : World} {row : JournalRow StoredPayload} {payload : CorePayload}
  {path : VaultPath} {bytes : Bytes}

/-- A digest is its own address. -/
theorem stripSha256_digest (env : Env) (bytes : Bytes) :
    stripSha256 (env.hasher.digest bytes) = env.hasher.digest bytes :=
  stripSha256_of_fromHex (env.hasher.canonical bytes)

variable (hmove : payload.operation ≠ .move) (hdelete : isDelete payload = false)
  (hpath : row.destinationPath = some path)

include hmove hdelete hpath

theorem judged_file (hbytes : v.tree.bytes path = some bytes) : Judged env v row payload
      (match row.priorHash with
        | some h => decide (env.hasher.digest bytes = stripSha256 h)
        | none => !(payload.contentHash.all fun h =>
          decide (env.hasher.digest bytes = stripSha256 h)))
      (payload.contentHash.all fun h => decide (env.hasher.digest bytes = stripSha256 h)) := by
  intro done
  constructor
  · rw [recoveryState, if_neg hmove, hpath]
    refine (pathMatches_file payload.contentHash hbytes).bind rfl (fun found hfound => ?_)
      nofun
    cases hfound
    rw [hdelete]
    cases row.priorHash with
    | some prior => exact (pathMatches_file (some prior) hbytes).mono fun r hr => hr
    | none => exact reads_pure rfl
  · rw [recoveryState, if_neg hmove, hpath]
    refine (pathMatches_file payload.contentHash hbytes).bind rfl (fun found hfound => ?_)
      nofun
    cases hfound
    rw [hdelete]
    exact reads_pure rfl

theorem judged_absent (hnone : v.tree.node path = none) (hclear : ¬ Blocked v.tree path.dropLast) :
    Judged env v row payload row.priorHash.isNone false := by
  intro done
  constructor
  · rw [recoveryState, if_neg hmove, hpath]
    refine (pathMatches_absent payload.contentHash hnone hclear).bind rfl
      (fun found hfound => ?_) nofun
    cases hfound
    rw [hdelete]
    cases row.priorHash with
    | some prior => exact pathMatches_absent (some prior) hnone hclear
    | none => exact reads_pure rfl
  · rw [recoveryState, if_neg hmove, hpath]
    refine (pathMatches_absent payload.contentHash hnone hclear).bind rfl
      (fun found hfound => ?_) nofun
    cases hfound
    rw [hdelete]
    exact reads_pure rfl

end Judging

/-! ## The whole recovery -/

section Whole

variable {env : Env} {v : World} {done : List Milestone} {row : JournalRow StoredPayload}
  {P : World → Prop}

/-- Without open rows nothing happens. -/
theorem recoverInner_none (h : listIncomplete v.db env.context.id = []) (hP : P v) :
    Sat (traced env) (fun _ => True) (fun r t => (∃ report, r = .ok report) ∧ P t.2)
      (recoverInner env) (done, v) := by
  refine sat_call (by rw [exec, h]) trivial ?_
  exact sat_ret trivial ⟨⟨_, rfl⟩, hP⟩

theorem recoverInner_one (h : listIncomplete v.db env.context.id = [row])
    (hone : Sat (traced env) (fun _ => True)
      (fun r t => (∃ outcome, r = .ok outcome) ∧ P t.2) (recoverOne env row) (done, v)) :
    Sat (traced env) (fun _ => True) (fun r t => (∃ report, r = .ok report) ∧ P t.2)
      (recoverInner env) (done, v) := by
  refine sat_call (by rw [exec, h]) trivial ?_
  refine sat_bind hone ?_ ?_
  · rintro outcome t ⟨_, hP⟩ _
    exact sat_ret trivial ⟨⟨_, rfl⟩, hP⟩
  · rintro x t ⟨⟨_, h⟩, _⟩
    cases h

section

variable {db db' : Store StoredPayload}
  (h : ∀ r ∈ db.journal.rows, r.vaultId = env.context.id →
    r.state ≠ .prepared ∧ r.state ≠ .fileCommitted)

include h

theorem filter_settled : db.journal.rows.filter (fun r => decide (r.vaultId = env.context.id ∧
    (r.state = .prepared ∨ r.state = .fileCommitted))) = [] := by
  refine filter_eq_nil_iff.mpr fun r hr hopen => ?_
  obtain ⟨hv, hstate⟩ := of_decide_eq_true hopen
  exact hstate.elim (h r hr hv).1 (h r hr hv).2

theorem listIncomplete_settled : listIncomplete db env.context.id = [] := by
  rw [listIncomplete, filter_settled h]
  rfl

/-- One task's open rows, and no others. -/
theorem listIncomplete_one (intact : Intact db db' [row]) (hvault : row.vaultId = env.context.id) :
    listIncomplete db' env.context.id =
      if row.state = .prepared ∨ row.state = .fileCommitted then [row] else [] := by
  rw [listIncomplete, intact.2, filter_append, filter_settled h]
  by_cases hopen : row.state = .prepared ∨ row.state = .fileCommitted
  · simp [hvault, hopen]
  · simp [hopen]

end

end Whole

end VaultCore
