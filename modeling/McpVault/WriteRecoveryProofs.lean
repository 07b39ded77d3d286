import McpVault.RecoveryProofs

/-! # A write, a crash, and the recovery after it

What the recovery makes of a write that was stopped depends on its stage: on the journal row, the
bytes at the path, and the hash that the row claims for the bytes it was to replace.  The row is
written before the bytes are known, and a missing hash matches any file, so that a write over an
active file is then taken for finished. -/

namespace VaultCore

open VaultDomain FileStore VaultStorage Program SqlTable List Option

/-- A row says of an entry what is on disk. -/
structure Faithful (env : Env) (t : Tree) (file : FileRow) : Prop where
  bytes : file.entryType = .file → ∃ bytes, t.bytes file.path = some bytes ∧
    file.contentHash = some (env.hasher.digest bytes) ∧ file.size = bytes.length
  directory : file.entryType = .directory → t.isDir file.path ∧ file.contentHash = none

/-- Nothing is open; rows describe the disk. -/
structure Consistent (env : Env) (w : World) : Prop where
  vault : env.context.id ∈ w.db.vaults
  settled : ∀ row ∈ w.db.journal.rows, row.vaultId = env.context.id →
    row.state ≠ .prepared ∧ row.state ≠ .fileCommitted
  faithful : ∀ file ∈ w.db.entries.rows, file.vaultId = env.context.id →
    file.isActive → Faithful env w.tree file
  room : ∀ file ∈ w.db.entries.rows, file.vaultId = env.context.id →
    file.currentRevision + 1 < 2 ^ 63
  sizes : ∀ file ∈ w.db.entries.rows, file.vaultId = env.context.id → file.size < 2 ^ 63
  numbered : ∀ r ∈ w.db.revisions.rows, r.vaultId = env.context.id →
    ∃ file ∈ w.db.entries.rows, file.vaultId = env.context.id ∧ file.id = r.fileId ∧
      r.revision ≤ file.currentRevision
  keyed : ∀ r ∈ w.db.revisions.rows, r.vaultId = env.context.id →
    ∀ key ∈ r.idempotencyKey, ∃ row ∈ w.db.journal.rows,
      row.vaultId = env.context.id ∧ row.idempotencyKey = some key
  ids : ∀ file ∈ w.db.entries.rows, file.id < w.fresh
  archive : ∀ file ∈ w.db.entries.rows, ∀ other ∈ w.db.entries.rows,
    other.vaultId = env.context.id → other.path = tombstoneArchivePath env file.id →
    other.id = file.id
  temps : ∀ p n, w.fresh ≤ n → w.tree.node (p ++ [temporaryStem ++ toString n]) = none

/-- Future temporary names are not in the path. -/
def Nameable (w : World) (path : VaultPath) : Prop :=
  ∀ n, w.fresh ≤ n → temporaryStem ++ toString n ∉ path

/-- The shape of the mutations that the requests come to. -/
structure Mutation.Formed (m : Mutation) : Prop where
  operation : m.operation ∈ [.create, .replace, .patch, .append, .copy, .restore]
  claims : m.requireAbsent ↔ m.operation ∈ [.create, .copy]
  expects : m.expectedRevision = none ↔ m.operation ∈ [.create, .copy]

variable {m : Mutation} {w : World}

theorem editedMutation_eq {path : VaultPath} {expected : Revision}
    {edit : List Char → Except String (List Char)}
    (h : editedMutation w path expected edit = some m) :
    ∃ bytes, m = ⟨path, .patch, some expected, false, false, byteReader bytes⟩ := by
  simp only [editedMutation, bind_eq_bind, bind_eq_some_iff] at h
  obtain ⟨bytes, _, text, _, edited, _, h⟩ := h
  cases h
  exact ⟨_, rfl⟩

/-! ## The commit of a write is ready -/

theorem validateEvent_for {eventType : String} (fileId : FileId) (h : eventType.isEmpty = false) :
    ∀ event ∈ eventFor eventType fileId, validateEvent event = .ok () := by
  intro event hevent
  rw [eventFor, mem_singleton] at hevent
  rw [hevent, validateEvent, require]
  simp [h]

theorem eventTypeFor_nonempty (operation : FileOperation) :
    (eventTypeFor operation).isEmpty = false := by
  cases operation <;> rfl

section Ready

variable {env : Env} {w : World} {m : Mutation} {caller : Caller} {staged : Bool}
  {k : Ticket} {db : Store StoredPayload} {row : JournalRow StoredPayload}

/-- It commits what a payload intends. -/
structure Intends (i : CommitMutationInput) (p : CorePayload) : Prop where
  operationId : i.operationId = p.operationId
  fileId : i.fileId = p.fileId
  path : i.path = p.path
  expectedRevision : i.expectedRevision = p.expectedRevision
  requireAbsent : i.requireAbsent = p.requireAbsent
  tombstoneArchivePath : i.tombstoneArchivePath = p.tombstoneArchivePath
  operation : i.operation = p.operation
  idempotencyKey : i.idempotencyKey = p.idempotencyKey
  outboxEvents : i.outboxEvents = p.outboxEvents

theorem intends_toCommitInput (p : CorePayload) (now : Int) : Intends (p.toCommitInput now) p :=
  ⟨rfl, rfl, rfl, rfl, rfl, rfl, rfl, rfl, rfl⟩

variable {i : CommitMutationInput}

/-- The commit asks what the checks asked. -/
theorem checkRevision_checked {t : Tree} {target : Option FileRow} (formed : m.Formed)
    (checked : Checked env t m target) (hoperation : i.operation = m.operation)
    (hexpected : i.expectedRevision = m.expectedRevision) : checkRevision i target = .ok () := by
  unfold checkRevision
  rw [hexpected]
  cases hm : m.expectedRevision with
  | none =>
    cases target with
    | none => rfl
    | some c =>
      have hclaims := formed.claims.mpr (formed.expects.mp hm)
      simp [checked.absent hclaims c rfl, pure, Except.pure]
  | some expected =>
    have hop : m.operation ∉ [.create, .copy] := fun h => by
      rw [formed.expects.mpr h] at hm
      cases hm
    cases target with
    | none => exact absurd (checked.known.resolve_left hop) Bool.false_ne_true
    | some c =>
      have hrevision := checked.revision c rfl expected hm
      have hlive : ¬ (c.isActive = false ∧ i.operation ≠ .restore) := by
        rintro ⟨hdead, hrestore⟩
        obtain ⟨hreads, _⟩ := checked.free fun file hfile => by
          cases hfile
          exact hdead
        rw [hoperation] at hrestore
        have hreads := of_decide_eq_true hreads
        simp only [mem_cons] at hreads hop
        tauto
      simp only
      rw [if_neg hlive, if_neg (not_not.mpr hrevision)]
      rfl

/-- The row of the file a ticket is for. -/
theorem ticket_file (hw : Consistent env w)
    (ticket : WriteTicket env w m caller staged k) (intact : Intact w.db db [row]) :
    db.getById env.context.id k.payload.fileId = w.db.getAny env.context.id m.path ∧
      (w.db.getAny env.context.id m.path = none →
        ∀ e ∈ w.db.entries.rows, e.id ≠ k.payload.fileId) := by
  obtain ⟨⟨journal, rfl⟩, _⟩ := intact
  have hnew : w.db.getAny env.context.id m.path = none →
      ∀ e ∈ w.db.entries.rows, e.id ≠ k.payload.fileId := by
    intro hnone e he hid
    have hlt := hw.ids e he
    rw [hid] at hlt
    exact absurd (ticket.file.2 hnone) (Nat.not_le.mpr hlt)
  refine ⟨?_, hnew⟩
  cases htarget : w.db.getAny env.context.id m.path with
  | none =>
    show w.db.getById env.context.id k.payload.fileId = none
    cases hfound : w.db.getById env.context.id k.payload.fileId with
    | none => rfl
    | some c =>
      obtain ⟨hc, _, hid⟩ := getById_spec hfound
      exact absurd hid (hnew htarget c hc)
  | some file =>
    obtain ⟨hfile, hvault, _⟩ := getAny_iff.mp htarget
    exact getById_iff.mpr ⟨hfile, hvault, (ticket.file.1 file htarget).symm⟩

/-- Once the file is in place a write can be committed. -/
theorem content_ready (hw : Consistent env w) (formed : m.Formed)
    (ticket : WriteTicket env w m caller staged k) (intact : Intact w.db db [row])
    {payload : CorePayload} (tracks : Tracks k.input env.context.id .fileCommitted payload row)
    (intends : Intends i k.payload) (hsize : i.size < 2 ^ 63) : Ready db env.context.id i := by
  obtain ⟨hcurrent, hnew⟩ := ticket_file hw ticket intact
  obtain ⟨operationId, fileId, modified, action, hcontent⟩ := ticket.payload
  have hid : row.id = k.payload.operationId := tracks.id
  have hkey : row.idempotencyKey = k.payload.idempotencyKey := tracks.idempotencyKey
  have hoperation : i.operation = m.operation := by rw [intends.operation, hcontent]; rfl
  have hexpected : i.expectedRevision = m.expectedRevision := by
    rw [intends.expectedRevision, hcontent]; rfl
  have hpath : i.path = m.path := intends.path.trans ticket.path
  have hstays : i.tombstoneArchivePath = none := by
    rw [intends.tombstoneArchivePath, hcontent]; rfl
  rw [← intends.fileId] at hcurrent hnew
  obtain ⟨⟨journal, rfl⟩, hrows⟩ := intact
  refine ⟨⟨hw.vault, hsize, ?_, ?_, ?_, ?_, ?_, ?_, ?_⟩, ?_⟩
  · rw [intends.outboxEvents, hcontent]
    exact validateEvent_for _ (eventTypeFor_nonempty _)
  · intro c hc
    obtain ⟨hmem, hvault, _⟩ := getById_spec hc
    exact hw.room c hmem hvault
  · rw [hcurrent]
    exact checkRevision_checked formed ticket.checked hoperation hexpected
  · intro hnone
    rw [hcurrent] at hnone
    refine ⟨fun hmove => ?_, hnew hnone⟩
    have hop := formed.operation
    rw [← hoperation, hmove] at hop
    simp at hop
  · cases htarget : w.db.getAny env.context.id m.path with
    | none =>
      rw [← hpath] at htarget
      exact .free htarget hstays
    | some file =>
      have hsame := (ticket.file.1 file htarget).symm.trans intends.fileId.symm
      rw [← hpath] at htarget
      exact .own htarget hsame hstays
  · intro r hr hvault hfile
    obtain ⟨file, hmem, hv, hid, hle⟩ := hw.numbered r hr hvault
    have hfound : w.db.getById env.context.id i.fileId = some file :=
      getById_iff.mpr ⟨hmem, hv, hid.trans hfile⟩
    rw [hcurrent, hcurrent.symm.trans hfound]
    exact hle
  · intro key hkeyed r hr hvault hrkey
    obtain ⟨old, hold, hv, holdkey⟩ := hw.keyed r hr hvault key hrkey
    have hunique := journal.ok.2
    rw [show journal.rows = _ from hrows] at hunique
    refine hunique.fresh_of_append (mem_singleton_self row)
      (k := (env.context.id, key)) ?_ old hold ?_
    · rw [hkey, ← intends.idempotencyKey, show i.idempotencyKey = some key from hkeyed,
        tracks.vaultId]
      rfl
    · rw [holdkey, hv]
      rfl
  · refine ⟨row, ?_, tracks.vaultId, hid.trans intends.operationId.symm, tracks.state⟩
    rw [show journal.rows = _ from hrows]
    exact mem_append_right _ (mem_singleton_self row)

end Ready

/-! ## What the recovery makes of each stage -/

/-- Nothing is left of the write but closed journal rows. -/
def KeptAs (w : World) (path : VaultPath) (state : JournalState) (t : World) : Prop :=
  ∃ rows, Intact w.db t.db rows ∧ (∀ r ∈ rows, r.state = state) ∧
    t.tree.bytes path = w.tree.bytes path

/-- Committed with that hash, over those bytes. -/
def CommittedAs (env : Env) (w : World) (m : Mutation) (caller : Caller) (staged : Bool)
    (hash : Option String) (size : Nat) (bytes : Option Bytes) (t : World) : Prop :=
  ∃ k row db payload i now commit, WriteTicket env w m caller staged k ∧
    Intact w.db db [row] ∧ Tracks k.input env.context.id .fileCommitted payload row ∧
    Intends i k.payload ∧ i.contentHash = hash ∧ i.size = size ∧ i.deletedAt = none ∧
    commitMutation db env.context.id i (fun _ => .ok ()) now = .ok (t.db, commit) ∧
    t.tree.bytes m.path = bytes

section Stages

variable {env : Env} {w v : World} {m : Mutation} {caller : Caller} {staged : Bool}
  {k : Ticket} {row : JournalRow StoredPayload} {done : List Milestone}
  {payload : CorePayload}
  {file : FileRow} {t t' : Tree} {path temp : VaultPath}

theorem Paved.bytes {p : VaultPath} (h : Paved p t t') (q : VaultPath) :
    t'.bytes q = t.bytes q := by
  rcases h q with h | ⟨hnone, hdir, _⟩
  · rw [Tree.bytes, h, Tree.bytes]
  · rw [Tree.bytes_of_isDir hdir, Tree.bytes, hnone]

/-- The temporary name is not the path itself. -/
theorem WriteTicket.temp_ne (ticket : WriteTicket env w m caller staged k)
    (hname : Nameable w m.path) : k.temp ≠ m.path := by
  obtain ⟨n, hn, htemp⟩ := ticket.temp
  intro h
  refine hname n hn ?_
  rw [← h, htemp]
  simp

theorem Staging.bytes (h : Staging t path temp t') (hne : temp ≠ path) :
    t'.bytes path = t.bytes path := by
  obtain ⟨paved, hpaved, _, hsame, _⟩ := h
  rw [← hpaved.bytes, Tree.bytes, hsame path hne.symm, Tree.bytes]

theorem Swept.bytes {temp : Option VaultPath} (h : Swept temp t t') (hne : path ∉ temp) :
    t'.bytes path = t.bytes path := by
  rw [Tree.bytes, h path hne, Tree.bytes]

/-- The leftover of a write can be removed. -/
theorem WriteTicket.removable (hw : Consistent env w) (ticket : WriteTicket env w m caller staged k)
    (hdir : t.isDir m.path.dropLast)
    (hkind : t.isDir k.temp → w.tree.isDir k.temp) : Removable t (some k.temp) := by
  obtain ⟨n, hn, htemp⟩ := ticket.temp
  intro p hp
  cases hp
  refine ⟨?_, ?_, ?_⟩
  · have hstem : temporaryStem.toList.isPrefixOf
        (temporaryStem ++ toString n).toList := by
      rw [String.toList_append]
      exact isPrefixOf_iff_prefix.mpr (prefix_append _ _)
    rw [parseTemporary, htemp, List.getLast?_concat]
    simp only [hstem, if_true]
  · rw [htemp, dropLast_concat]
    exact hdir
  · rw [← Bool.not_eq_true]
    intro h
    refine Tree.isDir_node (hkind h) ?_
    rw [htemp]
    exact hw.temps _ n hn

theorem beside_ne {name : String} (h : temp = path.dropLast ++ [name]) : path.dropLast ≠ temp := by
  intro heq
  have hlen := congrArg List.length (heq.trans h)
  simp at hlen

theorem Staging.dir (h : Staging t path temp t') (hne : path.dropLast ≠ temp) :
    t'.isDir path.dropLast := by
  obtain ⟨paved, _, hdir, hsame, _⟩ := h
  rw [Tree.isDir, hsame _ hne]
  exact hdir

theorem Installed.dir {bytes : Bytes} (h : Installed t path temp bytes t')
    (hne : path.dropLast ≠ temp) (hroot : path ≠ []) : t'.isDir path.dropLast := by
  obtain ⟨paved, _, hdir, hsame, _⟩ := h
  rw [Tree.isDir, hsame _ hne (dropLast_ne hroot)]
  exact hdir

/-- The row's operation is that of the mutation. -/
theorem formed_operation (formed : m.Formed) (hop : payload.operation = m.operation) :
    payload.operation ≠ .move ∧ isDelete payload = false := by
  have h := formed.operation
  rw [← hop] at h
  simp only [mem_cons, not_mem_nil, or_false] at h
  rcases h with h | h | h | h | h | h <;> simp [isDelete, h]

/-- The row knows the hash of the target's bytes. -/
theorem WriteTicket.replaced (hw : Consistent env w) (ticket : WriteTicket env w m caller staged k)
    (hfile : w.db.getAny env.context.id m.path = some file) (hactive : file.isActive) :
    ∃ old, w.tree.bytes m.path = some old ∧ k.priorHash = some (env.hasher.digest old) := by
  obtain ⟨hmem, hvault, hpath⟩ := getAny_iff.mp hfile
  obtain ⟨old, hold, hhash, _⟩ := (hw.faithful file hmem hvault hactive).bytes
    (ticket.checked.active file hfile hactive).2
  rw [hpath] at hold
  refine ⟨old, hold, ?_⟩
  rw [ticket.prior, priorHashOf, hfile]
  cases staged with
  | true => simp [Option.filter, hactive, hhash]
  | false => simp [hhash]

section Open

variable {state : JournalState} (hw : Consistent env w)
  (ticket : WriteTicket env w m caller staged k) (hname : Nameable w m.path)
  (intact : Intact w.db v.db [row]) (tracks : Tracks k.input env.context.id state payload row)
  (hopen : state = .prepared ∨ state = .fileCommitted)

include hw intact tracks hopen

/-- The row of the write is open, and no other row is. -/
theorem open_row : (row.state = .prepared ∨ row.state = .fileCommitted) ∧
    row ∈ v.db.journal.rows ∧ listIncomplete v.db env.context.id = [row] := by
  have hstate : row.state = .prepared ∨ row.state = .fileCommitted := by
    rw [tracks.state]
    exact hopen
  refine ⟨hstate, ?_, (listIncomplete_one hw.settled intact tracks.vaultId).trans (if_pos hstate)⟩
  rw [intact.2]
  exact mem_append_right _ (mem_singleton_self row)

include ticket hname

theorem recover_rollsBack (hjudged : Judged env v row payload true false)
    (hremovable : Removable v.tree (some k.temp))
    (hsame : v.tree.bytes m.path = w.tree.bytes m.path) :
    Sat (traced env) (fun _ => True)
      (fun r t => (∃ report, r = .ok report) ∧ KeptAs w m.path .rolledBack t.2)
      (recoverInner env) (done, v) := by
  obtain ⟨hstate, hrow, hlist⟩ := open_row hw intact tracks hopen
  have htemp : row.tempPath = some k.temp := tracks.tempPath
  refine recoverInner_one hlist ((recoverOne_rollsBack tracks.payload hrow tracks.vaultId
    hstate hjudged (htemp ▸ hremovable)).mono ?_)
  rintro r t _ ⟨hr, hswept, reason, now, hdb⟩
  obtain ⟨row', hintact, htracks⟩ := intact.rollBack tracks (tracks.id ▸ hdb)
  refine ⟨⟨_, hr⟩, [row'], hintact, fun q hq => ?_, ?_⟩
  · rw [mem_singleton.mp hq]
    exact htracks.state
  · rw [htemp] at hswept
    rw [hswept.bytes fun h => ticket.temp_ne hname (Option.some.inj h), hsame]

/-- What is there counts as new: it is finished. -/
theorem recover_finishes (formed : m.Formed) {old : Bool} {bytes : Bytes}
    (hjudged : Judged env v row payload old true) (hremovable : Removable v.tree (some k.temp))
    (hthere : v.tree.bytes m.path = some bytes)
    (hhash : ∀ h ∈ payload.contentHash, h = env.hasher.digest bytes)
    (hintends : ∀ now, Intends (payload.toCommitInput now) k.payload)
    (hdeleted : payload.deletedAt = none) (hsize : payload.size < 2 ^ 63) :
    Sat (traced env) (fun _ => True)
      (fun r t => (∃ report, r = .ok report) ∧ CommittedAs env w m caller staged
        payload.contentHash payload.size (some bytes) t.2)
      (recoverInner env) (done, v) := by
  obtain ⟨hstate, hrow, hlist⟩ := open_row hw intact tracks hopen
  have htemp : row.tempPath = some k.temp := tracks.tempPath
  have hkeeps : ∀ tree, Swept row.tempPath v.tree tree → tree.bytes m.path = some bytes := by
    intro tree hswept
    rw [htemp] at hswept
    rw [hswept.bytes fun h => ticket.temp_ne hname (Option.some.inj h), hthere]
  have hmarked : ∀ db, MarkedCommitted env.context.id row payload.contentHash v.db db →
      ∃ row', Intact w.db db [row'] ∧
        Tracks k.input env.context.id .fileCommitted payload row' := by
    rintro db (⟨hcommitted, rfl⟩ | ⟨_, now, hdb⟩)
    · rw [tracks.state] at hcommitted
      exact ⟨row, intact, hcommitted ▸ tracks⟩
    · exact intact.fileCommit tracks (tracks.id ▸ hdb)
  refine recoverInner_one hlist ((recoverOne_finalizes tracks.payload hjudged
    (htemp ▸ hremovable) hrow tracks.vaultId hstate ?_ ?_).mono ?_)
  · intro tree hswept
    have hp : payload.path = m.path := (hintends 0).path.trans ticket.path
    cases hsome : payload.contentHash with
    | none => exact .inr (.inl hsome)
    | some h =>
      exact .inr (.inr ⟨rfl, bytes, by rw [hp, hkeeps tree hswept], hsome ▸ hhash h hsome ▸ rfl⟩)
  · intro db now hdb
    obtain ⟨row', hintact, htracks⟩ := hmarked db hdb
    exact content_ready hw formed ticket hintact htracks (hintends now) hsize
  · rintro r t _ ⟨hr, hswept, db, now, now', commit, hdb, hcommit⟩
    obtain ⟨row', hintact, htracks⟩ := hmarked db hdb
    exact ⟨⟨_, hr⟩, k, row', db, payload, _, now', commit, ticket, hintact, htracks,
      hintends now, rfl, rfl, hdeleted, hcommit, hkeeps _ hswept⟩

end Open

variable (hw : Consistent env w) (formed : m.Formed)
  (ticket : WriteTicket env w m caller staged k) (hname : Nameable w m.path)
  (intact : Intact w.db v.db [row])
  (tracks : Tracks k.input env.context.id .prepared payload row)
  (staging : Staging w.tree m.path k.temp v.tree) (hop : payload.operation = m.operation)

include hw formed ticket hname intact tracks staging hop

/-- Without an active file: rolled back or left. -/
theorem recover_free (hdead : ∀ file ∈ w.db.getAny env.context.id m.path, file.isActive = false) :
    Sat (traced env) (fun _ => True)
      (fun r t => (∃ report, r = .ok report) ∧
        KeptAs w m.path (if k.priorHash = none then .rolledBack else .needsReview) t.2)
      (recoverInner env) (done, v) := by
  obtain ⟨n, hn, htemp⟩ := ticket.temp
  obtain ⟨hmove, hdelete⟩ := formed_operation formed hop
  have hdir := staging.dir (beside_ne htemp)
  have hsame := staging.bytes (ticket.temp_ne hname)
  have hnone : v.tree.node m.path = none := by
    obtain ⟨paved, hpaved, _, hsame, _⟩ := staging
    rw [hsame m.path (ticket.temp_ne hname).symm]
    have habsent := (ticket.checked.free hdead).2
    rcases hpaved m.path with h | ⟨_, _, hprefix⟩
    · rw [h, habsent]
    · have hlen := hprefix.length_le
      have := length_pos_iff.mpr ticket.nonRoot
      rw [length_dropLast] at hlen
      omega
  have hjudged : Judged env v row payload row.priorHash.isNone false :=
    judged_absent hmove hdelete (tracks.destinationPath.trans (congrArg some ticket.path)) hnone
      (not_blocked_of_isDir hdir)
  rw [show row.priorHash = k.priorHash from tracks.priorHash] at hjudged
  cases hhash : k.priorHash with
  | none =>
    rw [hhash] at hjudged
    exact recover_rollsBack hw ticket hname intact tracks (.inl rfl) hjudged
      (ticket.removable hw hdir staging.choose_spec.2.2.2) hsame
  | some prior =>
    rw [hhash] at hjudged
    obtain ⟨hstate, hrow, hlist⟩ := open_row hw intact tracks (.inl rfl)
    refine recoverInner_one hlist
      ((recoverOne_reviews tracks.payload hrow tracks.vaultId hstate hjudged).mono ?_)
    rintro r t _ ⟨hr, htree, reason, now, hdb⟩
    obtain ⟨hintact, _⟩ := intact.update_one rfl hdb
    refine ⟨⟨_, hr⟩, _, hintact, fun q hq => ?_, ?_⟩
    · rw [mem_singleton.mp hq]
      rfl
    · rw [htree, hsame]

/-- Over an active file: the hash matches or is missing. -/
theorem recover_active {old : Bytes} (hfile : w.db.getAny env.context.id m.path = some file)
    (hactive : file.isActive) (hold : w.tree.bytes m.path = some old)
    (hintends : ∀ now, Intends (payload.toCommitInput now) k.payload)
    (hdeleted : payload.deletedAt = none) (hsize : payload.size < 2 ^ 63)
    (hdigest : ∀ h ∈ payload.contentHash, ∃ bytes, h = env.hasher.digest bytes) :
    Sat (traced env) (fun _ => True)
      (fun r t => (∃ report, r = .ok report) ∧
        if (payload.contentHash.all fun h =>
            decide (env.hasher.digest old = stripSha256 h))
        then CommittedAs env w m caller staged payload.contentHash payload.size
          (some old) t.2
        else KeptAs w m.path .rolledBack t.2)
      (recoverInner env) (done, v) := by
  obtain ⟨n, hn, htemp⟩ := ticket.temp
  obtain ⟨hmove, hdelete⟩ := formed_operation formed hop
  have hremovable :=
    ticket.removable hw (staging.dir (beside_ne htemp)) staging.choose_spec.2.2.2
  have hsame := staging.bytes (ticket.temp_ne hname)
  have hprior : row.priorHash = some (env.hasher.digest old) := by
    obtain ⟨bytes, hbytes, hclaimed⟩ := ticket.replaced hw hfile hactive
    rw [hold] at hbytes
    cases hbytes
    exact (show row.priorHash = k.priorHash from tracks.priorHash).trans hclaimed
  have hjudged : Judged env v row payload _ _ := judged_file hmove hdelete
    (tracks.destinationPath.trans (congrArg some ticket.path)) (hsame.trans hold)
  rw [hprior] at hjudged
  simp only [stripSha256_digest] at hjudged
  cases hnew : payload.contentHash.all fun h =>
      decide (env.hasher.digest old = stripSha256 h) with
  | false =>
    rw [hnew] at hjudged
    exact recover_rollsBack hw ticket hname intact tracks (.inl rfl) hjudged hremovable hsame
  | true =>
    rw [hnew] at hjudged
    refine recover_finishes hw ticket hname intact tracks (.inl rfl) formed hjudged hremovable
      (hsame.trans hold) (fun h hh => ?_) hintends hdeleted hsize
    obtain ⟨bytes, rfl⟩ := hdigest h hh
    rw [show payload.contentHash = some _ from hh, all_some, stripSha256_digest] at hnew
    exact (of_decide_eq_true hnew).symm

end Stages

section Installed

variable {env : Env} {w v : World} {m : Mutation} {caller : Caller} {staged : Bool}
  {k : Ticket} {row : JournalRow StoredPayload} {done : List Milestone}

/-- The bytes are in place: the row is finished. -/
theorem recover_installed (hw : Consistent env w) (formed : m.Formed)
    (ticket : WriteTicket env w m caller staged k) (hname : Nameable w m.path)
    (intact : Intact w.db v.db [row]) {state : JournalState} {bytes : Bytes}
    {modifiedAt : Option Int} {identity : Option String}
    (hopen : state = .prepared ∨ state = .fileCommitted)
    (tracks : Tracks k.input env.context.id state
      (k.payload.finished env bytes modifiedAt identity) row)
    (installed : Installed w.tree m.path k.temp bytes v.tree) (short : bytes.length < 2 ^ 63) :
    Sat (traced env) (fun _ => True)
      (fun r t => (∃ report, r = .ok report) ∧ CommittedAs env w m caller staged
        (some (env.hasher.digest bytes)) bytes.length (some bytes) t.2)
      (recoverInner env) (done, v) := by
  obtain ⟨n, hn, htemp⟩ := ticket.temp
  obtain ⟨_, _, _, _, hcontent⟩ := ticket.payload
  have hop : (k.payload.finished env bytes modifiedAt identity).operation = m.operation := by
    show k.payload.operation = m.operation
    rw [hcontent]
    rfl
  have hdeleted : (k.payload.finished env bytes modifiedAt identity).deletedAt = none := by
    show k.payload.deletedAt = none
    rw [hcontent]
    rfl
  obtain ⟨hmove, hdelete⟩ := formed_operation formed hop
  have hthere : v.tree.bytes m.path = some bytes := installed.choose_spec.2.2.2.1
  have hremovable : Removable v.tree (some k.temp) :=
    ticket.removable hw (installed.dir (beside_ne htemp) ticket.nonRoot) fun h =>
      absurd (installed.choose_spec.2.2.2.2 (ticket.temp_ne hname)) (Tree.isDir_node h)
  have hjudged : Judged env v row _ _ _ := judged_file hmove hdelete
    (tracks.destinationPath.trans (congrArg some ticket.path)) hthere
  rw [show (k.payload.finished env bytes modifiedAt identity).contentHash =
    some (env.hasher.digest bytes) from rfl] at hjudged
  simp only [all_some, stripSha256_digest] at hjudged
  exact recover_finishes hw ticket hname intact tracks hopen formed hjudged hremovable hthere
    (fun h hh => (Option.some.inj hh).symm)
    (fun _ => ⟨rfl, rfl, rfl, rfl, rfl, rfl, rfl, rfl, rfl⟩) hdeleted short

/-- The journal after the commit of a task with one row. -/
theorem committed_journal {db db₁ db' : Store StoredPayload} {i : CommitMutationInput}
    {now : Int} {commit : MutationCommitResult} (intact : Intact db db₁ [row])
    (hvault : row.vaultId = env.context.id) (hid : row.id = i.operationId)
    (hstate : row.state = .fileCommitted)
    (h : commitMutation db₁ env.context.id i (fun _ => .ok ()) now = .ok (db', commit)) :
    db'.journal.rows = db.journal.rows ++
      [{ row with state := .metadataCommitted, updatedAt := now, error := none }] := by
  have hcommitted := commitMutation_ok h
  have hunique := db₁.journal.ok.1
  rw [intact.2] at hunique
  have hold : ∀ r ∈ db.journal.rows,
      selects env.context.id i.operationId [.fileCommitted] r = false := by
    intro r hr
    refine decide_eq_false fun hsel => ?_
    exact hunique.fresh_of_append (mem_singleton_self row) (congrArg some hid) r hr
      (congrArg some hsel.2.1)
  have hsel : selects env.context.id i.operationId [.fileCommitted] row :=
    decide_eq_true ⟨hvault, hid, mem_singleton.mpr hstate⟩
  rw [hcommitted.journal, intact.2, updateRows_append, updateRows_of_none hold]
  simp [updateRows, hsel]

/-- Active, or none, or a tombstone. -/
theorem target_cases (w : World) (m : Mutation) :
    (∃ file, w.db.getAny env.context.id m.path = some file ∧ file.isActive) ∨
      ((∀ file ∈ w.db.getAny env.context.id m.path, file.isActive = false) ∧
        (w.db.getAny env.context.id m.path).any (·.isActive) = false) := by
  cases w.db.getAny env.context.id m.path with
  | none => exact .inr ⟨nofun, rfl⟩
  | some file =>
    cases h : file.isActive with
    | true => exact .inl ⟨file, rfl, h⟩
    | false => exact .inr ⟨fun f hf => by cases hf; exact h, by simpa using h⟩

/-- What becomes of a write after its milestones. -/
def WriteOutcome (env : Env) (w : World) (m : Mutation) (caller : Caller) (staged : Bool)
    (marks : List Milestone) (t : World) : Prop :=
  let bytes := m.reader.chunks.flatten
  let target := w.db.getAny env.context.id m.path
  if (phaseOf marks).installed then
    CommittedAs env w m caller staged (some (env.hasher.digest bytes)) bytes.length
      (some bytes) t
  else if (phaseOf marks).closed || !(phaseOf marks).prepared then
    KeptAs w m.path .rolledBack t
  else if target.any (·.isActive) then
    if (phaseOf marks).described then
      ∃ old, w.tree.bytes m.path = some old ∧
        if env.hasher.digest old = env.hasher.digest bytes then
          CommittedAs env w m caller staged (some (env.hasher.digest bytes)) bytes.length
            (some old) t
        else KeptAs w m.path .rolledBack t
    -- the row has no hash yet, and what is there counts as the new content
    else CommittedAs env w m caller staged none 0 (w.tree.bytes m.path) t
  else
    KeptAs w m.path
      (if priorHashOf staged target = none then .rolledBack else .needsReview) t

/-- **THE RECOVERY OF A WRITE, STAGE BY STAGE.** -/
theorem recover_write (hw : Consistent env w) (formed : m.Formed)
    (hname : Nameable w m.path) {marks : List Milestone}
    (stage : WriteStage env w (WriteTicket env w m caller staged) m.path
      m.reader.chunks.flatten marks v.db v.tree) :
    Sat (traced env) (fun _ => True)
      (fun r t => (∃ report, r = .ok report) ∧ WriteOutcome env w m caller staged marks t.2)
      (recoverInner env) (done, v) := by
  cases stage with
  | idle phase same paved =>
    refine recoverInner_none (listIncomplete_settled (same ▸ hw.settled)) ?_
    simp only [WriteOutcome, phase]
    exact ⟨[], same ▸ intact_refl, fun _ h => (nomatch h), paved.bytes m.path⟩
  | @blank k row phase ticket intact tracks staging =>
    obtain ⟨_, _, _, _, hcontent⟩ := ticket.payload
    have hop : k.payload.operation = m.operation := by rw [hcontent]; rfl
    have hhash : k.payload.contentHash = none := by rw [hcontent]; rfl
    have hsize : k.payload.size = 0 := by rw [hcontent]; rfl
    have hdeleted : k.payload.deletedAt = none := by rw [hcontent]; rfl
    rcases target_cases w m with ⟨file, hfile, hactive⟩ | hdead
    · obtain ⟨old, hold, _⟩ := ticket.replaced hw hfile hactive
      have h : Sat (traced env) _ _ (recoverInner env) (done, v) :=
        recover_active hw formed ticket hname intact tracks staging hop hfile hactive hold
          (intends_toCommitInput k.payload) hdeleted
          (by rw [hsize]; exact Nat.two_pow_pos 63)
          (by rw [hhash]; exact nofun)
      simp only [WriteOutcome, phase, hfile, any_some, hactive, hold]
      simpa [hhash, hsize] using h
    · have h : Sat (traced env) _ _ (recoverInner env) (done, v) :=
        recover_free hw formed ticket hname intact tracks staging hop hdead.1
      rw [ticket.prior] at h
      simp only [WriteOutcome, phase, hdead.2]
      exact h
  | @described k row phase ticket intact tracks staging short =>
    obtain ⟨_, _, _, _, hcontent⟩ := ticket.payload
    have hop : k.payload.operation = m.operation := by rw [hcontent]; rfl
    have hdeleted : k.payload.deletedAt = none := by rw [hcontent]; rfl
    rcases target_cases w m with ⟨file, hfile, hactive⟩ | hdead
    · obtain ⟨old, hold, _⟩ := ticket.replaced hw hfile hactive
      have h : Sat (traced env) _ _ (recoverInner env) (done, v) :=
        recover_active hw formed ticket hname intact tracks staging hop hfile hactive hold
          (fun _ => ⟨rfl, rfl, rfl, rfl, rfl, rfl, rfl, rfl, rfl⟩) hdeleted short
          (fun h hh => ⟨_, (Option.some.inj hh).symm⟩)
      simp only [CorePayload.written, all_some, stripSha256_digest,
        decide_eq_true_eq] at h
      simp only [WriteOutcome, phase, hfile, any_some, hactive, hold]
      refine h.mono fun r t _ ⟨hr, hcases⟩ => ⟨hr, ?_⟩
      exact ⟨old, rfl, hcases⟩
    · have h : Sat (traced env) _ _ (recoverInner env) (done, v) :=
        recover_free hw formed ticket hname intact tracks staging hop hdead.1
      rw [ticket.prior] at h
      simp only [WriteOutcome, phase, hdead.2]
      exact h
  | @closed k row payload installed closed ticket intact tracks staging =>
    refine recoverInner_none
      ((listIncomplete_one hw.settled intact tracks.vaultId).trans (if_neg ?_)) ?_
    · rw [tracks.state]
      simp
    · simp only [WriteOutcome, installed, closed]
      refine ⟨[row], intact, fun q hq => ?_, staging.bytes (ticket.temp_ne hname)⟩
      rw [mem_singleton.mp hq]
      exact tracks.state
  | installed phase ticket intact hopen tracks installed short =>
    simp only [WriteOutcome, phase]
    exact recover_installed hw formed ticket hname intact hopen tracks installed short
  | @committed result phase hdone =>
    obtain ⟨k, row, db₁, modifiedAt, identity, now, now', commit, ticket, intact, tracks,
      hcommit, _, installed, short⟩ := hdone
    have hid : row.id = k.payload.operationId := tracks.id
    have hrows := committed_journal intact tracks.vaultId hid tracks.state hcommit
    obtain ⟨_, _, _, _, hcontent⟩ := ticket.payload
    refine recoverInner_none (listIncomplete_settled ?_) ?_
    · rw [hrows]
      intro r hr hvault
      rcases mem_append.mp hr with hr | hr
      · exact hw.settled r hr hvault
      · rw [mem_singleton.mp hr]
        exact ⟨nofun, nofun⟩
    · simp only [WriteOutcome, phase]
      exact ⟨k, row, db₁, _, _, now', commit, ticket, intact, tracks,
        ⟨rfl, rfl, rfl, rfl, rfl, rfl, rfl, rfl, rfl⟩, rfl, rfl,
        (show k.payload.deletedAt = none by rw [hcontent]; rfl), hcommit,
        installed.choose_spec.2.2.2.1⟩

end Installed

/-! ## Old or new -/

/-- The locks do not outlive the process. -/
def restart (w : World) : World := { w with locks := [] }

/-- What `n` calls of a request have achieved. -/
def achieved (env : Env) (caller : Caller) (request : Request) (w : World) (n : Nat) :
    List Milestone :=
  (stop (traced env) n (request.serve env caller) ([], w)).1

/-- Recovery after a request stopped at `n` calls. -/
def recovered (env : Env) (caller : Caller) (request : Request) (w : World) (n : Nat) :
    Except VaultError RecoveryReport × World :=
  run (exec env 0) (recoverInner env)
    (restart (stop (exec env 0) n (request.serve env caller) w))

/-- The path a request is to leave its content at. -/
def Request.target : Request → VaultPath
  | .create path _ _ | .replace path _ _ _ | .append path _ _ | .patch path _ _ => path
  | .insertAfterHeading path _ _ _ | .replaceHeadingSection path _ _ _ => path
  | .copy _ destination => destination
  | .restore path _ _ | .put path _ _ _ | .createDirectory path | .delete path _ _ => path
  | .move _ destination _ => destination

/-- The path has what it had. -/
def Unchanged (env : Env) (w t : World) (path : VaultPath) : Prop :=
  t.db.getActive env.context.id path = w.db.getActive env.context.id path ∧
    t.db.revisions.rows = w.db.revisions.rows ∧ t.tree.bytes path = w.tree.bytes path

/-- One more revision, and of the new bytes. -/
def Renewed (env : Env) (w t : World) (path : VaultPath) (bytes : Bytes) : Prop :=
  ∃ file record, t.db.getActive env.context.id path = some file ∧
    t.db.revisions.rows = w.db.revisions.rows ++ [record] ∧
    record.fileId = file.id ∧ record.revision = file.currentRevision ∧
    file.currentRevision = ((w.db.getAny env.context.id path).map (·.currentRevision)).getD 0 + 1 ∧
    (record.contentHash = some (env.hasher.digest bytes) ∧ record.size = some bytes.length) ∧
    (file.contentHash = some (env.hasher.digest bytes) ∧ file.size = bytes.length) ∧
    t.tree.bytes path = some bytes

/-- The old state or the new one, and not both. -/
def OldOrNew (env : Env) (request : Request) (w t : World) : Prop :=
  Xor (Unchanged env w t request.target)
    (∃ m, request.mutation env w = some m ∧ Renewed env w t request.target m.reader.chunks.flatten)

/-- The row could not tell new from old bytes. -/
def Exposed (env : Env) (request : Request) (w : World) (marks : List Milestone) : Prop :=
  ∃ m, request.mutation env w = some m ∧
    (w.db.getAny env.context.id m.path).any (·.isActive) ∧
    (phaseOf marks = ⟨true, false, false, false⟩ ∨ phaseOf marks = ⟨true, true, false, false⟩ ∧
        ∃ old, w.tree.bytes m.path = some old ∧ old ≠ m.reader.chunks.flatten ∧
          env.hasher.digest old = env.hasher.digest m.reader.chunks.flatten)

section OldOrNew

variable {env : Env} {w t : World} {caller : Caller} {request : Request} {m : Mutation}

theorem Request.mutation_formed (h : request.mutation env w = some m) :
    m.Formed ∧ m.path = request.target := by
  have hpatch : ∀ path expected bytes, Mutation.Formed
      ⟨path, .patch, some expected, false, false, byteReader bytes⟩ := fun _ _ _ =>
    ⟨by simp, by simp, by simp⟩
  cases request with
  | create path managed reader | replace path managed expected bytes =>
    cases h
    exact ⟨⟨by simp, by simp, by simp⟩, rfl⟩
  | append path expected bytes | copy source destination =>
    simp only [Request.mutation, bind_eq_bind, bind_eq_some_iff] at h
    obtain ⟨_, _, h⟩ := h
    cases h
    exact ⟨⟨by simp, by simp, by simp⟩, rfl⟩
  | patch path expected diff =>
    rw [Request.mutation] at h
    obtain ⟨_, rfl⟩ := editedMutation_eq h
    exact ⟨hpatch _ _ _, rfl⟩
  | insertAfterHeading path expected heading text | replaceHeadingSection path expected heading text =>
    obtain ⟨_, rfl⟩ := editedMutation_eq h
    exact ⟨hpatch _ _ _, rfl⟩
  | restore path revision expected =>
    simp only [Request.mutation, bind_eq_bind, bind_eq_some_iff] at h
    obtain ⟨_, _, _, _, _, _, _, _, _, _, h⟩ := h
    cases h
    exact ⟨⟨by simp, by simp, by simp⟩, rfl⟩
  | put path mayCreate mustCreate reader =>
    simp only [Request.mutation, putMutation] at h
    split at h
    next =>
      split at h
      next => cases h
      next => cases h; exact ⟨⟨by simp, by simp, by simp⟩, rfl⟩
    next =>
      split at h
      next => cases h; exact ⟨⟨by simp, by simp, by simp⟩, rfl⟩
      next => cases h
  | createDirectory path => cases h
  | delete path managed expected | move source destination expected => cases h

/-- **WHAT A CRASH LEAVES OF A WRITE**, by milestones. -/
theorem recovered_write (hw : Consistent env w) (hname : Nameable w request.target)
    (hwrites : request.writes) (caller : Caller) (n : Nat) :
    (∃ report, (recovered env caller request w n).1 = .ok report) ∧
      match request.mutation env w with
      | some m => WriteOutcome env w m (request.caller caller) request.staged
          (achieved env caller request w n) (recovered env caller request w n).2
      | none => (recovered env caller request w n).2.db = w.db ∧
          (recovered env caller request w n).2.tree = w.tree := by
  have hstage : Writing env w caller request
      (stop (traced env) n (request.serve env caller) ([], w)) :=
    (Request.serve_writing hwrites rfl).stop n
  have hstop := stop_noting (exec env 0) w mark (request.serve env caller) n []
  unfold recovered achieved
  rw [← hstop]
  generalize stop (traced env) n (request.serve env caller) ([], w) = s at hstage
  obtain ⟨marks, v⟩ := s
  have hrun := run_noting (exec env 0) (restart v) mark (recoverInner env) marks
  rw [← hrun.1, ← hrun.2]
  cases hm : request.mutation env w with
  | some m =>
    rw [Writing, hm] at hstage
    rw [← (Request.mutation_formed hm).2] at hname
    have hsat : Sat (traced env) _ _ (recoverInner env) (marks, restart v) :=
      recover_write hw (Request.mutation_formed hm).1 hname hstage
    exact hsat.run
  | none =>
    rw [Writing, hm] at hstage
    obtain ⟨_, hdb, htree⟩ := hstage
    have hsat : Sat (traced env) _ _ (recoverInner env) (marks, restart v) :=
      recoverInner_none (P := fun t => t.db = w.db ∧ t.tree = w.tree)
        (listIncomplete_settled (hdb ▸ hw.settled)) ⟨hdb, htree⟩
    exact hsat.run

variable {staged : Bool} {state : JournalState} {size : Nat} {bytes : Option Bytes}
  {hash : Option String} {path : VaultPath}

theorem Unchanged.not_renewed {bytes : Bytes} (h : Unchanged env w t path) :
    ¬ Renewed env w t path bytes := by
  rintro ⟨file, record, _, hrows, _⟩
  have hlen := congrArg List.length (hrows.symm.trans h.2.1)
  simp at hlen

theorem KeptAs.unchanged (h : KeptAs w path state t) : Unchanged env w t path := by
  obtain ⟨rows, ⟨⟨journal, hdb⟩, _⟩, _, hbytes⟩ := h
  rw [Unchanged, hdb]
  exact ⟨rfl, rfl, hbytes⟩

/-- Committed and described: the new state. -/
theorem CommittedAs.renewed (hw : Consistent env w)
    (h : CommittedAs env w m caller staged hash size bytes t) (new : Bytes) :
    ¬ Unchanged env w t m.path ∧ (Renewed env w t m.path new ↔
      hash = some (env.hasher.digest new) ∧ size = new.length ∧ bytes = some new) := by
  obtain ⟨k, row, db, payload, i, now, commit, ticket, intact, tracks, intends, hhash, hsize,
    hdeleted, hcommit, hbytes⟩ := h
  have hcommitted := commitMutation_ok hcommit
  have hcurrent := (ticket_file hw ticket intact).1
  rw [← intends.fileId] at hcurrent
  have hpath : i.path = m.path := intends.path.trans ticket.path
  obtain ⟨⟨journal, hdb⟩, _⟩ := intact
  have hrows : t.db.revisions.rows = w.db.revisions.rows ++ [commit.revision] := by
    rw [hcommitted.revisions, hdb]
  obtain ⟨createdAt, hfile⟩ := hcommitted.file_eq
  have hactive : t.db.getActive env.context.id m.path = some commit.file := by
    refine getActive_iff.mpr ⟨getAny_iff.mpr ⟨hcommitted.file_mem, ?_, ?_⟩, ?_⟩
    · rw [hfile]; rfl
    · rw [hfile]; exact hpath
    · rw [hfile, CommitMutationInput.file, hdeleted]; rfl
  refine ⟨fun hold => ?_, ?_, ?_⟩
  · have hlen := congrArg List.length (hrows.symm.trans hold.2.1)
    simp at hlen
  · rintro ⟨file, record, hfile', _, _, _, _, _, ⟨hnewhash, hnewsize⟩, hnewbytes⟩
    rw [hactive] at hfile'
    cases hfile'
    rw [hfile] at hnewhash hnewsize
    exact ⟨hhash.symm.trans hnewhash, hsize.symm.trans hnewsize, hbytes.symm.trans hnewbytes⟩
  · rintro ⟨rfl, rfl, rfl⟩
    refine ⟨commit.file, commit.revision, hactive, hrows, ?_⟩
    rw [hcommitted.revision, hfile, ← hcurrent]
    exact ⟨rfl, rfl, rfl, ⟨hhash, congrArg some hsize⟩, ⟨hhash, hsize⟩, hbytes⟩

theorem KeptAs.oldOrNew (hm : request.mutation env w = some m) (h : KeptAs w m.path state t) :
    OldOrNew env request w t := by
  have hold : Unchanged env w t m.path := h.unchanged
  rw [(Request.mutation_formed hm).2] at hold
  exact .inl ⟨hold, fun ⟨_, _, hnew⟩ => hold.not_renewed hnew⟩

theorem CommittedAs.oldOrNew_iff (hw : Consistent env w) (hm : request.mutation env w = some m)
    (h : CommittedAs env w m caller staged hash size bytes t) :
    OldOrNew env request w t ↔ hash = some (env.hasher.digest m.reader.chunks.flatten) ∧
      size = m.reader.chunks.flatten.length ∧ bytes = some m.reader.chunks.flatten := by
  obtain ⟨hnot, hiff⟩ := h.renewed hw m.reader.chunks.flatten
  rw [← hiff]
  rw [(Request.mutation_formed hm).2] at hnot ⊢
  constructor
  · rintro (⟨hold, _⟩ | ⟨⟨m', hm', hnew⟩, _⟩)
    · exact absurd hold hnot
    · cases hm.symm.trans hm'
      exact hnew
  · exact fun hnew => .inr ⟨⟨m, hm, hnew⟩, hnot⟩

/-- Old or new, outside the window. -/
theorem WriteOutcome.oldOrNew_iff {marks : List Milestone} (hw : Consistent env w)
    (hm : request.mutation env w = some m)
    (h : WriteOutcome env w m (request.caller caller) request.staged marks t) :
    OldOrNew env request w t ↔ ¬ Exposed env request w marks := by
  have hexposed : Exposed env request w marks ↔
      (w.db.getAny env.context.id m.path).any (·.isActive) ∧
      (phaseOf marks = ⟨true, false, false, false⟩ ∨ phaseOf marks = ⟨true, true, false, false⟩ ∧
          ∃ old, w.tree.bytes m.path = some old ∧ old ≠ m.reader.chunks.flatten ∧
            env.hasher.digest old = env.hasher.digest m.reader.chunks.flatten) := by
    refine ⟨fun ⟨m', hm', h⟩ => ?_, fun h => ⟨m, hm, h⟩⟩
    cases hm.symm.trans hm'
    exact h
  rw [hexposed]
  cases hphase : phaseOf marks with
  | mk prepared described installed closed =>
  simp only [WriteOutcome, hphase] at h
  cases installed with
  | true =>
    refine iff_of_true ((h.oldOrNew_iff hw hm).mpr ⟨rfl, rfl, rfl⟩) ?_
    rintro ⟨_, h | ⟨h, _⟩⟩ <;> exact nomatch h
  | false =>
    by_cases hidle : (closed || !prepared)
    · rw [if_neg Bool.false_ne_true, if_pos hidle] at h
      refine iff_of_true (KeptAs.oldOrNew hm h) ?_
      rintro ⟨_, h | ⟨h, _⟩⟩ <;> cases h <;> exact nomatch hidle
    · obtain ⟨rfl, rfl⟩ : closed = false ∧ prepared := by simpa using hidle
      rw [if_neg Bool.false_ne_true, if_neg hidle] at h
      by_cases hactive : (w.db.getAny env.context.id m.path).any (·.isActive)
      · rw [if_pos hactive] at h
        cases described with
        | false =>
          refine iff_of_false (fun hold => ?_) (not_not.mpr ⟨hactive, .inl rfl⟩)
          cases ((CommittedAs.oldOrNew_iff hw hm h).mp hold).1
        | true =>
          obtain ⟨old, hold, h⟩ := h
          by_cases hsame : env.hasher.digest old = env.hasher.digest m.reader.chunks.flatten
          · rw [if_pos hsame] at h
            rw [CommittedAs.oldOrNew_iff hw hm h]
            have hwindow : (∃ bytes, w.tree.bytes m.path = some bytes ∧
                bytes ≠ m.reader.chunks.flatten ∧ env.hasher.digest bytes =
                  env.hasher.digest m.reader.chunks.flatten) ↔
                old ≠ m.reader.chunks.flatten := by
              simp [hold, hsame]
            simp [hactive, hwindow]
          · rw [if_neg hsame] at h
            refine iff_of_true (KeptAs.oldOrNew hm h) ?_
            rintro ⟨_, h | ⟨_, bytes, hbytes, _, hdigest⟩⟩
            · cases h
            · rw [hold] at hbytes
              cases hbytes
              exact hsame hdigest
      · rw [if_neg hactive] at h
        exact iff_of_true (KeptAs.oldOrNew hm h) fun hwindow => hactive hwindow.1

/-- **OLD OR NEW, OUTSIDE THE WINDOW**: recovery succeeds, and leaves exactly one of the two
    states if and only if the stop was not in the window. -/
theorem recovered_oldOrNew_iff (hw : Consistent env w) (hname : Nameable w request.target)
    (hwrites : request.writes) (caller : Caller) (n : Nat) :
    (∃ report, (recovered env caller request w n).1 = .ok report) ∧
      (OldOrNew env request w (recovered env caller request w n).2 ↔
        ¬ Exposed env request w (achieved env caller request w n)) := by
  obtain ⟨hok, houtcome⟩ := recovered_write hw hname hwrites caller n
  refine ⟨hok, ?_⟩
  cases hm : request.mutation env w with
  | some m =>
    rw [hm] at houtcome
    exact WriteOutcome.oldOrNew_iff hw hm houtcome
  | none =>
    rw [hm] at houtcome
    have hold : Unchanged env w (recovered env caller request w n).2 request.target := by
      rw [Unchanged, houtcome.1, houtcome.2]
      exact ⟨rfl, rfl, rfl⟩
    refine iff_of_true (.inl ⟨hold, ?_⟩) ?_
    · rintro ⟨m, hm', _⟩
      cases hm.symm.trans hm'
    · rintro ⟨m, hm', _⟩
      cases hm.symm.trans hm'

end OldOrNew

/-- A Vault with one note. -/
def noteVault : World := emptyVault.after (.create ["a"] false ⟨[[1]], none⟩) none

theorem noteVault_consistent : Consistent smallEnv noteVault where
  vault := by decide
  settled := by decide
  faithful := by
    intro file hfile _ _
    have hrow : ∀ file ∈ noteVault.db.entries.rows, file.path = ["a"] ∧
        file.entryType = .file ∧ file.contentHash = some (smallDigest 1) ∧ file.size = 1 := by
      decide
    obtain ⟨hpath, hkind, hhash, hsize⟩ := hrow file hfile
    refine ⟨fun _ => ⟨[1], ?_, hhash, hsize⟩, fun h => ?_⟩
    · rw [hpath]
      decide
    · rw [hkind] at h
      cases h
  room := by decide
  sizes := by decide
  numbered := by decide
  keyed := by decide
  ids := by decide
  archive := by decide
  temps := by
    intro p n hn
    by_contra hnode
    -- the temporary name of the first write is the only one that was ever used
    have hnames : noteVault.tree.names =
        [["a"], [temporaryStem ++ toString 2], [temporaryStem ++ toString 2], []] := by decide
    have hname := noteVault.tree.named _ hnode
    rw [hnames] at hname
    have hfree : noteVault.tree.node [temporaryStem ++ toString 2] = none := by decide
    simp only [mem_cons] at hname
    rcases hname with h | h | h | h
    · have hlast := congrArg (fun q => q.getLast?.map String.toList) h
      simp [temporaryStem] at hlast
    · exact hnode (h ▸ hfree)
    · exact hnode (h ▸ hfree)
    · simp at h

/-- Another text for the note. -/
def rewrite : Request := .replace ["a"] false 1 [2]

/-- One call later the row has the hash. -/
theorem recovered_oldOrNew_described : OldOrNew smallEnv rewrite noteVault
      (recovered smallEnv (callerWith none) rewrite noteVault 11).2 := by
  have hname : Nameable noteVault rewrite.target := by
    intro n _ hmem
    have hlast := congrArg String.toList (mem_singleton.mp hmem)
    simp [temporaryStem] at hlast
  refine (recovered_oldOrNew_iff noteVault_consistent hname rfl (callerWith none) 11).2.mpr ?_
  rintro ⟨m, hm, _, hphase | ⟨_, old, hold, _, hdigest⟩⟩
  · have hreached : phaseOf (achieved smallEnv (callerWith none) rewrite noteVault 11) =
      ⟨true, true, false, false⟩ := by decide
    cases hphase
  · cases hm
    have hnote : noteVault.tree.bytes ["a"] = some [1] := by decide
    cases hnote.symm.trans hold
    exact absurd hdigest (by decide)

/-- The old text, and a revision without a hash. -/
theorem recovered_not_oldOrNew : ¬ OldOrNew smallEnv rewrite noteVault
      (recovered smallEnv (callerWith none) rewrite noteVault 10).2 := by
  have hfile : ((recovered smallEnv (callerWith none) rewrite noteVault 10).2.db.getActive 0
      ["a"]).map (fun file => (file.currentRevision, file.contentHash, file.size)) =
      some (2, none, 0) := by decide
  have hnote : (noteVault.db.getActive 0 ["a"]).map (fun file =>
      (file.currentRevision, file.contentHash, file.size)) =
      some (1, some (smallDigest 1), 1) := by decide
  rintro (⟨⟨hsame, _⟩, _⟩ | ⟨⟨m, _, file, record, hnew, _, _, _, _, _, ⟨hhash, _⟩, _⟩, _⟩)
  · have hsame : (recovered smallEnv (callerWith none) rewrite noteVault 10).2.db.getActive 0
      ["a"] = noteVault.db.getActive 0 ["a"] := hsame
    rw [hsame, hnote] at hfile
    simp at hfile
  · have hnew : (recovered smallEnv (callerWith none) rewrite noteVault 10).2.db.getActive 0
      ["a"] = some file := hnew
    rw [hnew, map_some, hhash] at hfile
    simp at hfile

end VaultCore
