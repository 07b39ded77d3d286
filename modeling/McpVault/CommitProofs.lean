import McpVault.FileStoreProofs

/-! # When a metadata commit goes through

A commit is one transaction with nine ways to fail.  `Ready` is the state of the tables in which
none of them applies, and `commit_ready` is the commit itself.  An operation that keeps its input
ready can be finished at any later time, in particular after a restart. -/

namespace FileStore

open SqlTable VaultDomain List

variable {P : Type} {s : Store P} {vaultId : VaultId} {i : CommitMutationInput} {now : Int}

/-- The place to take: free, its own, or a tombstone's. -/
inductive Place (s : Store P) (vaultId : VaultId) (i : CommitMutationInput) : Prop where
  | free (absent : s.getAny vaultId i.path = none) (stays : i.tombstoneArchivePath = none)
  | own {d : FileRow} (there : s.getAny vaultId i.path = some d) (same : d.id = i.fileId)
      (stays : i.tombstoneArchivePath = none)
  | tombstone {d : FileRow} {archive : VaultPath} (there : s.getAny vaultId i.path = some d)
      (other : d.id ≠ i.fileId) (dead : d.isActive = false)
      (goes : i.tombstoneArchivePath = some archive) (elsewhere : archive ≠ i.path)
      (vacant : ∀ e ∈ s.entries.rows, e.vaultId = vaultId → e.path ≠ archive)

/-- Only the state of the journal row is in the way. -/
structure Prospect (s : Store P) (vaultId : VaultId) (i : CommitMutationInput) : Prop where
  vault : vaultId ∈ s.vaults
  size : i.size < 2 ^ 63
  events : ∀ event ∈ i.outboxEvents, validateEvent event = .ok ()
  room : ∀ c ∈ s.getById vaultId i.fileId, c.currentRevision + 1 < 2 ^ 63
  expected : checkRevision i (s.getById vaultId i.fileId) = .ok ()
  new : s.getById vaultId i.fileId = none →
    i.operation ≠ .move ∧ ∀ e ∈ s.entries.rows, e.id ≠ i.fileId
  place : Place s vaultId i
  numbered : ∀ r ∈ s.revisions.rows, r.vaultId = vaultId → r.fileId = i.fileId →
    r.revision ≤ ((s.getById vaultId i.fileId).map (·.currentRevision)).getD 0
  keyed : ∀ key ∈ i.idempotencyKey, ∀ r ∈ s.revisions.rows, r.vaultId = vaultId →
    r.idempotencyKey ≠ some key

/-- Nothing stands in the way of the commit. -/
structure Ready (s : Store P) (vaultId : VaultId) (i : CommitMutationInput) : Prop
    extends Prospect s vaultId i where
  journal : ∃ row ∈ s.journal.rows, row.vaultId = vaultId ∧ row.id = i.operationId ∧
    row.state = .fileCommitted

theorem getById_iff {id : FileId} {c : FileRow} : s.getById vaultId id = some c ↔
    c ∈ s.entries.rows ∧ c.vaultId = vaultId ∧ c.id = id := by
  refine ⟨getById_spec, fun ⟨hmem, hkey⟩ => ?_⟩
  obtain ⟨other, hother⟩ : ∃ other, s.getById vaultId id = some other :=
    Option.isSome_iff_exists.mp (List.find?_isSome.mpr ⟨c, hmem, by simpa using hkey⟩)
  obtain ⟨hmem', _, hid⟩ := getById_spec hother
  rw [hother, s.entries.ok.1.eq_of_key hmem' hmem rfl (by rw [hkey.2, hid])]

/-- The tombstone at the destination goes. -/
theorem archive_ready (now : Int) (h : Place s vaultId i) :
    ∃ archived, archiveTombstone s.entries vaultId i (s.getAny vaultId i.path) now = .ok archived ∧
      ∀ e ∈ archived.rows, e.vaultId = vaultId → e.path = i.path → e.id = i.fileId := by
  cases h with
  | free absent stays =>
    refine ⟨s.entries, by simp [archiveTombstone, stays, pure, Except.pure], ?_⟩
    intro e he hvault hpath
    rw [getAny_iff.mpr ⟨he, hvault, hpath⟩] at absent
    cases absent
  | own there same stays =>
    refine ⟨s.entries, by simp [archiveTombstone, stays, pure, Except.pure], ?_⟩
    intro e he hvault hpath
    rw [getAny_iff.mpr ⟨he, hvault, hpath⟩] at there
    cases there
    exact same
  | @tombstone d archive there other dead goes elsewhere vacant =>
    obtain ⟨hd, hdvault, hdpath⟩ := getAny_iff.mp there
    let sel := fun r : FileRow => decide (r.vaultId = vaultId ∧ r.id = d.id ∧ r.isActive = false)
    have hsel : ∀ q, sel q → some q.id = some d.id := fun q hq =>
      congrArg some (of_decide_eq_true hq).2.1
    have hone : s.entries.rows.countP sel = 1 :=
      s.entries.ok.1.countP_eq_one hd (decide_eq_true ⟨hdvault, rfl, dead⟩) hsel
    have hok : EntriesOk (updateRows sel
        (fun r => { r with path := archive, updatedAt := now }) s.entries.rows) := by
      refine ⟨s.entries.ok.1.updateRows fun r _ _ => .inl rfl, s.entries.ok.2.replace hone ?_⟩
      intro r _ hr k hk q hq _ hkq
      obtain ⟨hvault, hpath⟩ := Prod.mk.inj (Option.some.inj (hkq.trans hk.symm))
      exact vacant q hq (hvault.trans (of_decide_eq_true hr).1) hpath
    have hvacant : (s.entries.rows.any fun r =>
        decide (r.vaultId = vaultId ∧ r.path = archive)) = false := by
      refine any_eq_false.mpr fun e he h => ?_
      obtain ⟨hvault, hpath⟩ := of_decide_eq_true h
      exact vacant e he hvault hpath
    refine ⟨⟨_, hok⟩, ?_, ?_⟩
    · rw [archiveTombstone, goes, there]
      simp only [dead, other, hvacant]
      rw [Table.update, Table.store_of_ok hok]
      exact if_pos hone
    · intro e he hvault hpath
      obtain ⟨q, hq, ⟨hw, rfl⟩ | ⟨hw, rfl⟩⟩ := mem_updateRows.mp he
      · exact absurd hpath elsewhere
      · -- an unchanged row at the destination would be the tombstone
        have hqd := getAny_iff.mpr ⟨hq, hvault, hpath⟩
        rw [there] at hqd
        cases hqd
        exact absurd ⟨hvault, rfl, dead⟩ (of_decide_eq_false hw)

/-- The row is written over its own, or new. -/
theorem write_ready (h : Ready s vaultId i) {archived : Table EntriesOk}
    (harchived : archiveTombstone s.entries vaultId i (s.getAny vaultId i.path) now = .ok archived)
    (hplace : ∀ e ∈ archived.rows, e.vaultId = vaultId → e.path = i.path → e.id = i.fileId)
    (revision : Revision) :
    ∃ r, writeEntry s.vaults archived vaultId i (s.getById vaultId i.fileId) revision now =
      .ok r := by
  obtain ⟨hback, hforth⟩ := archived_rows harchived
  have hsize : fitsI64 i.size := decide_eq_true h.size
  simp only [writeEntry, hsize]
  cases hcurrent : s.getById vaultId i.fileId with
  | none =>
    obtain ⟨_, hnew⟩ := h.new hcurrent
    have hids : ∀ e ∈ archived.rows, e.id ≠ i.fileId := by
      intro e he
      obtain ⟨e₀, he₀, ha⟩ := hback e he
      rw [ha.key.2.1]
      exact hnew e₀ he₀
    have hok : EntriesOk (archived.rows ++ [i.file vaultId revision now now]) := by
      refine ⟨archived.ok.1.concat fun k hk r hr hkr => ?_,
        archived.ok.2.concat fun k hk r hr hkr => ?_⟩
      · exact hids r hr (Option.some.inj (hkr.trans hk.symm))
      · obtain ⟨hvault, hpath⟩ := Prod.mk.inj (Option.some.inj (hkr.trans hk.symm))
        exact hids r hr (hplace r hr hvault hpath)
    refine ⟨(⟨_, hok⟩, i.file vaultId revision now now), ?_⟩
    show (if vaultId ∉ s.vaults then _ else _) = _
    rw [if_neg (not_not.mpr h.vault), Table.insert, Table.store_of_ok hok]
    rfl
  | some c =>
    obtain ⟨hc, hcvault, hcid⟩ := getById_spec hcurrent
    obtain ⟨c', hc', ha⟩ := hforth c hc
    obtain ⟨hvault', hid', hrev', _⟩ := ha.key
    let sel := fun r : FileRow => decide (r.vaultId = vaultId ∧ r.id = i.fileId ∧
      r.currentRevision = c.currentRevision)
    have hselc : sel c' :=
      decide_eq_true ⟨hvault'.trans hcvault, hid'.trans hcid, hrev'⟩
    have hone : archived.rows.countP sel = 1 :=
      archived.ok.1.countP_eq_one hc' hselc fun q hq =>
        congrArg some (of_decide_eq_true hq).2.1
    -- whatever the update leaves alone is the row of another file
    have hother : ∀ q ∈ archived.rows, sel q = false → q.id ≠ i.fileId := by
      intro q hq hsel hid
      have hqc : q = c' := archived.ok.1.eq_of_key hq hc' rfl
        (congrArg some ((hid'.trans hcid).trans hid.symm))
      rw [hqc, hselc] at hsel
      cases hsel
    have hok : EntriesOk (updateRows sel
        (fun _ => i.file vaultId revision c.createdAt now) archived.rows) := by
      refine ⟨archived.ok.1.replace hone fun r _ _ k hk q hq hsel hkq => ?_,
        archived.ok.2.replace hone fun r _ _ k hk q hq hsel hkq => ?_⟩
      · exact hother q hq hsel (Option.some.inj (hkq.trans hk.symm))
      · obtain ⟨hvault, hpath⟩ := Prod.mk.inj (Option.some.inj (hkq.trans hk.symm))
        exact hother q hq hsel (hplace q hq hvault hpath)
    have hupdate : archived.update sel (fun _ => i.file vaultId revision c.createdAt now) =
        some ⟨_, hok⟩ := Table.store_of_ok hok
    refine ⟨(⟨_, hok⟩, i.file vaultId revision c.createdAt now), ?_⟩
    simp only [sel] at hupdate
    simp only [hupdate]
    exact if_pos hone

theorem insertEvents_ok (vaultId : VaultId) (now : Int) {events : List OutboxEventInput}
    (h : ∀ event ∈ events, validateEvent event = .ok ()) (outbox : List OutboxRow) :
    ∃ outbox', insertEvents vaultId now outbox events = .ok outbox' := by
  induction events generalizing outbox with
  | nil => exact ⟨outbox, rfl⟩
  | cons event events ih =>
    rw [insertEvents, h event mem_cons_self]
    exact ih (fun e he => h e (mem_cons_of_mem event he)) _

theorem nextRevision_room {current : Option FileRow}
    (h : ∀ c ∈ current, c.currentRevision + 1 < 2 ^ 63) :
    nextRevision current = .ok ((current.map (·.currentRevision)).getD 0 + 1) := by
  cases current with
  | none => rfl
  | some c =>
    have hfits : fitsI64 (c.currentRevision + 1) := decide_eq_true (h c rfl)
    rw [nextRevision, asI64, hfits]
    rfl

/-- Updating a row that is there goes through. -/
theorem updateJournal_hits {id : OperationId} {states : List JournalState}
    {f : JournalRow P → JournalRow P} {failure : StateError} {row : JournalRow P}
    (hrow : row ∈ s.journal.rows) (hvault : row.vaultId = vaultId) (hid : row.id = id)
    (hstate : row.state ∈ states)
    (hkeep : ∀ r, (f r).id = r.id ∧ (f r).vaultId = r.vaultId ∧
      (f r).idempotencyKey = r.idempotencyKey) :
    ∃ s', updateJournal s vaultId id states f failure = .ok s' := by
  have hok : JournalOk (updateRows (selects vaultId id states) f s.journal.rows) := by
    refine ⟨s.journal.ok.1.updateRows fun r _ _ => .inl ?_,
      s.journal.ok.2.updateRows fun r _ _ => .inl ?_⟩
    · rw [(hkeep r).1]
    · rw [(hkeep r).2.1, (hkeep r).2.2]
  have hone : s.journal.rows.countP (selects vaultId id states) = 1 :=
    s.journal.ok.1.countP_eq_one hrow (decide_eq_true ⟨hvault, hid, hstate⟩) fun q hq =>
      congrArg some (of_decide_eq_true hq).2.1
  have hupdate : s.journal.update (selects vaultId id states) f = some ⟨_, hok⟩ :=
    Table.store_of_ok hok
  refine ⟨{ s with journal := ⟨_, hok⟩ }, ?_⟩
  simp only [updateJournal]
  rw [show s.journal.update (fun r => decide (r.vaultId = vaultId ∧ r.id = id ∧
    r.state ∈ states)) f = _ from hupdate]
  exact if_pos hone

/-- **A COMMIT THAT IS READY GOES THROUGH.** -/
theorem commit_ready (now : Int) (h : Ready s vaultId i) :
    ∃ s' result, commitMutation s vaultId i (fun _ => .ok ()) now = .ok (s', result) := by
  obtain ⟨archived, harchived, hplace⟩ := archive_ready now h.place
  obtain ⟨⟨entries, file⟩, hwrite⟩ := write_ready h harchived hplace
    (((s.getById vaultId i.fileId).map (·.currentRevision)).getD 0 + 1)
  have habsent : checkAbsent i (s.getAny vaultId i.path) = .ok () := by
    cases h.place with
    | free absent _ => rw [absent]; rfl
    | own there same _ => rw [there, checkAbsent, if_neg fun hc => hc.2.2 same]; rfl
    | tombstone there _ dead _ _ _ =>
      rw [there, checkAbsent, if_neg fun hc => absurd hc.2.1 (by simp [dead])]
      rfl
  have hdestination : checkDestination i (s.getById vaultId i.fileId)
      (s.getAny vaultId i.path) = .ok () := by
    have hmove : ¬ (i.operation = .move ∧ (s.getById vaultId i.fileId).isNone) :=
      fun hc => (h.new (Option.isNone_iff_eq_none.mp hc.2)).1 hc.1
    unfold checkDestination
    rw [if_neg hmove]
    cases h.place with
    | free absent _ => rw [absent]; rfl
    | own there same _ => simp [there, same, pure, Except.pure]
    | tombstone there _ _ goes _ _ => simp [there, goes, pure, Except.pure]
  have hrecord : RevisionsOk (s.revisions.rows ++ [i.revision vaultId (s.getById vaultId i.fileId)
      (((s.getById vaultId i.fileId).map (·.currentRevision)).getD 0 + 1) now]) := by
    refine ⟨s.revisions.ok.1.concat fun k hk r hr hkr => ?_,
      s.revisions.ok.2.concat fun k hk r hr hkr => ?_⟩
    · obtain ⟨hvault, hrest⟩ := Prod.mk.inj (Option.some.inj (hkr.trans hk.symm))
      obtain ⟨hfile, hrevision⟩ := Prod.mk.inj hrest
      have hle := h.numbered r hr hvault hfile
      rw [hrevision] at hle
      exact absurd hle (Nat.not_succ_le_self _)
    · obtain ⟨key, hkey, rfl⟩ := Option.map_eq_some_iff.mp hk
      obtain ⟨key', hkey', hpair⟩ := Option.map_eq_some_iff.mp hkr
      obtain ⟨hvault, rfl⟩ := Prod.mk.inj hpair
      exact h.keyed key' hkey r hr hvault hkey'
  obtain ⟨outbox, houtbox⟩ := insertEvents_ok vaultId now h.events s.outbox
  obtain ⟨row, hrow, hvault, hid, hstate⟩ := h.journal
  obtain ⟨s', hs'⟩ : ∃ s', updateJournal
      { s with entries, revisions := ⟨_, hrecord⟩,
               audit := s.audit ++ [⟨vaultId, now, i.sourcePlane, i.actor,
                 i.auditAction, .file i.fileId, i.operationId⟩],
               outbox }
      vaultId i.operationId [.fileCommitted]
      (fun r => { r with state := .metadataCommitted, updatedAt := now, error := none })
      (.invalidInput "journal is not file-committed") = .ok s' :=
    updateJournal_hits hrow hvault hid (mem_singleton.mpr hstate) fun _ => ⟨rfl, rfl, rfl⟩
  refine ⟨s', ⟨file, i.revision vaultId (s.getById vaultId i.fileId)
    (((s.getById vaultId i.fileId).map (·.currentRevision)).getD 0 + 1) now⟩, ?_⟩
  simp only [commitMutation, habsent, harchived, h.expected, hdestination,
    nextRevision_room h.room, hwrite, bind, Except.bind, Table.insert,
    Table.store_of_ok hrecord, houtbox, hs']
  rfl

end FileStore
