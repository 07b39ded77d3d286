import McpVault.TransitionProofs
import McpVault.FileStoreProofs

/-! # The revision store — one history per file, one revision per commit

Any sequence of repository calls from the empty tables.  Each call is one transaction, and the
journal row moves by compare-and-set: a call other than a commit changes the journal only
(`JournalMove`), a commit all four tables at once (`Committed`), and `Inv` is proved over these two
shapes.

A revision records the caller's `path_after`, not the path of the row; and the adjudication of a
replayed create writes an audit row of its own. -/

namespace RevisionStore

open Transition SqlTable VaultDomain FileStore List
open Fallible (bind_ok_iff map_fst_ok)

variable {P : Type}

/-- The calls, each with the clock reading it takes. -/
inductive Call (P : Type) where
  | prepareOperation (vaultId : VaultId) (i : PrepareOperationInput P)
      (now : Int)
  | updateOperationPayload (vaultId : VaultId) (id : OperationId) (payload : P)
      (proposedHash : Option String) (now : Int)
  | setProposedHash (vaultId : VaultId) (id : OperationId)
      (proposedHash : String) (now : Int)
  | markFileCommitted (vaultId : VaultId) (id : OperationId)
      (proposedHash : Option String) (now : Int)
  | commitMutation (vaultId : VaultId) (i : CommitMutationInput)
      (hook : CommitHookPhase → Except StateError Unit) (now : Int)
  | markRolledBack (vaultId : VaultId) (id : OperationId)
      (error : Option String) (now : Int)
  | markNeedsReview (vaultId : VaultId) (id : OperationId) (error : String)
      (now : Int)
  | supersedeReplayedCreate (vaultId : VaultId) (w : SupersedeCreateWitness)
      (now : Int)
  | supersedeReviewedReplayedCreate (vaultId : VaultId)
      (w : SupersedeCreateWitness) (now : Int)
  | discardLegacyMemoryJournals (vaultId : VaultId)
      (journals : List (JournalRow P)) (now : Int)

/-- One call of the repository. -/
def perform [PayloadAccess P] (s : Store P) : Call P → Except StateError (Store P)
  | .prepareOperation vaultId i now => prepareOperation s vaultId i now
  | .updateOperationPayload vaultId id payload proposedHash now =>
    updateOperationPayload s vaultId id payload proposedHash now
  | .setProposedHash vaultId id proposedHash now =>
    setProposedHash s vaultId id proposedHash now
  | .markFileCommitted vaultId id proposedHash now =>
    markFileCommitted s vaultId id proposedHash now
  | .commitMutation vaultId i hook now =>
    Prod.fst <$> commitMutation s vaultId i hook now
  | .markRolledBack vaultId id error now =>
    markRolledBack s vaultId id error now
  | .markNeedsReview vaultId id error now =>
    markNeedsReview s vaultId id error now
  | .supersedeReplayedCreate vaultId w now =>
    Prod.fst <$> supersedeReplayedCreate s vaultId w now
  | .supersedeReviewedReplayedCreate vaultId w now =>
    Prod.fst <$> supersedeReviewedReplayedCreate s vaultId w now
  | .discardLegacyMemoryJournals vaultId journals now =>
    discardLegacyMemoryJournals vaultId now s journals

/-- A call that fails has rolled its transaction back. -/
def step [PayloadAccess P] (s : Store P) (c : Call P) : Option (Store P) :=
  match perform s c with
  | .ok s' => some s'
  | .error _ => some s

/-! ## The invariant -/

/-- A file's revisions, as inserted. -/
def history (s : Store P) (vaultId : VaultId) (fileId : FileId) : List RevisionRow :=
  s.revisions.rows.filter fun r => r.vaultId = vaultId ∧ r.fileId = fileId

/-- How many revisions a row has made. -/
def revisionsDue : JournalState → Nat
  | .metadataCommitted => 1
  | _ => 0

/-- How many audit rows a journal row has made. -/
def auditsDue : JournalState → Nat
  | .metadataCommitted | .superseded => 1
  | _ => 0

/-- The states a journal row never leaves. -/
def settled : JournalState → Bool
  | .metadataCommitted | .rolledBack | .superseded | .discarded => true
  | _ => false

/-- Numbers, rows, audit and journal agree. -/
structure Inv (s : Store P) : Prop where
  numbered : ∀ e ∈ s.entries.rows, (history s e.vaultId e.id).map (·.revision) =
      List.range' 1 e.currentRevision
  owned : ∀ r ∈ s.revisions.rows, ∃ e ∈ s.entries.rows, e.vaultId = r.vaultId ∧ e.id = r.fileId
  latest : ∀ e ∈ s.entries.rows, ∃ r, (history s e.vaultId e.id).getLast? = some r ∧
      r.contentHash = e.contentHash ∧ r.size = some e.size
  contributed : ∀ j ∈ s.journal.rows, s.revisions.rows.countP (fun r => r.contributor = j.id) =
      revisionsDue j.state ∧
    s.audit.countP (fun a => a.contributor = j.id) = auditsDue j.state
  revisionsFrom : ∀ r ∈ s.revisions.rows, ∃ j ∈ s.journal.rows, j.id = r.contributor
  auditsFrom : ∀ a ∈ s.audit, ∃ j ∈ s.journal.rows, j.id = a.contributor

theorem empty_inv (vaults : List VaultId) : Inv (Store.empty P vaults) where
  numbered := fun _ h => nomatch h
  owned := fun _ h => nomatch h
  latest := fun _ h => nomatch h
  contributed := fun _ h => nomatch h
  revisionsFrom := fun _ h => nomatch h
  auditsFrom := nofun

/-! ## Calls that move the journal only -/

variable {s s' : Store P} {vaultId : VaultId} {id : OperationId} {now : Int}
  {w : JournalRow P → Bool} {f : JournalRow P → JournalRow P} {c : Call P}

/-- One open row moves on, contributing nothing. -/
structure JournalMove (s s' : Store P) (w : JournalRow P → Bool)
    (f : JournalRow P → JournalRow P) : Prop where
  frame : ∃ journal, s' = { s with journal }
  rows : s'.journal.rows = updateRows w f s.journal.rows
  fresh : ∀ r, w r → settled r.state = false ∧
    auditsDue (f r).state = 0 ∧ revisionsDue (f r).state = 0
  ids : ∀ r, (f r).id = r.id

/-- Rows in a settled state stay as they are. -/
def Stays (s s' : Store P) : Prop :=
  ∀ j ∈ s.journal.rows, settled j.state → j ∈ s'.journal.rows

theorem stays_update (h : s'.journal.rows = updateRows w f s.journal.rows)
    (hw : ∀ r, w r → settled r.state = false) : Stays s s' := by
  intro j hj hsettled
  rw [h]
  refine mem_updateRows.mpr ⟨j, hj, .inr ⟨?_, rfl⟩⟩
  refine Bool.eq_false_iff.mpr fun hsel => ?_
  rw [hw j hsel] at hsettled
  cases hsettled

theorem due_of_open {state : JournalState} (h : settled state = false) :
    revisionsDue state = 0 ∧ auditsDue state = 0 := by
  cases state <;> first | exact ⟨rfl, rfl⟩ | exact nomatch h

theorem JournalMove.stays (m : JournalMove s s' w f) : Stays s s' :=
  stays_update m.rows fun r hw => (m.fresh r hw).1

/-- Keeping the identifiers keeps references. -/
theorem exists_id_update {rows : List (JournalRow P)} (hids : ∀ r, (f r).id = r.id)
    (h : ∃ j ∈ rows, j.id = id) : ∃ j ∈ updateRows w f rows, j.id = id := by
  obtain ⟨j, hj, hid⟩ := h
  cases hw : w j with
  | true => exact ⟨f j, mem_updateRows.mpr ⟨j, hj, .inl ⟨hw, rfl⟩⟩, (hids j).trans hid⟩
  | false => exact ⟨j, mem_updateRows.mpr ⟨j, hj, .inr ⟨hw, rfl⟩⟩, hid⟩

theorem JournalMove.inv (m : JournalMove s s' w f) (h : Inv s) : Inv s' := by
  obtain ⟨journal, rfl⟩ := m.frame
  have hrows : journal.rows = updateRows w f s.journal.rows := m.rows
  refine ⟨h.numbered, h.owned, h.latest, ?_, ?_, ?_⟩
  · intro j hj
    have hj' : j ∈ journal.rows := hj
    rw [hrows] at hj'
    obtain ⟨q, hq, ⟨hw, rfl⟩ | ⟨_, rfl⟩⟩ := mem_updateRows.mp hj'
    · obtain ⟨hopen, haudit, hrev⟩ := m.fresh q hw
      have hdue := due_of_open hopen
      have hold := h.contributed q hq
      rw [m.ids q, hrev, haudit]
      exact ⟨hold.1.trans hdue.1, hold.2.trans hdue.2⟩
    · exact h.contributed j hq
  · intro r hr
    show ∃ j ∈ journal.rows, j.id = r.contributor
    rw [hrows]
    exact exists_id_update m.ids (h.revisionsFrom r hr)
  · intro a ha
    show ∃ j ∈ journal.rows, j.id = a.contributor
    rw [hrows]
    exact exists_id_update m.ids (h.auditsFrom a ha)

variable {states : List JournalState} {i : PrepareOperationInput P}

/-- A conditional update is such a move. -/
theorem updateJournal_move {failure : StateError}
    (h : updateJournal s vaultId id states f failure = .ok s')
    (hstates : ∀ state ∈ states, settled state = false) (hids : ∀ r, (f r).id = r.id)
    (hfresh : ∀ r, r.state ∈ states → auditsDue (f r).state = 0 ∧ revisionsDue (f r).state = 0) :
    JournalMove s s' (selects vaultId id states) f := by
  obtain ⟨hframe, hrows, _⟩ := updateJournal_ok h
  refine ⟨hframe, hrows, ?_, hids⟩
  intro r hw
  have hmem : r.state ∈ states := (of_decide_eq_true hw).2.2
  exact ⟨hstates r.state hmem, hfresh r hmem⟩

theorem prepareOperation_inv (h : prepareOperation s vaultId i now = .ok s') (hs : Inv s) :
    Inv s' := by
  obtain ⟨⟨journal, rfl⟩, hrows⟩ := prepareOperation_ok h
  have hrows' : journal.rows = s.journal.rows ++ [i.row vaultId now] := hrows
  -- the identifier is new, so nothing has been contributed under it
  have hnew : ∀ id, (∃ j ∈ s.journal.rows, j.id = id) → id ≠ i.id := by
    rintro id ⟨j, hj, rfl⟩ heq
    have hok := journal.ok
    rw [hrows'] at hok
    exact hok.1.fresh_of_append (mem_singleton_self _) rfl j hj (congrArg some heq)
  have hmono : ∀ id, (∃ j ∈ s.journal.rows, j.id = id) →
      ∃ j ∈ journal.rows, j.id = id := by
    rintro id ⟨j, hj, hid⟩
    rw [hrows']
    exact ⟨j, mem_append_left _ hj, hid⟩
  refine ⟨hs.numbered, hs.owned, hs.latest, ?_, fun r hr => hmono _ (hs.revisionsFrom r hr),
    fun a ha => hmono _ (hs.auditsFrom a ha)⟩
  intro j hj
  have hj' : j ∈ journal.rows := hj
  rw [hrows'] at hj'
  rcases mem_append.mp hj' with hj' | hj'
  · exact hs.contributed j hj'
  · rw [mem_singleton.mp hj']
    constructor
    · refine countP_eq_zero.mpr fun r hr hc => ?_
      exact hnew _ (hs.revisionsFrom r hr) (of_decide_eq_true hc)
    · refine countP_eq_zero.mpr fun a ha hc => ?_
      exact hnew _ (hs.auditsFrom a ha) (of_decide_eq_true hc)

theorem prepareOperation_stays (h : prepareOperation s vaultId i now = .ok s') : Stays s s' := by
  intro j hj _
  rw [(prepareOperation_ok h).2]
  exact mem_append_left _ hj

/-! ## Calls that contribute -/

/-- A compare-and-set hits the row with that id. -/
theorem selects_of_id {j : JournalRow P}
    (hone : s.journal.rows.countP (selects vaultId id states) = 1) (hj : j ∈ s.journal.rows)
    (hid : j.id = id) : selects vaultId id states j := by
  obtain ⟨q, hq, hsel⟩ := countP_pos_iff.mp
    (show 0 < s.journal.rows.countP (selects vaultId id states) by omega)
  have hqid : q.id = id := (of_decide_eq_true hsel).2.1
  have heq : j = q :=
    s.journal.ok.1.eq_of_key hj hq rfl (congrArg some (hqid.trans hid.symm))
  rw [heq]
  exact hsel

theorem selected_exists (hone : s.journal.rows.countP (selects vaultId id states) = 1) :
    ∃ j ∈ s.journal.rows, j.id = id := by
  obtain ⟨q, hq, hsel⟩ := countP_pos_iff.mp
    (show 0 < s.journal.rows.countP (selects vaultId id states) by omega)
  exact ⟨q, hq, (of_decide_eq_true hsel).2.1⟩

theorem countP_append_one {ρ : Type} (rows : List ρ) (r : ρ) (p : ρ → Bool) :
    (rows ++ [r]).countP p = rows.countP p + (p r).toNat := by
  rw [countP_append, countP_cons]
  cases p r <;> rfl

/-- The row a superseding leaves. -/
def supersededRow (now : Int) (r : JournalRow P) : JournalRow P :=
  { r with state := .superseded, updatedAt := now,
           error := some "superseded by verified later create" }

section

variable [PayloadAccess P] {w : SupersedeCreateWitness} {allowReviewed : Bool}
  {result : SupersedeCreateResult}
  (h : supersedeReplayedCreateInner s vaultId w allowReviewed now = .ok (s', result))

include h

/-- Superseding moves at most one open row. -/
theorem supersede_cases : s' = s ∨ ∃ t state, settled state = false ∧
      updateJournal s vaultId w.operationId [state] (supersededRow now)
        .conflict = .ok t ∧
      s' = { t with audit := t.audit ++ [⟨vaultId, now, .system,
        ⟨.system, none⟩, "file.recovery_superseded",
        .operationJournal w.operationId, w.operationId⟩] } := by
  unfold supersedeReplayedCreateInner at h
  split at h
  next =>
    cases h
    exact .inl rfl
  next journal _ =>
    split at h
    next => split at h <;> cases h <;> exact .inl rfl
    next hadj =>
      split at h
      next =>
        cases h
        exact .inl rfl
      next =>
        split at h
        next =>
          cases h
          exact .inl rfl
        next => cases h
        next t ht =>
          cases h
          refine .inr ⟨t, journal.state, ?_, ht, rfl⟩
          have hadj' := of_decide_eq_true ((Bool.not_eq_false _).mp hadj)
          rcases hadj' with hstate | ⟨_, hstate, _⟩
          · rw [hstate]; rfl
          · rw [hstate]; rfl

theorem supersede_stays : Stays s s' ∧ s'.entries = s.entries ∧ s'.revisions = s.revisions := by
  rcases supersede_cases h with rfl | ⟨t, state, hopen, ht, rfl⟩
  · exact ⟨fun j hj _ => hj, rfl, rfl⟩
  · obtain ⟨⟨table, rfl⟩, hrows, _⟩ := updateJournal_ok ht
    refine ⟨stays_update hrows fun r hsel => ?_, rfl, rfl⟩
    rw [mem_singleton.mp (of_decide_eq_true hsel).2.2]
    exact hopen

theorem supersede_inv (hs : Inv s) : Inv s' := by
  rcases supersede_cases h with rfl | ⟨t, state, hopen, ht, rfl⟩
  · exact hs
  obtain ⟨⟨table, rfl⟩, hrows, hone⟩ := updateJournal_ok ht
  have hrows' : table.rows = updateRows (selects vaultId w.operationId [state])
      (supersededRow now) s.journal.rows := hrows
  have hids : ∀ r : JournalRow P, (supersededRow now r).id = r.id :=
    fun _ => rfl
  refine ⟨hs.numbered, hs.owned, hs.latest, ?_, ?_, ?_⟩
  · intro j hj
    have hj' : j ∈ table.rows := hj
    rw [hrows'] at hj'
    obtain ⟨q, hq, ⟨hsel, rfl⟩ | ⟨hsel, rfl⟩⟩ := mem_updateRows.mp hj'
    · have hold := hs.contributed q hq
      have hmem := (of_decide_eq_true hsel).2
      have hdue : revisionsDue q.state = 0 ∧ auditsDue q.state = 0 := by
        rw [mem_singleton.mp hmem.2]
        exact due_of_open hopen
      refine ⟨hold.1.trans hdue.1, ?_⟩
      show List.countP (fun a => decide (a.contributor = q.id)) (s.audit ++ [_]) = 1
      rw [countP_append_one, hold.2, hdue.2, decide_eq_true hmem.1.symm]
      rfl
    · have hold := hs.contributed j hq
      have hne : w.operationId ≠ j.id := by
        intro heq
        rw [selects_of_id hone hq heq.symm] at hsel
        cases hsel
      refine ⟨hold.1, ?_⟩
      show List.countP (fun a => decide (a.contributor = j.id)) (s.audit ++ [_]) = _
      rw [countP_append_one, hold.2, decide_eq_false hne]
      rfl
  · intro r hr
    show ∃ j ∈ table.rows, j.id = r.contributor
    rw [hrows']
    exact exists_id_update hids (hs.revisionsFrom r hr)
  · intro a ha
    show ∃ j ∈ table.rows, j.id = a.contributor
    rw [hrows']
    refine exists_id_update hids ?_
    rcases mem_append.mp ha with ha | ha
    · exact hs.auditsFrom a ha
    · rw [mem_singleton.mp ha]
      exact selected_exists hone

end

/-! ## The commit -/

section Commit

variable {i : CommitMutationInput}
  {now : Int} {result : MutationCommitResult}

theorem history_append (hrows : s'.revisions.rows =
    s.revisions.rows ++ [result.revision]) (v : VaultId) (f : FileId) :
    history s' v f = history s v f ++
      if result.revision.vaultId = v ∧ result.revision.fileId = f then
        [result.revision] else [] := by
  unfold history
  rw [hrows, filter_append]
  congr 1
  by_cases hkey : result.revision.vaultId = v ∧ result.revision.fileId = f
  · rw [if_pos hkey, filter_cons_of_pos (by simpa using hkey)]
    rfl
  · rw [if_neg hkey, filter_cons_of_neg (by simpa using hkey)]
    rfl

/-- A file without a row has no history. -/
theorem Inv.history_nil (hs : Inv s) {f : FileId}
    (h : s.getById vaultId f = none) : history s vaultId f = [] := by
  refine filter_eq_nil_iff.mpr fun r hr hkey => ?_
  obtain ⟨hv, hf⟩ := of_decide_eq_true hkey
  obtain ⟨e, he, hev, heid⟩ := hs.owned r hr
  exact getById_none h he ⟨hev.trans hv, heid.trans hf⟩

/-- The numbers of a file's history so far. -/
theorem Inv.numbers (hs : Inv s) (vaultId : VaultId) (f : FileId) :
    (history s vaultId f).map (·.revision) = List.range' 1
      (((s.getById vaultId f).map (·.currentRevision)).getD 0) := by
  cases hcur : s.getById vaultId f with
  | none =>
    rw [hs.history_nil hcur]
    rfl
  | some c =>
    obtain ⟨hc, hv, hid⟩ := getById_spec hcur
    have hnum := hs.numbered c hc
    rw [hv, hid] at hnum
    exact hnum

variable (h : Committed s vaultId i now s' result)

include h

/-- The history ends in the new revision. -/
theorem history_self :
    history s' vaultId i.fileId = history s vaultId i.fileId ++ [result.revision] := by
  rw [history_append h.revisions, if_pos]
  rw [h.revision]
  exact ⟨rfl, rfl⟩

/-- The history of any other file is untouched. -/
theorem history_other {v : VaultId} {f : FileId} (hne : ¬ (v = vaultId ∧ f = i.fileId)) :
    history s' v f = history s v f := by
  rw [history_append h.revisions, if_neg, append_nil]
  rw [h.revision]
  rintro ⟨hv, hf⟩
  exact hne ⟨hv.symm, hf.symm⟩

theorem commit_numbered (hs : Inv s) :
    ∀ e ∈ s'.entries.rows, (history s' e.vaultId e.id).map (·.revision) =
      List.range' 1 e.currentRevision := by
  intro e' he'
  rcases h.entry_cases he' with rfl | ⟨e, he, hne, ha⟩
  · obtain ⟨hv, hid, hrev, _⟩ := h.file_key
    rw [hv, hid, hrev, history_self h, map_append, hs.numbers vaultId i.fileId,
      List.range'_1_concat, h.revision]
    show _ ++ [_] = _
    rw [Nat.add_comm]
    rfl
  · obtain ⟨hv, hid, hrev, _⟩ := ha.key
    rw [hv, hid, hrev, history_other h hne]
    exact hs.numbered e he

theorem commit_latest (hs : Inv s) : ∀ e ∈ s'.entries.rows, ∃ r,
      (history s' e.vaultId e.id).getLast? = some r ∧
        r.contentHash = e.contentHash ∧ r.size = some e.size := by
  intro e' he'
  rcases h.entry_cases he' with rfl | ⟨e, he, hne, ha⟩
  · obtain ⟨hv, hid, _, hhash, hsize, _⟩ := h.file_key
    refine ⟨result.revision, ?_, ?_, ?_⟩
    · rw [hv, hid, history_self h]
      exact List.getLast?_concat
    · rw [h.revision, hhash]
      rfl
    · rw [h.revision, hsize]
      rfl
  · obtain ⟨hv, hid, _, hhash, hsize, _⟩ := ha.key
    rw [hv, hid, history_other h hne, hhash, hsize]
    exact hs.latest e he

theorem commit_contributed (hs : Inv s) : ∀ j ∈ s'.journal.rows,
      s'.revisions.rows.countP (fun r => r.contributor = j.id) = revisionsDue j.state ∧
      s'.audit.countP (fun a => a.contributor = j.id) = auditsDue j.state := by
  intro j hj
  have hcontributor : result.revision.contributor = i.operationId := by
    rw [h.revision]
    rfl
  rw [h.journal] at hj
  rw [h.revisions, h.audit, countP_append_one, countP_append_one, hcontributor]
  obtain ⟨q, hq, ⟨hsel, rfl⟩ | ⟨hsel, rfl⟩⟩ := mem_updateRows.mp hj
  · obtain ⟨_, hid, hstate⟩ := of_decide_eq_true hsel
    have hold := hs.contributed q hq
    rw [mem_singleton.mp hstate] at hold
    show List.countP (fun r : RevisionRow => decide (r.contributor = q.id)) _ + _
        = 1 ∧
      List.countP (fun a : AuditRow => decide (a.contributor = q.id)) _ + _ = 1
    rw [hold.1, hold.2, decide_eq_true hid.symm]
    exact ⟨rfl, rfl⟩
  · have hne : i.operationId ≠ j.id := by
      intro heq
      rw [selects_of_id h.selected hq heq.symm] at hsel
      cases hsel
    rw [decide_eq_false hne]
    exact hs.contributed j hq

/-- **A COMMIT KEEPS THE INVARIANT.** -/
theorem commit_inv (hs : Inv s) : Inv s' := by
  have hids : ∀ r : JournalRow P, ({ r with
      state := .metadataCommitted, updatedAt := now, error := none } :
      JournalRow P).id = r.id := fun _ => rfl
  refine ⟨commit_numbered h hs, ?_, commit_latest h hs, commit_contributed h hs, ?_, ?_⟩
  · intro r hr
    rw [h.revisions] at hr
    rcases mem_append.mp hr with hr | hr
    · obtain ⟨e, he, hv, hid⟩ := hs.owned r hr
      obtain ⟨e', he', hv', hid'⟩ := h.entry_kept he
      exact ⟨e', he', hv'.trans hv, hid'.trans hid⟩
    · rw [mem_singleton.mp hr, h.revision]
      exact ⟨result.file, h.file_mem, h.file_key.1, h.file_key.2.1⟩
  · intro r hr
    rw [h.journal]
    refine exists_id_update hids ?_
    rw [h.revisions] at hr
    rcases mem_append.mp hr with hr | hr
    · exact hs.revisionsFrom r hr
    · rw [mem_singleton.mp hr, h.revision]
      exact selected_exists h.selected
  · intro a ha
    rw [h.journal]
    refine exists_id_update hids ?_
    rw [h.audit] at ha
    rcases mem_append.mp ha with ha | ha
    · exact hs.auditsFrom a ha
    · rw [mem_singleton.mp ha]
      exact selected_exists h.selected

theorem commit_stays : Stays s s' := by
  refine stays_update h.journal fun r hsel => ?_
  rw [mem_singleton.mp (of_decide_eq_true hsel).2.2]
  rfl

end Commit

/-! ## Whole runs -/

/-- No change of files, or a commit. -/
inductive Outcome (s s' : Store P) : Call P → Prop where
  | quiet (c : Call P) : s'.entries = s.entries → s'.revisions = s.revisions →
      (Inv s → Inv s') → Stays s s' → Outcome s s' c
  | commit (vaultId : VaultId) (i : CommitMutationInput)
      (hook : CommitHookPhase → Except StateError Unit) (now : Int)
      (result : MutationCommitResult) :
      Committed s vaultId i now s' result →
      Outcome s s' (.commitMutation vaultId i hook now)

theorem JournalMove.outcome (m : JournalMove s s' w f) : Outcome s s' c := by
  obtain ⟨journal, hframe⟩ := m.frame
  refine .quiet c ?_ ?_ m.inv m.stays
  · rw [hframe]
  · rw [hframe]

/-- The discarding loop, by what is left of it. -/
theorem discard_outcome (journals : List (JournalRow P)) : ∀ {s s' : Store P},
      discardLegacyMemoryJournals vaultId now s journals = .ok s' →
      s'.entries = s.entries ∧ s'.revisions = s.revisions ∧
        (Inv s → Inv s') ∧ Stays s s' := by
  induction journals with
  | nil =>
    intro s s' h
    cases h
    exact ⟨rfl, rfl, id, fun j hj _ => hj⟩
  | cons journal rest ih =>
    intro s s' h
    simp only [discardLegacyMemoryJournals] at h
    split at h
    next => cases h
    next hstate =>
      split at h
      next table hu =>
        split at h
        next =>
          have hopen : settled journal.state = false := by
            rw [not_or, not_not, not_not] at hstate
            have hmem := hstate.2
            simp only [mem_cons, not_mem_nil, or_false] at hmem
            rcases hmem with hst | hst | hst
            · rw [hst]; rfl
            · rw [hst]; rfl
            · rw [hst]; rfl
          have m : JournalMove s { s with journal := table } _ _ :=
            ⟨⟨table, rfl⟩, Table.update_rows hu, fun r hw =>
              ⟨by rw [(of_decide_eq_true hw).2.2.1]; exact hopen, rfl, rfl⟩,
              fun _ => rfl⟩
          obtain ⟨he, hr, hinv, hstays⟩ := ih h
          refine ⟨he, hr, fun hs => hinv (m.inv hs), ?_⟩
          intro j hj hsettled
          exact hstays j (m.stays j hj hsettled) hsettled
        next => cases h
      next => cases h

/-- **WHAT A CALL CAN DO**, said once for all of them. -/
theorem perform_outcome [PayloadAccess P] (h : perform s c = .ok s') : Outcome s s' c := by
  cases c with
  | prepareOperation vaultId i now =>
    obtain ⟨⟨journal, hframe⟩, _⟩ := prepareOperation_ok h
    refine .quiet _ ?_ ?_ (prepareOperation_inv h) (prepareOperation_stays h)
    · rw [hframe]
    · rw [hframe]
  | updateOperationPayload vaultId id payload proposedHash now =>
    refine (updateJournal_move h (by decide) (fun _ => rfl) ?_).outcome
    intro r hr
    rw [show r.state = .prepared from mem_singleton.mp hr]
    exact ⟨rfl, rfl⟩
  | setProposedHash vaultId id proposedHash now =>
    obtain ⟨_, _, h⟩ := bind_ok_iff.mp h
    refine (updateJournal_move h (by decide) (fun _ => rfl) ?_).outcome
    intro r hr
    rw [show r.state = .prepared from mem_singleton.mp hr]
    exact ⟨rfl, rfl⟩
  | markFileCommitted vaultId id proposedHash now =>
    exact (updateJournal_move h (by decide) (fun _ => rfl) fun _ _ => ⟨rfl, rfl⟩).outcome
  | commitMutation vaultId i hook now =>
    obtain ⟨result, hresult⟩ := map_fst_ok h
    exact .commit vaultId i hook now result (commitMutation_ok hresult)
  | markRolledBack vaultId id error now =>
    exact (updateJournal_move h (by decide) (fun _ => rfl) fun _ _ => ⟨rfl, rfl⟩).outcome
  | markNeedsReview vaultId id error now =>
    exact (updateJournal_move h (by decide) (fun _ => rfl) fun _ _ => ⟨rfl, rfl⟩).outcome
  | supersedeReplayedCreate vaultId w now =>
    obtain ⟨result, hresult⟩ := map_fst_ok h
    obtain ⟨hstays, he, hr⟩ := supersede_stays hresult
    exact .quiet _ he hr (supersede_inv hresult) hstays
  | supersedeReviewedReplayedCreate vaultId w now =>
    obtain ⟨result, hresult⟩ := map_fst_ok h
    obtain ⟨hstays, he, hr⟩ := supersede_stays hresult
    exact .quiet _ he hr (supersede_inv hresult) hstays
  | discardLegacyMemoryJournals vaultId journals now =>
    obtain ⟨he, hr, hinv, hstays⟩ := discard_outcome journals h
    exact .quiet _ he hr hinv hstays

theorem step_outcome [PayloadAccess P] (h : step s c = some s') : Outcome s s' c := by
  unfold step at h
  cases hp : perform s c with
  | ok t =>
    rw [hp] at h
    cases h
    exact perform_outcome hp
  | error e =>
    rw [hp] at h
    cases h
    exact .quiet c rfl rfl id fun j hj _ => hj

theorem step_inv [PayloadAccess P] (hs : Inv s) (h : step s c = some s') : Inv s' := by
  cases step_outcome h with
  | quiet _ _ _ hinv _ => exact hinv hs
  | commit vaultId i hook now result hc => exact commit_inv hc hs

theorem step_stays [PayloadAccess P] (h : step s c = some s') : Stays s s' := by
  cases step_outcome h with
  | quiet _ _ _ _ hstays => exact hstays
  | commit vaultId i hook now result hc => exact commit_stays hc

theorem reach_inv [PayloadAccess P] {vaults : List VaultId}
    (h : Reach step Always (Store.empty P vaults) s) : Inv s :=
  h.invariant (fun _ _ _ hs hstep _ => step_inv hs hstep) (empty_inv vaults)

theorem reach_stays [PayloadAccess P] (h : Reach step Always s s') : Stays s s' := by
  refine h.invariant ?_ fun j hj _ => hj
  intro t c t' ht hstep _ j hj hsettled
  exact step_stays hstep j (ht j hj hsettled) hsettled

/-! ## Paths -/

/-- A commit that records the path of its own row. -/
def NamesItsPath : Call P → Prop
  | .commitMutation _ i _ _ => i.pathAfter = none ∨ i.pathAfter = some i.path
  | _ => True

/-- A commit that moves a tombstone to this path. -/
def ArchivesTo (path : VaultPath) : Call P → Prop
  | .commitMutation _ i _ _ => i.tombstoneArchivePath = some path
  | _ => False

/-- A file's last revision has its path. -/
def PathsRecorded (calls : List (Call P)) (s : Store P) : Prop :=
  ∀ e ∈ s.entries.rows, (∃ r, (history s e.vaultId e.id).getLast? = some r ∧
      r.pathAfter = some e.path) ∨
    e.isActive = false ∧ ∃ c ∈ calls, ArchivesTo e.path c

theorem step_paths [PayloadAccess P] (calls : List (Call P)) (s : Store P) (c : Call P)
    (s' : Store P) (hs : PathsRecorded calls s) (hnames : NamesItsPath c) (h : step s c = some s') :
    PathsRecorded (calls ++ [c]) s' := by
  have hgrow : ∀ path, (∃ d ∈ calls, ArchivesTo path d) →
      ∃ d ∈ calls ++ [c], ArchivesTo path d := by
    rintro path ⟨d, hd, harch⟩
    exact ⟨d, mem_append_left _ hd, harch⟩
  cases step_outcome h with
  | quiet _ he hr _ _ =>
    intro e hmem
    rw [he] at hmem
    have hsame : history s' e.vaultId e.id = history s e.vaultId e.id := by
      unfold history
      rw [hr]
    rw [hsame]
    rcases hs e hmem with hrec | ⟨hdead, harch⟩
    · exact .inl hrec
    · exact .inr ⟨hdead, hgrow e.path harch⟩
  | commit vaultId i hook now result hc =>
    intro e' he'
    rcases hc.entry_cases he' with rfl | ⟨e, he, hne, ha⟩
    · obtain ⟨hv, hid, _, _, _, hpath⟩ := hc.file_key
      refine .inl ⟨result.revision, ?_, ?_⟩
      · rw [hv, hid, history_self hc]
        exact List.getLast?_concat
      · have hafter : i.pathAfter = none ∨ i.pathAfter = some i.path := hnames
        rw [hc.revision, hpath]
        show i.pathAfter.or (some i.path) = some i.path
        rcases hafter with hafter | hafter
        · rw [hafter]; rfl
        · rw [hafter]; rfl
    · rcases ha with rfl | ⟨hdead, _, path, hpath, rfl⟩
      · rw [history_other hc hne]
        rcases hs e' he with hrec | ⟨hdead, harch⟩
        · exact .inl hrec
        · exact .inr ⟨hdead, hgrow e'.path harch⟩
      · have hthis : ArchivesTo path (Call.commitMutation (P := P) vaultId i hook now) := hpath
        refine .inr ⟨hdead, _, mem_append_right _ ?_, hthis⟩
        exact mem_singleton_self _

/-! ## The result -/

/-- **THE REVISION STORE INVARIANT.**  Revisions are numbered `1 … current`, rows agree with
    their last revision, no two rows share a path, each journal row has the revision and audit
    row of its state, and settled states are final. -/
theorem revision_store_invariant [PayloadAccess P] {vaults : List VaultId} {calls : List (Call P)}
    {s : Store P} (h : run step (Store.empty P vaults) calls = some s) :
    (∀ vaultId fileId, (history s vaultId fileId).map (·.revision) = List.range' 1
        (((s.getById vaultId fileId).map (·.currentRevision)).getD 0)) ∧
    (∀ e ∈ s.entries.rows, ∃ r, (history s e.vaultId e.id).getLast? = some r ∧
      r.contentHash = e.contentHash ∧ r.size = some e.size) ∧
    ((∀ c ∈ calls, NamesItsPath c) → PathsRecorded calls s) ∧
    (∀ e ∈ s.entries.rows, ∀ e' ∈ s.entries.rows, e.vaultId = e'.vaultId →
      e.path = e'.path → e = e') ∧
    (∀ j ∈ s.journal.rows, s.revisions.rows.countP (fun r => r.contributor = j.id) =
        revisionsDue j.state ∧
      s.audit.countP (fun a => a.contributor = j.id) = auditsDue j.state) ∧
    (∀ s', Reach step Always s s' → ∀ j ∈ s.journal.rows,
      settled j.state → j ∈ s'.journal.rows) := by
  have hinv := reach_inv (Reach.of_run h)
  refine ⟨hinv.numbers, hinv.latest, ?_, ?_, hinv.contributed, ?_⟩
  · intro hnames
    have hempty : PathsRecorded [] (Store.empty P vaults) :=
      nofun
    exact run_invariant step_paths calls hempty hnames h
  · intro e he e' he' hv hp
    exact s.entries.ok.2.eq_of_key he he' rfl (by rw [hv, hp])
  · intro s' hrun
    exact reach_stays hrun

/-- **HISTORY IS APPEND-ONLY**: revisions stay in place. -/
theorem history_append_only [PayloadAccess P] (h : Reach step Always s s') (v : VaultId) (f : FileId) :
    history s v f <+: history s' v f := by
  refine h.invariant (P := fun t => history s v f <+: history t v f) ?_ prefix_rfl
  intro t c t' ht hstep _
  refine ht.trans ?_
  cases step_outcome hstep with
  | quiet _ _ hr _ _ => rw [history, history, hr]
  | commit vaultId i hook now result hc =>
    by_cases hfile : v = vaultId ∧ f = i.fileId
    · obtain ⟨rfl, rfl⟩ := hfile
      rw [history_self hc]
      exact prefix_append _ _
    · rw [history_other hc hfile]

/-! ## Two runs that show the limits -/

instance : PayloadAccess PayloadView := ⟨some⟩

section

variable (operationId : OperationId) (fileId : FileId)

/-- The payload of a create of one small file. -/
def createView : PayloadView :=
  ⟨some .create, some fileId, some ["a.md"], some "h", some 3,
    some operationId, some .file, true, some ["a.md"], true, some true⟩

def createIntent : PrepareOperationInput PayloadView :=
  ⟨operationId, .create, none, some ["a.md"], some fileId, none, none,
    some "h", none, createView operationId fileId, none⟩

def createCommit (pathAfter : VaultPath) : CommitMutationInput where
  operationId
  fileId
  entryType := .file
  path := ["a.md"]
  pathBefore := none
  pathAfter := some pathAfter
  expectedRevision := none
  requireAbsent := true
  tombstoneArchivePath := none
  contentHash := some "h"
  historyBlobHash := none
  size := 3
  modifiedAt := 0
  filesystemIdentity := none
  deletedAt := none
  operation := .create
  actor := ⟨.system, none⟩
  sourcePlane := .system
  idempotencyKey := none
  auditAction := "file.create"
  outboxEvents := []

/-- One create, prepared at `now` and committed. -/
def createCalls (now : Int) (pathAfter : VaultPath) : List (Call PayloadView) :=
  [.prepareOperation 1 (createIntent operationId fileId) now,
    .markFileCommitted 1 operationId (some "h") now,
    .commitMutation 1 (createCommit operationId fileId pathAfter)
      (fun _ => .ok ()) (now + 1)]

end

theorem revision_store_invariant_create :
    ∃ s : Store PayloadView, run step (Store.empty PayloadView [1])
      (createCalls 7 70 0 ["a.md"]) = some s ∧
      (history s 1 70).map (·.revision) = [1] ∧
      PathsRecorded (createCalls 7 70 0 ["a.md"]) s := by
  have hrun : run step (Store.empty PayloadView [1])
      (createCalls 7 70 0 ["a.md"]) = some _ := rfl
  have hinv := revision_store_invariant hrun
  have hnames : ∀ c ∈ createCalls 7 70 0 ["a.md"], NamesItsPath c := by
    intro c hc
    simp only [createCalls, mem_cons, not_mem_nil, or_false] at hc
    rcases hc with rfl | rfl | rfl
    · trivial
    · trivial
    · exact .inr rfl
  exact ⟨_, hrun, hinv.1 1 70, hinv.2.2.1 hnames⟩

/-- Replacing the text of that file. -/
def replaceCalls : List (Call PayloadView) :=
  [.prepareOperation 1 { createIntent 8 70 with
      operation := .replace, sourcePath := some ["a.md"], expectedRevision := some 1 } 2,
    .markFileCommitted 1 8 (some "h") 2,
    .commitMutation 1 { createCommit 8 70 ["a.md"] with
      pathBefore := some ["a.md"], expectedRevision := some 1, requireAbsent := false,
      operation := .replace, auditAction := "file.replace" } (fun _ => .ok ()) 3]

theorem history_append_only_replace : ∃ s s' : Store PayloadView,
    (history s 1 70).map (·.revision) = [1] ∧ (history s' 1 70).map (·.revision) = [1, 2] ∧
      history s 1 70 <+: history s' 1 70 := by
  obtain ⟨s, hcreate, hfirst⟩ : ∃ s, run step (Store.empty PayloadView [1])
      (createCalls 7 70 0 ["a.md"]) = some s ∧ (history s 1 70).map (·.revision) = [1] := ⟨_, rfl, rfl⟩
  have hreplace : ((run step (Store.empty PayloadView [1]) (createCalls 7 70 0 ["a.md"])).bind
      (run step · replaceCalls)).map (fun s' => (history s' 1 70).map (·.revision)) =
      some [1, 2] := rfl
  rw [hcreate] at hreplace
  obtain ⟨s', hrun, hboth⟩ := Option.map_eq_some_iff.mp hreplace
  exact ⟨s, s', hfirst, hboth, history_append_only (Reach.of_run hrun) 1 70⟩

/-- Another path recorded; a replay's audit row. -/
theorem revision_store_limits :
    (∃ s : Store PayloadView, Reach step Always (Store.empty PayloadView [1]) s ∧
      ∃ e ∈ s.entries.rows, e.isActive ∧ ∀ r, (history s e.vaultId e.id).getLast? = some r →
          r.pathAfter ≠ some e.path) ∧
    (∃ s : Store PayloadView, Reach step Always (Store.empty PayloadView [1]) s ∧
      ∃ j ∈ s.journal.rows, j.state ≠ .metadataCommitted ∧
        s.audit.countP (fun a => a.contributor = j.id) ≠ 0) := by
  constructor
  · have hrun : run step (Store.empty PayloadView [1])
        (createCalls 7 70 0 ["b.md"]) = some _ := rfl
    refine ⟨_, Reach.of_run hrun, _, mem_cons_self, rfl, ?_⟩
    intro r hr
    cases Option.some.inj hr
    decide
  · have hrun : run step (Store.empty PayloadView [1])
        ([.prepareOperation 1 (createIntent 7 70) 0, .markFileCommitted 1 7 (some "h") 0] ++
          createCalls 8 80 1 ["a.md"] ++
          [.supersedeReplayedCreate 1 ⟨7, ["a.md"], 70, 80, 1, "h"⟩ 3]) =
        some _ := rfl
    exact ⟨_, Reach.of_run hrun, _, mem_cons_self, by decide, by decide⟩

end RevisionStore
