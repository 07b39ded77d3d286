import McpVault.CoreStepProofs

/-! # A content write, followed call by call

Wherever the process stops, a write is in one stage of `WriteStage`: only directories were made;
its journal row is there but says nothing of the bytes; the row describes the bytes in the
temporary file; the row was closed after a failure; the bytes are at the path; the metadata is
committed. -/

namespace VaultCore

open VaultDomain FileStore VaultStorage Program SqlTable List Option

/-! ## The journal rows of one task -/

/-- Only rows of the journal are added. -/
def Intact (db db' : Store StoredPayload) (rows : List (JournalRow StoredPayload)) : Prop :=
  (∃ journal, db' = { db with journal }) ∧ db'.journal.rows = db.journal.rows ++ rows

/-- A row as prepared, with state and payload of now. -/
structure Tracks (input : PrepareOperationInput StoredPayload) (vaultId : VaultId)
    (state : JournalState) (payload : CorePayload) (row : JournalRow StoredPayload) :
    Prop where
  id : row.id = input.id
  vaultId : row.vaultId = vaultId
  sourcePath : row.sourcePath = input.sourcePath
  destinationPath : row.destinationPath = input.destinationPath
  priorHash : row.priorHash = input.priorHash
  tempPath : row.tempPath = input.tempPath
  idempotencyKey : row.idempotencyKey = input.idempotencyKey
  state : row.state = state
  payload : row.payload = some payload

section Journal

variable {db db' db'' : Store StoredPayload} {rows : List (JournalRow StoredPayload)}
  {row : JournalRow StoredPayload} {vaultId : VaultId} {id : OperationId} {now : Int}
  {input : PrepareOperationInput StoredPayload} {states : List JournalState}
  {f : JournalRow StoredPayload → JournalRow StoredPayload} {failure : StateError}

theorem intact_refl : Intact db db [] := ⟨⟨db.journal, rfl⟩, by simp⟩

theorem Intact.prepare (h : Intact db db' rows)
    (hprepare : prepareOperation db' vaultId input now = .ok db'') :
    Intact db db'' (rows ++ [input.row vaultId now]) := by
  obtain ⟨⟨journal, rfl⟩, hrows⟩ := h
  obtain ⟨⟨journal', rfl⟩, hrows'⟩ := prepareOperation_ok hprepare
  exact ⟨⟨journal', rfl⟩, by rw [hrows', hrows, append_assoc]⟩

/-- Updating an added row leaves older ones. -/
theorem Intact.update (h : Intact db db' rows) (hrow : row ∈ rows) (hid : row.id = id)
    (hupdate : updateJournal db' vaultId id states f failure = .ok db'') :
    Intact db db'' (updateRows (selects vaultId id states) f rows) ∧
      rows.countP (selects vaultId id states) = 1 := by
  obtain ⟨⟨journal, rfl⟩, hrows⟩ := h
  obtain ⟨⟨journal', rfl⟩, hrows', hone⟩ := updateJournal_ok hupdate
  have hunique := journal.ok.1
  rw [show journal.rows = _ from hrows] at hrows' hone hunique
  have hold : ∀ r ∈ db.journal.rows, selects vaultId id states r = false := by
    intro r hr
    refine decide_eq_false fun hsel => ?_
    exact hunique.fresh_of_append hrow (congrArg some hid) r hr (congrArg some hsel.2.1)
  refine ⟨⟨⟨journal', rfl⟩, ?_⟩, ?_⟩
  · rw [hrows', updateRows_append, updateRows_of_none hold]
  · have hzero : db.journal.rows.countP (selects vaultId id states) = 0 :=
      countP_eq_zero.mpr fun r hr => by simp [hold r hr]
    rwa [countP_append, hzero, Nat.zero_add] at hone

theorem Intact.update_one (h : Intact db db' [row]) (hid : row.id = id)
    (hupdate : updateJournal db' vaultId id states f failure = .ok db'') :
    Intact db db'' [f row] ∧ row.state ∈ states := by
  obtain ⟨hnext, hone⟩ := h.update (mem_singleton_self row) hid hupdate
  have hsel : selects vaultId id states row := by
    by_contra hno
    rw [countP_cons_of_neg hno] at hone
    cases hone
  exact ⟨by simpa [updateRows, hsel] using hnext, (of_decide_eq_true hsel).2.2⟩

variable {state : JournalState} {payload payload' : CorePayload} {hash : Option String}

theorem tracks_row (h : input.payload = some payload) :
    Tracks input vaultId .prepared payload (input.row vaultId now) :=
  ⟨rfl, rfl, rfl, rfl, rfl, rfl, rfl, rfl, h⟩

variable (h : Intact db db' [row]) (tracks : Tracks input vaultId state payload row)

include h tracks

/-- The row gets another payload. -/
theorem Intact.describe
    (hupdate : updateOperationPayload db' vaultId input.id (some payload') hash now = .ok db'') :
    ∃ row', Intact db db'' [row'] ∧ Tracks input vaultId .prepared payload' row' := by
  obtain ⟨hnext, hstate⟩ := h.update_one tracks.id hupdate
  exact ⟨_, hnext, { tracks with state := mem_singleton.mp hstate, payload := rfl }⟩

/-- The row says that the file is in place. -/
theorem Intact.fileCommit (hupdate : markFileCommitted db' vaultId input.id hash now = .ok db'') :
    ∃ row', Intact db db'' [row'] ∧ Tracks input vaultId .fileCommitted payload row' := by
  obtain ⟨hnext, _⟩ := h.update_one tracks.id hupdate
  exact ⟨_, hnext, { tracks with state := rfl }⟩

/-- The row is closed. -/
theorem Intact.rollBack {reason : Option String}
    (hupdate : markRolledBack db' vaultId input.id reason now = .ok db'') :
    ∃ row', Intact db db'' [row'] ∧ Tracks input vaultId .rolledBack payload row' := by
  obtain ⟨hnext, _⟩ := h.update_one tracks.id hupdate
  exact ⟨_, hnext, { tracks with state := rfl }⟩

end Journal

/-! ## Stages -/

/-- Which of the lasting calls of a write have succeeded. -/
structure Phase where
  (prepared described installed closed : Bool)
  deriving DecidableEq

def Milestone.isPrepared : Milestone → Bool
  | .prepared _ => true
  | _ => false

def Milestone.isDescribed : Milestone → Bool
  | .described _ => true
  | _ => false

def Milestone.isInstalled : Milestone → Bool
  | .installed _ => true
  | _ => false

def Milestone.isClosed : Milestone → Bool
  | .closed _ => true
  | _ => false

def phaseOf (marks : List Milestone) : Phase :=
  ⟨marks.any (·.isPrepared), marks.any (·.isDescribed), marks.any (·.isInstalled),
    marks.any (·.isClosed)⟩

/-- Making directories does not count. -/
theorem phaseOf_made {marks more : List Milestone} (h : ∀ m ∈ more, ∃ q, m = Milestone.made q) :
    phaseOf (marks ++ more) = phaseOf marks := by
  have hno : ∀ f : Milestone → Bool, (∀ q, f (.made q) = false) → more.any f = false := by
    intro f hf
    refine any_eq_false.mpr fun m hm => ?_
    obtain ⟨q, rfl⟩ := h m hm
    rw [hf q]
    exact Bool.false_ne_true
  simp [phaseOf, hno Milestone.isPrepared (fun _ => rfl),
    hno Milestone.isDescribed (fun _ => rfl), hno Milestone.isInstalled (fun _ => rfl),
    hno Milestone.isClosed (fun _ => rfl)]

/-- While the temporary file is written. -/
def Staging (t : Tree) (path temp : VaultPath) (t' : Tree) : Prop :=
  ∃ paved, Paved path.dropLast t paved ∧ paved.isDir path.dropLast ∧
    (∀ q, q ≠ temp → t'.node q = paved.node q) ∧
    (t'.isDir temp → t.isDir temp)

/-- The tree once the temporary file is at the path. -/
def Installed (t : Tree) (path temp : VaultPath) (bytes : Bytes) (t' : Tree) : Prop :=
  ∃ paved, Paved path.dropLast t paved ∧ paved.isDir path.dropLast ∧
    (∀ q, q ≠ temp → q ≠ path → t'.node q = paved.node q) ∧
    t'.bytes path = some bytes ∧ (temp ≠ path → t'.node temp = none)

/-- What a write decides before its journal row. -/
structure Ticket where
  payload : CorePayload
  temp : VaultPath
  priorHash : Option String

def Ticket.input (k : Ticket) : PrepareOperationInput StoredPayload :=
  k.payload.prepareInput k.payload.operationId (some k.payload.path) (some k.temp)
    k.priorHash none

/-- It describes `bytes` as seen after the rename. -/
def CorePayload.finished (p : CorePayload) (env : Env) (bytes : Bytes)
    (modifiedAt : Option Int) (identity : Option String) : CorePayload :=
  { p.written (bytes.length, env.hasher.digest bytes) with
    modifiedAt, filesystemIdentity := identity }

/-- The metadata of the bytes at the path is committed. -/
def WriteDone (env : Env) (w : World) (valid : Ticket → Prop) (path : VaultPath)
    (bytes : Bytes) (result : MutationResult) (db : Store StoredPayload) (tree : Tree) :
    Prop :=
  ∃ k row db₁ modifiedAt identity now now' commit, valid k ∧ Intact w.db db₁ [row] ∧
    Tracks k.input env.context.id .fileCommitted
      (k.payload.finished env bytes modifiedAt identity) row ∧
    commitMutation db₁ env.context.id
      ((k.payload.finished env bytes modifiedAt identity).toCommitInput now)
      (fun _ => .ok ()) now' = .ok (db, commit) ∧
    result = mutationResult commit.file commit.revision ∧
    Installed w.tree path k.temp bytes tree ∧ bytes.length < 2 ^ 63

/-- How far a write of `bytes` to `path` has come. -/
inductive WriteStage (env : Env) (w : World) (valid : Ticket → Prop) (path : VaultPath)
    (bytes : Bytes) (marks : List Milestone) (db : Store StoredPayload) (tree : Tree) :
    Prop where
  | idle (phase : phaseOf marks = ⟨false, false, false, false⟩) (same : db = w.db)
      (paved : Paved path.dropLast w.tree tree)
  | blank {k : Ticket} {row : JournalRow StoredPayload}
      (phase : phaseOf marks = ⟨true, false, false, false⟩) (ticket : valid k)
      (intact : Intact w.db db [row])
      (tracks : Tracks k.input env.context.id .prepared k.payload row)
      (staging : Staging w.tree path k.temp tree)
  | described {k : Ticket} {row : JournalRow StoredPayload}
      (phase : phaseOf marks = ⟨true, true, false, false⟩) (ticket : valid k)
      (intact : Intact w.db db [row])
      (tracks : Tracks k.input env.context.id .prepared
        (k.payload.written (bytes.length, env.hasher.digest bytes)) row)
      (staging : Staging w.tree path k.temp tree) (short : bytes.length < 2 ^ 63)
  | closed {k : Ticket} {row : JournalRow StoredPayload} {payload : CorePayload}
      (installed : (phaseOf marks).installed = false)
      (closed : (phaseOf marks).closed) (ticket : valid k)
      (intact : Intact w.db db [row])
      (tracks : Tracks k.input env.context.id .rolledBack payload row)
      (staging : Staging w.tree path k.temp tree)
  | installed {k : Ticket} {row : JournalRow StoredPayload} {state : JournalState}
      {modifiedAt : Option Int} {identity : Option String}
      (phase : phaseOf marks = ⟨true, true, true, false⟩) (ticket : valid k)
      (intact : Intact w.db db [row])
      (open' : state = .prepared ∨ state = .fileCommitted)
      (tracks : Tracks k.input env.context.id state
        (k.payload.finished env bytes modifiedAt identity) row)
      (installed : Installed w.tree path k.temp bytes tree) (short : bytes.length < 2 ^ 63)
  | committed {result : MutationResult}
      (phase : phaseOf marks = ⟨true, true, true, false⟩)
      (done : WriteDone env w valid path bytes result db tree)

/-! ## The tree of a write -/

section Trees

variable {t t₁ t₂ : Tree} {path temp : VaultPath} {bytes : Bytes}

/-- Nothing is staged yet when the way is paved. -/
theorem staging_start (hpaved : Paved path.dropLast t t₁) (hdir : t₁.isDir path.dropLast)
    {name : String} (hname : temp = path.dropLast ++ [name]) : Staging t path temp t₁ := by
  have htemp : ¬ temp <+: path.dropLast := by
    intro h
    have hlen := h.length_le
    rw [hname, length_append, length_singleton] at hlen
    omega
  refine ⟨t₁, hpaved, hdir, fun _ _ => rfl, fun h => ?_⟩
  rwa [Tree.isDir, hpaved.node_of_not_prefix htemp] at h

/-- A change of the temporary name alone. -/
theorem Staging.step (h : Staging t path temp t₁) (hframe : ∀ q, q ≠ temp → t₂.node q = t₁.node q)
    (htemp : t₂.isDir temp → t₁.isDir temp) : Staging t path temp t₂ := by
  obtain ⟨paved, hpaved, hdir, hsame, hkind⟩ := h
  exact ⟨paved, hpaved, hdir, fun q hq => (hframe q hq).trans (hsame q hq),
    fun hd => hkind (htemp hd)⟩

/-- The bytes are where they belong after the rename. -/
theorem Staging.install (h : Staging t path temp t₁) {n : Node} (hn : n.content = .file bytes)
    (hnode : t₂.node = Function.update (Function.update t₁.node temp none) path (some n)) :
    Installed t path temp bytes t₂ := by
  obtain ⟨paved, hpaved, hdir, hsame, _⟩ := h
  refine ⟨paved, hpaved, hdir, fun q htemp hpath => ?_, ?_, fun htemp => ?_⟩
  · rw [hnode, Function.update_of_ne hpath, Function.update_of_ne htemp, hsame q htemp]
  · refine Tree.bytes_eq_some.mpr ⟨n.identity, ?_⟩
    rw [hnode, Function.update_self, ← hn]
  · rw [hnode, Function.update_of_ne htemp, Function.update_self]

end Trees

/-! ## The procedures of a write -/

section Walk

variable {env : Env} {w v : World} {valid : Ticket → Prop} {path : VaultPath}
  {bytes : Bytes} {done : List Milestone} {k : Ticket} {row : JournalRow StoredPayload}
  {payload : CorePayload}

/-- The stage of a traced state. -/
abbrev writing (env : Env) (w : World) (valid : Ticket → Prop) (path : VaultPath)
    (bytes : Bytes) (s : List Milestone × World) : Prop :=
  WriteStage env w valid path bytes s.1 s.2.db s.2.tree

theorem phaseOf_concat (marks : List Milestone) (m : Milestone) :
    phaseOf (marks ++ [m]) = ⟨(phaseOf marks).prepared || m.isPrepared,
      (phaseOf marks).described || m.isDescribed,
      (phaseOf marks).installed || m.isInstalled,
      (phaseOf marks).closed || m.isClosed⟩ := by
  simp [phaseOf]

/-- A failed write closes its row, or stops. -/
theorem rollBack_sat {α : Type} {Q : Except VaultError α → List Milestone × World → Prop}
    {reason : String} {error : VaultError} (ticket : valid k) (intact : Intact w.db v.db [row])
    (tracks : Tracks k.input env.context.id .prepared payload row)
    (staging : Staging w.tree path k.temp v.tree) (hphase : (phaseOf done).installed = false)
    (here : writing env w valid path bytes (done, v)) (hQ : ∀ s, Q (.error error) s) :
    Sat (traced env) (writing env w valid path bytes) Q
      (rollBack k.payload.operationId reason error) (done, v) := by
  refine sat_tried rfl here (fun db hdb => ?_) fun x _ => sat_fail here (hQ _)
  obtain ⟨row', hintact, hclosed⟩ := intact.rollBack tracks hdb
  refine sat_fail (.closed ?_ ?_ ticket hintact hclosed staging) (hQ _)
  · show (phaseOf (done ++ [.closed k.payload.operationId])).installed = false
    rw [phaseOf_concat, hphase]
    rfl
  · show (phaseOf (done ++ [.closed k.payload.operationId])).closed
    rw [phaseOf_concat]
    exact Bool.or_true _

variable (phase : phaseOf done = ⟨true, false, false, false⟩) (ticket : valid k)
  (intact : Intact w.db v.db [row])
  (tracks : Tracks k.input env.context.id .prepared k.payload row)

include phase ticket intact tracks

theorem beginWrite_sat (staging : Staging w.tree path k.temp v.tree) (reason : String) :
    Sat (traced env) (writing env w valid path bytes)
      (fun r t => r = .ok () → t.1 = done ∧ t.2.db = v.db ∧
        Staging w.tree path k.temp t.2.tree ∧ t.2.tree.bytes k.temp = some [])
      (beginWrite k.payload.operationId k.temp reason) (done, v) := by
  have here : writing env w valid path bytes (done, v) :=
    .blank phase ticket intact tracks staging
  cases hbegun : prepareTemp v.tree k.temp (env.identity v.tick) with
  | ok tree =>
    obtain ⟨hframe, hbytes⟩ := prepareTemp_ok hbegun
    have hstaging := staging.step hframe fun h => by
      rw [Tree.isDir_of_bytes hbytes] at h
      cases h
    refine sat_call (a := .ok ()) (v := { v with tree, tick := v.tick + 1 })
      (by simp only [exec, World.changed, hbegun]) here ?_
    exact sat_ret (.blank phase ticket intact tracks hstaging)
      fun _ => ⟨rfl, rfl, hstaging, hbytes⟩
  | error e =>
    refine sat_call (a := .error e) (v := { v with tick := v.tick + 1 })
      (by simp only [exec, World.changed, hbegun]) here ?_
    exact rollBack_sat ticket intact tracks staging (by simp [noted, mark, phase]) here
      fun _ h => by cases h

/-- Every chunk lands in the temporary file. -/
theorem writeChunks_sat (chunks : List Bytes) {written : Bytes}
    (staging : Staging w.tree path k.temp v.tree)
    (hwritten : v.tree.bytes k.temp = some written) (hshort : written.length < 2 ^ 63) :
    Sat (traced env) (writing env w valid path bytes)
      (fun r t => t.1 = done ∧ t.2.db = v.db ∧ Staging w.tree path k.temp t.2.tree ∧
        (r = .ok () → t.2.tree.bytes k.temp = some (written ++ chunks.flatten) ∧
          (written ++ chunks.flatten).length < 2 ^ 63))
      (writeChunks k.temp chunks) (done, v) := by
  induction chunks generalizing v written with
  | nil =>
    refine sat_ret (.blank phase ticket intact tracks staging)
      ⟨rfl, rfl, staging, fun _ => ?_⟩
    simpa using ⟨hwritten, hshort⟩
  | cons chunk chunks ih =>
    have here : writing env w valid path bytes (done, v) :=
      .blank phase ticket intact tracks staging
    cases hchunk : writeChunk v.tree k.temp chunk with
    | ok tree =>
      obtain ⟨hframe, hbytes, hshort'⟩ := writeChunk_ok hwritten hchunk
      have hstaging := staging.step hframe fun h => by
        rw [Tree.isDir_of_bytes hbytes] at h
        cases h
      refine sat_granted (b := ()) (v := { v with tree, tick := v.tick + 1 })
        (by simp only [exec, World.changed, hchunk]) here ?_
      have hrest := ih (v := { v with tree := tree, tick := v.tick + 1 }) intact
        hstaging hbytes hshort'
      rw [append_assoc] at hrest
      exact hrest
    | error e =>
      exact sat_refused (x := e) (v := { v with tick := v.tick + 1 })
        (by simp only [exec, World.changed, hchunk]) here
        ⟨here, rfl, rfl, staging, fun h => by cases h⟩

/-- The stream ends in the file, or it goes. -/
theorem writeFrom_sat (reader : Reader) (staging : Staging w.tree path k.temp v.tree)
    (hempty : v.tree.bytes k.temp = some []) :
    Sat (traced env) (writing env w valid path bytes)
      (fun r t => t.1 = done ∧ t.2.db = v.db ∧ Staging w.tree path k.temp t.2.tree ∧
        ∀ progress, r = .ok progress →
          progress = (reader.chunks.flatten.length, env.hasher.digest reader.chunks.flatten) ∧
          t.2.tree.bytes k.temp = some reader.chunks.flatten ∧
          reader.chunks.flatten.length < 2 ^ 63)
      (writeFrom env k.temp reader) (done, v) := by
  refine sat_bind (R := fun r t => t.1 = done ∧ t.2.db = v.db ∧
      Staging w.tree path k.temp t.2.tree ∧ ∃ streamed, r = .ok streamed ∧
      (streamed = .ok () → t.2.tree.bytes k.temp = some reader.chunks.flatten ∧
        reader.chunks.flatten.length < 2 ^ 63)) (sat_attempt ?_) ?_ ?_
  · refine sat_bind (writeChunks_sat phase ticket intact tracks reader.chunks staging hempty
      (by simp)) ?_ ?_
    · rintro _ ⟨d, t⟩ ⟨hd, hdb, hstaging, hbytes⟩ hI
      cases hfail : reader.failure with
      | some kind => exact sat_fail hI ⟨hd, hdb, hstaging, _, rfl, fun h => nomatch h⟩
      | none => exact sat_ret hI ⟨hd, hdb, hstaging, _, rfl, fun _ => by simpa using hbytes rfl⟩
    · rintro x t ⟨hd, hdb, hstaging, _⟩ _
      exact ⟨hd, hdb, hstaging, _, rfl, fun h => nomatch h⟩
  · rintro streamed ⟨d, t⟩ ⟨hd, hdb, hstaging, _, hr, hbytes⟩ hI
    cases hr
    cases streamed with
    | ok u =>
      refine sat_ret hI ⟨hd, hdb, hstaging, fun progress h => ?_⟩
      cases h
      exact ⟨rfl, hbytes rfl⟩
    | error e =>
      obtain rfl : d = done := hd
      obtain ⟨hframe, hkind⟩ := cleanupTemp_frame t.tree k.temp
      have hstaging' := hstaging.step hframe hkind
      refine sat_call rfl hI ?_
      exact sat_fail (.blank phase ticket (by rw [hdb]; exact intact) tracks hstaging')
        ⟨rfl, hdb, hstaging', fun _ h => nomatch h⟩
  · rintro x t ⟨_, _, _, _, hr, _⟩ _
    cases hr

end Walk

section Install

variable {env : Env} {w v : World} {valid : Ticket → Prop} {path : VaultPath}
  {bytes : Bytes} {done : List Milestone} {k : Ticket} {row : JournalRow StoredPayload}
  {managed : Bool}

/-- The metadata commit of an installed payload. -/
theorem commitPayload_sat {modifiedAt : Option Int} {identity : Option String}
    (phase : phaseOf done = ⟨true, true, true, false⟩) (ticket : valid k)
    (intact : Intact w.db v.db [row])
    (tracks : Tracks k.input env.context.id .fileCommitted
      (k.payload.finished env bytes modifiedAt identity) row)
    (installed : Installed w.tree path k.temp bytes v.tree) (short : bytes.length < 2 ^ 63) :
    Sat (traced env) (writing env w valid path bytes)
      (fun r t => ∀ result, r = .ok result →
        WriteDone env w valid path bytes result t.2.db t.2.tree)
      (commitPayload (k.payload.finished env bytes modifiedAt identity)) (done, v) := by
  have here : writing env w valid path bytes (done, v) :=
    .installed phase ticket intact (.inr rfl) tracks installed short
  cases hcommit : commitMutation v.db env.context.id
      ((k.payload.finished env bytes modifiedAt identity).toCommitInput (env.clock v.tick))
      (fun _ => .ok ()) (env.clock (v.tick + 1)) with
  | error e =>
    exact sat_refused (x := e) (v := { v with tick := v.tick + 2 })
      (by simp only [exec, hcommit]) here ⟨here, fun _ h => nomatch h⟩
  | ok r =>
    obtain ⟨db, commit⟩ := r
    have hdone : WriteDone env w valid path bytes
        (mutationResult commit.file commit.revision) db v.tree :=
      ⟨k, row, v.db, modifiedAt, identity, _, _, commit, ticket, intact, tracks, hcommit,
        rfl, installed, short⟩
    refine sat_granted (b := commit) (v := { v with db, tick := v.tick + 2 })
      (by simp only [exec, hcommit]) here ?_
    refine sat_ret (.committed phase hdone) fun result hresult => ?_
    cases hresult
    exact hdone

variable {policy : DestinationPolicy} (allowed : env.policy.isReserved path = managed)
  (phase : phaseOf done = ⟨true, true, false, false⟩) (ticket : valid k)
  (intact : Intact w.db v.db [row])
  (tracks : Tracks k.input env.context.id .prepared
    (k.payload.written (bytes.length, env.hasher.digest bytes)) row)
  (staging : Staging w.tree path k.temp v.tree) (short : bytes.length < 2 ^ 63)
  (hbytes : v.tree.bytes k.temp = some bytes)

include allowed phase ticket intact tracks staging short hbytes

/-- The rename, and a look at what it made. -/
theorem commitAtomic_sat : Sat (traced env) (writing env w valid path bytes)
      (fun r t => t.2.db = v.db ∧ Outcome (fun _ => phaseOf t.1 = ⟨true, true, true, false⟩ ∧
            Installed w.tree path k.temp bytes t.2.tree)
          (fun _ => t.1 = done ∧ Staging w.tree path k.temp t.2.tree) r)
      (commitAtomic k.temp path policy managed) (done, v) := by
  have here : writing env w valid path bytes (done, v) :=
    .described phase ticket intact tracks staging short
  rcases commitTemp_cases k.temp path policy hbytes with
    ⟨e, he, hframe, hkind⟩ | ⟨hok, n, hcontent, _, hnode⟩
  · have hstaging := staging.step hframe hkind
    exact sat_refused (x := e)
      (v := { v with tree := (commitTemp v.tree k.temp path policy).2 })
      (by simp only [exec, he]) here
      ⟨.described phase ticket intact tracks hstaging short, rfl, rfl, hstaging⟩
  · have hinstalled := staging.install hcontent hnode
    have hphase : phaseOf (done ++ [.installed path]) = ⟨true, true, true, false⟩ := by
      rw [phaseOf_concat, phase]
      rfl
    refine sat_granted (b := ())
      (v := { v with tree := (commitTemp v.tree k.temp path policy).2 })
      (by simp only [exec, hok]) here ?_
    have hthere : writing env w valid path bytes (done ++ [.installed path],
        { v with tree := (commitTemp v.tree k.temp path policy).2 }) :=
      .installed hphase ticket intact (.inl rfl)
        (show Tracks _ _ _ (k.payload.finished env bytes k.payload.modifiedAt
          k.payload.filesystemIdentity) row from tracks) hinstalled short
    obtain ⟨identity, hfile⟩ := Tree.bytes_eq_some.mp hinstalled.choose_spec.2.2.2.1
    refine Reads.sat (P := fun r => ∃ metadata, r = .ok metadata) (reads_demand rfl ?_) hthere ?_
    · show ∃ metadata, (stat env.policy env.times _ path managed).mapError id = .ok metadata
      rw [stat_ok.mpr ⟨allowed, _, hfile, rfl⟩]
      exact ⟨_, rfl⟩
    · rintro _ ⟨metadata, rfl⟩
      exact ⟨rfl, hphase, hinstalled⟩

/-- From the described row to the commit. -/
theorem installPayload_sat {syncReason installReason : String}
    {report : StorageError → VaultError} (hpath : k.payload.path = path) :
    Sat (traced env) (writing env w valid path bytes)
      (fun r t => ∀ result, r = .ok result →
        WriteDone env w valid path bytes result t.2.db t.2.tree)
      (installPayload (k.payload.written (bytes.length, env.hasher.digest bytes)) k.temp
        policy managed syncReason installReason report) (done, v) := by
  subst hpath
  refine sat_call rfl
    (.described phase ticket intact tracks staging short) ?_
  refine sat_bind (R := fun r t => ∃ receipt, r = .ok receipt ∧ t.2.db = v.db ∧
      Outcome (fun _ => phaseOf t.1 = ⟨true, true, true, false⟩ ∧
          Installed w.tree k.payload.path k.temp bytes t.2.tree)
        (fun _ => t.1 = done ∧ Staging w.tree k.payload.path k.temp t.2.tree) receipt)
    (sat_attempt ((commitAtomic_sat allowed phase ticket intact tracks staging short
      hbytes).mono fun r t _ h => ⟨r, rfl, h⟩)) ?_ ?_
  · rintro receipt ⟨d, t⟩ ⟨_, hr, hdb, hreceipt⟩ hI
    cases hr
    rw [← hdb] at intact
    cases receipt with
    | error e =>
      obtain ⟨rfl, hstaging⟩ := hreceipt
      exact rollBack_sat ticket intact tracks hstaging (by rw [phase]) hI
        fun _ _ h => nomatch h
    | ok metadata =>
      obtain ⟨hphase, hinstalled⟩ := hreceipt
      refine sat_stored rfl hI (fun db hstored => ?_) fun x _ => ⟨hI, fun _ h => nomatch h⟩
      obtain ⟨row₁, hintact₁, htracks₁⟩ := intact.describe tracks hstored
      have hphase₁ : phaseOf (d ++ [.described k.payload.operationId]) =
          ⟨true, true, true, false⟩ := by
        rw [phaseOf_concat, show phaseOf d = _ from hphase]
        rfl
      have here₁ : writing env w valid k.payload.path bytes
          (d ++ [.described k.payload.operationId], { t with db, tick := t.tick + 1 }) :=
        .installed hphase₁ ticket hintact₁ (.inl rfl) htracks₁ hinstalled short
      refine sat_stored rfl here₁ (fun db hcommitted => ?_) fun x _ =>
        ⟨here₁, fun _ h => nomatch h⟩
      obtain ⟨row₂, hintact₂, htracks₂⟩ := hintact₁.fileCommit htracks₁ hcommitted
      refine sat_bind (R := fun r s => ∃ H, s = (d ++ [.described k.payload.operationId],
          { t with db, tick := t.tick + 1 + 1, history := H }))
        (ensureHistoryBlob_sat _ _ _
          (fun H => .installed hphase₁ ticket hintact₂ (.inr rfl) htracks₂ hinstalled short)
          (fun H => ⟨H, rfl⟩) fun _ H _ => ⟨H, rfl⟩) ?_ fun _ _ _ _ _ h => nomatch h
      rintro _ _ ⟨H, rfl⟩ _
      exact commitPayload_sat hphase₁ ticket hintact₂ htracks₂ hinstalled short
  · rintro x t ⟨_, hr, _⟩ _
    cases hr

end Install

/-! ## From the checks to the stages -/

/-- What the checks under the locks established. -/
structure Checked (env : Env) (t : Tree) (m : Mutation) (target : Option FileRow) : Prop where
  absent : m.requireAbsent → ∀ file ∈ target, file.isActive = false
  known : m.operation ∈ [.create, .copy] ∨ target.isSome
  revision : ∀ file ∈ target, ∀ expected ∈ m.expectedRevision, file.currentRevision = expected
  active : ∀ file ∈ target, file.isActive →
    Describes env t file m.managed ∧ file.entryType = .file
  free : (∀ file ∈ target, file.isActive = false) →
    readsTombstone m.operation ∧ t.node m.path = none

/-- A staged upload asks the active row, others any. -/
def priorHashOf (staged : Bool) (target : Option FileRow) : Option String :=
  if staged then (target.filter (·.isActive)).bind (·.contentHash)
  else target.bind (·.contentHash)

/-- The ticket of a write that passed its checks. -/
structure WriteTicket (env : Env) (w : World) (m : Mutation) (caller : Caller)
    (staged : Bool) (k : Ticket) : Prop where
  payload : ∃ operationId fileId modifiedAt action, k.payload = contentPayload m caller
    operationId fileId ((w.db.getAny env.context.id m.path).map (·.path)) modifiedAt action
  file : (∀ file ∈ w.db.getAny env.context.id m.path, k.payload.fileId = file.id) ∧
    (w.db.getAny env.context.id m.path = none → w.fresh ≤ k.payload.fileId)
  temp : ∃ n, w.fresh ≤ n ∧ k.temp = m.path.dropLast ++ [temporaryStem ++ toString n]
  allowed : env.policy.isReserved m.path = m.managed
  nonRoot : m.path ≠ []
  prior : k.priorHash = priorHashOf staged (w.db.getAny env.context.id m.path)
  checked : Checked env w.tree m (w.db.getAny env.context.id m.path)

section Mutating

variable (env : Env) (w : World) (m : Mutation) (caller : Caller) (staged : Bool)

/-- The stages of the write of a mutation. -/
abbrev mutating : List Milestone × World → Prop :=
  writing env w (WriteTicket env w m caller staged) m.path m.reader.chunks.flatten

/-- The mutation is written. -/
abbrev Mutated (result : MutationResult) (t : List Milestone × World) : Prop :=
  WriteDone env w (WriteTicket env w m caller staged) m.path m.reader.chunks.flatten result
    t.2.db t.2.tree

end Mutating

theorem WriteTicket.path {env : Env} {w : World} {m : Mutation} {caller : Caller} {staged : Bool}
    {k : Ticket} (h : WriteTicket env w m caller staged k) : k.payload.path = m.path := by
  obtain ⟨_, _, _, _, hpayload⟩ := h.payload
  rw [hpayload]
  rfl

section Content

variable {env : Env} {w v : World} {m : Mutation} {caller : Caller} {staged : Bool}
  {done : List Milestone} {target : Option FileRow} {bytes : Bytes}

theorem requireExpected_reads {expected : Option Revision} :
    Reads (traced env) (fun r => r = .ok () →
      ∀ file ∈ target, ∀ revision ∈ expected, file.currentRevision = revision)
      (requireExpected target expected) (done, w) := by
  cases target with
  | none => exact reads_pure fun _ _ h => nomatch h
  | some file =>
    cases expected with
    | none => exact reads_pure fun _ _ _ _ h => nomatch h
    | some expected =>
      refine (requireRevision_reads file expected).mono fun r hr hok => ?_
      subst hok
      intro _ hfile _ hexpected
      cases hfile
      cases hexpected
      exact hr

theorem checkTarget_reads : Reads (traced env) (fun r => r = .ok () → Checked env w.tree m target)
      (checkTarget m target) (done, w) := by
  refine sat_check rfl (fun habsent => ?_) fun _ h => nomatch h
  refine sat_check rfl (fun hknown => ?_) fun _ h => nomatch h
  refine requireExpected_reads.bind rfl (fun _ hrev => ?_) fun _ _ h => nomatch h
  have habsent : m.requireAbsent → ∀ file ∈ target, file.isActive = false := by
    rintro hm file rfl
    simpa [hm] using habsent
  have hknown : m.operation ∈ [.create, .copy] ∨ target.isSome := by
    simpa using hknown
  cases hactive : target.filter (·.isActive) with
  | some file =>
    obtain ⟨rfl, hfile⟩ := filter_eq_some_iff.mp hactive
    refine (verifyCurrent_reads file m.managed).bind rfl (fun _ hdescribes => ?_)
      fun _ _ h => nomatch h
    refine reads_check (fun htype _ => ?_) fun _ h => nomatch h
    refine ⟨habsent, hknown, hrev rfl, ?_, fun hno => ?_⟩
    · intro _ hmem _
      cases hmem
      exact ⟨hdescribes, of_decide_eq_true htype⟩
    · rw [hno file rfl] at hfile
      cases hfile
  | none =>
    have hinactive : ∀ file ∈ target, file.isActive = false := by
      rintro file rfl
      simpa using hactive
    refine sat_check rfl (fun hreads => ?_) fun _ h => nomatch h
    refine (storageAbsent_reads m.path m.managed).bind rfl (fun absent hstat => ?_)
      fun _ _ h => nomatch h
    refine reads_check (fun hnone _ => ?_) fun _ h => nomatch h
    refine ⟨habsent, hknown, hrev rfl, fun file hfile hact => ?_,
      fun _ => ⟨hreads, hstat.2.mp hnone⟩⟩
    rw [hinactive file hfile] at hact
    cases hact

variable {I : List Milestone × World → Prop} {valid : Ticket → Prop} {path : VaultPath}

/-- While the parents are made nothing else has happened. -/
theorem writing_of_paved {s : List Milestone × World}
    (hphase : phaseOf done = ⟨false, false, false, false⟩) (hdb : v.db = w.db)
    (htree : v.tree = w.tree) (h : PavedFrom path.dropLast (done, v) s) :
    writing env w valid path bytes s := by
  obtain ⟨marks, tree, tick, rfl, hmarks, hpaved⟩ := h
  refine .idle ?_ hdb (htree ▸ hpaved)
  rw [phaseOf_made fun m hm => (hmarks m hm).imp fun _ h => h.1]
  exact hphase

theorem temporaryPathFor_sat {Q : Except VaultError VaultPath → List Milestone × World → Prop}
    (path : VaultPath) (managed : Bool) (hI : ∀ fresh, I (done, { v with fresh }))
    (hok : env.policy.isReserved path = managed → path ≠ [] →
      Q (.ok (path.dropLast ++ [temporaryStem ++ toString v.fresh]))
        (done, { v with fresh := v.fresh + 1 })) (herror : ∀ e, Q (.error e) (done, v)) :
    Sat (traced env) I Q (temporaryPathFor env path managed) (done, v) := by
  refine sat_mapError (hI v.fresh) ?_ fun e _ => herror _
  intro _ hvalid
  obtain ⟨hallowed, hroot⟩ := validateWritePathFor_ok.mp hvalid
  exact sat_perform (hI v.fresh) (sat_ret (hI (v.fresh + 1)) (hok hallowed hroot))

theorem fileIdFor_sat {Q : Except VaultError FileId → List Milestone × World → Prop}
    (hI : ∀ fresh, I (done, { v with fresh }))
    (hok : ∀ fileId fresh, v.fresh ≤ fresh → (∀ file ∈ target, fileId = file.id) →
      (target = none → v.fresh ≤ fileId) →
      Q (.ok fileId) (done, { v with fresh })) :
    Sat (traced env) I Q (fileIdFor target) (done, v) := by
  cases target with
  | some file =>
    refine sat_ret (hI v.fresh) (hok file.id v.fresh le_rfl (fun f hf => ?_) fun h => nomatch h)
    cases hf
    rfl
  | none =>
    exact ⟨hI v.fresh, hI (v.fresh + 1),
      hok v.fresh (v.fresh + 1) (Nat.le_succ _) (fun _ h => nomatch h) fun _ => le_rfl⟩

/-- A write streams, describes, installs. -/
theorem writeContent_sat {k : Ticket} {row : JournalRow StoredPayload}
    (phase : phaseOf done = ⟨true, false, false, false⟩)
    (ticket : WriteTicket env w m caller staged k) (intact : Intact w.db v.db [row])
    (tracks : Tracks k.input env.context.id .prepared k.payload row)
    (staging : Staging w.tree m.path k.temp v.tree) :
    Sat (traced env) (mutating env w m caller staged)
      (fun r t => ∀ result, r = .ok result → Mutated env w m caller staged result t)
      (writeContent env m k.payload k.temp) (done, v) := by
  refine sat_bind (beginWrite_sat phase ticket intact tracks staging _) ?_
    fun _ _ _ _ _ h => nomatch h
  rintro _ ⟨d, t⟩ hbegun _
  obtain ⟨hd, hdb, hstaging, hempty⟩ := hbegun rfl
  obtain rfl : d = done := hd
  have intact : Intact w.db t.db [row] := by
    rw [show t.db = v.db from hdb]
    exact intact
  refine sat_bind (R := fun r s => ∃ streamed, r = .ok streamed ∧ s.1 = d ∧ s.2.db = t.db ∧
      Staging w.tree m.path k.temp s.2.tree ∧ ∀ progress, streamed = .ok progress →
        progress = (m.reader.chunks.flatten.length, env.hasher.digest m.reader.chunks.flatten) ∧
        s.2.tree.bytes k.temp = some m.reader.chunks.flatten ∧
        m.reader.chunks.flatten.length < 2 ^ 63)
    (sat_attempt ((writeFrom_sat phase ticket intact tracks m.reader hstaging hempty).mono
      fun r s _ h => ⟨r, rfl, h⟩)) ?_ ?_
  · rintro streamed ⟨d', u⟩ ⟨_, hr, hd', hdb', hstaging', hprogress⟩ hI
    cases hr
    obtain rfl : d' = d := hd'
    have intact : Intact w.db u.db [row] := by
      rw [show u.db = t.db from hdb']
      exact intact
    cases streamed with
    | error e =>
      exact rollBack_sat ticket intact tracks hstaging' (by rw [phase]) hI
        fun _ _ h => nomatch h
    | ok progress =>
      obtain ⟨rfl, hbytes, hshort⟩ := hprogress progress rfl
      refine sat_stored rfl hI (fun db hstored => ?_) fun _ _ => ⟨hI, fun _ h => nomatch h⟩
      obtain ⟨row', hintact, htracks⟩ := intact.describe tracks hstored
      refine installPayload_sat (v := { u with db, tick := u.tick + 1 }) ticket.allowed ?_
        ticket hintact htracks hstaging' hshort hbytes ticket.path
      show phaseOf (d' ++ [.described k.payload.operationId]) = _
      rw [phaseOf_concat, phase]
      rfl
  · rintro x s ⟨_, hr, _⟩ _
    cases hr

/-- A directory, and a name in it. -/
theorem sat_place {α : Type} {managed : Bool}
    {Q : Except VaultError α → List Milestone × World → Prop} {f : VaultPath → Core α}
    (hphase : phaseOf done = ⟨false, false, false, false⟩) (hdb : v.db = w.db)
    (htree : v.tree = w.tree) (hQ : ∀ e s, Q (.error e) s)
    (hf : ∀ marks tree tick, env.policy.isReserved path = managed → path ≠ [] →
      phaseOf (done ++ marks) = ⟨false, false, false, false⟩ →
      Staging w.tree path (path.dropLast ++ [temporaryStem ++ toString v.fresh]) tree →
      writing env w valid path bytes (done ++ marks,
        { v with tree, tick, fresh := v.fresh + 1 }) →
      Sat (traced env) (writing env w valid path bytes) Q
        (f (path.dropLast ++ [temporaryStem ++ toString v.fresh])) (done ++ marks,
          { v with tree, tick, fresh := v.fresh + 1 })) :
    Sat (traced env) (writing env w valid path bytes) Q
      (createParent env path managed >>= fun _ => temporaryPathFor env path managed >>= f)
      (done, v) := by
  refine sat_bind ((createParent_sat path managed _).weaken
    (fun t ht => writing_of_paved hphase hdb htree ht) fun r t _ h => h) ?_
    fun e s _ _ => hQ e s
  rintro _ _ ⟨⟨marks, tree, tick, rfl, hmarks, hpaved⟩, hdir, _⟩ hI
  refine sat_bind (R := fun r t => ∀ temp, r = .ok temp →
      env.policy.isReserved path = managed ∧ path ≠ [] ∧
      temp = path.dropLast ++ [temporaryStem ++ toString v.fresh] ∧
      t = (done ++ marks, { v with tree, tick, fresh := v.fresh + 1 }))
    (temporaryPathFor_sat path managed (fun _ => hI)
      (fun hallowed hroot _ h => by cases h; exact ⟨hallowed, hroot, rfl, rfl⟩)
      fun _ _ h => nomatch h) ?_ fun e s _ _ => hQ e s
  rintro temp ⟨d, t⟩ hnamed _
  obtain ⟨hallowed, hroot, rfl, ht⟩ := hnamed temp rfl
  cases ht
  refine hf marks tree tick hallowed hroot ?_ (staging_start (htree ▸ hpaved) hdir rfl) hI
  rw [phaseOf_made fun m hm => (hmarks m hm).imp fun _ h => h.1]
  exact hphase

/-- Row, temporary file, rename, commit. -/
theorem stageContent_sat (hchecked : Checked env w.tree m (w.db.getAny env.context.id m.path))
    (hphase : phaseOf done = ⟨false, false, false, false⟩) (hdb : v.db = w.db)
    (htree : v.tree = w.tree) (hfresh : w.fresh ≤ v.fresh) :
    Sat (traced env) (mutating env w m caller false)
      (fun r t => ∀ result, r = .ok result → Mutated env w m caller false result t)
      (stageContent env m caller (w.db.getAny env.context.id m.path)) (done, v) := by
  have here : ∀ fresh, mutating env w m caller false (done, { v with fresh := fresh }) := fun _ =>
    .idle hphase hdb (htree ▸ fun _ => .inl rfl)
  refine sat_bind (R := fun r t => ∃ fresh, w.fresh ≤ fresh ∧
      t = (done, { v with fresh }) ∧ ∀ fileId, r = .ok fileId →
      (∀ file ∈ w.db.getAny env.context.id m.path, fileId = file.id) ∧
      (w.db.getAny env.context.id m.path = none → w.fresh ≤ fileId))
    (fileIdFor_sat here fun fileId fresh hle hsome hnone =>
      ⟨fresh, hfresh.trans hle, rfl, fun _ h => by cases h; exact ⟨hsome, fun h =>
        hfresh.trans (hnone h)⟩⟩) ?_ fun _ _ _ _ _ h => nomatch h
  rintro fileId _ ⟨fresh, hle, rfl, hfile⟩ _
  refine sat_call rfl (here fresh) ?_
  refine sat_place hphase hdb htree
    (fun _ _ _ h => nomatch h) ?_
  intro marks tree tick hallowed hroot hphase' hstaging hI
  let k : Ticket := ⟨contentPayload m caller fresh fileId
    ((w.db.getAny env.context.id m.path).map (·.path)) 0 (auditActionFor m.operation),
    m.path.dropLast ++ [temporaryStem ++ toString (fresh + 1)],
    (w.db.getAny env.context.id m.path).bind (·.contentHash)⟩
  have ticket : WriteTicket env w m caller false k :=
    ⟨⟨_, _, _, _, rfl⟩, hfile fileId rfl, ⟨fresh + 1, by omega, rfl⟩, hallowed, hroot, rfl,
      hchecked⟩
  refine sat_stored rfl hI (fun db hprepared => ?_) fun _ _ => ⟨hI, fun _ h => nomatch h⟩
  have hrefl : Intact w.db v.db [] := by
    rw [hdb]
    exact intact_refl
  refine writeContent_sat ?_ ticket (hrefl.prepare hprepared) (tracks_row rfl) hstaging
  show phaseOf (done ++ marks ++ [.prepared fresh]) = _
  rw [phaseOf_concat, show phaseOf (done ++ marks) = _ from hphase']
  rfl

/-- The target a mutation finds in a world. -/
def targetIn (env : Env) (db : Store StoredPayload) (m : Mutation) : Option FileRow :=
  if readsTombstone m.operation then db.getAny env.context.id m.path
  else db.getActive env.context.id m.path

theorem contentTarget_reads (m : Mutation) :
    Reads (traced env) (fun r => r = .ok (targetIn env v.db m)) (contentTarget m) (done, v) := by
  unfold contentTarget targetIn
  cases readsTombstone m.operation with
  | true | false => exact ⟨rfl, rfl, rfl⟩

/-- A checked mutation has looked at its row. -/
theorem Checked.target_eq {t : Tree} {db : Store StoredPayload}
    (h : Checked env t m (targetIn env db m)) :
    targetIn env db m = db.getAny env.context.id m.path := by
  unfold targetIn at h ⊢
  cases hreads : readsTombstone m.operation with
  | true => simp
  | false =>
    rw [hreads] at h
    rcases h.known with hop | hsome
    · have hop : m.operation = .create ∨ m.operation = .copy := by simpa using hop
      rcases hop with hop | hop
      · rw [hop] at hreads
        cases hreads
      · rw [hop] at hreads
        cases hreads
    · obtain ⟨file, hfile⟩ := isSome_iff_exists.mp hsome
      have hactive : db.getActive env.context.id m.path = some file := hfile
      simp [hactive, (getActive_iff.mp hactive).1]

/-- **A CONTENT MUTATION STAYS IN ITS STAGES.** -/
theorem contentMutation_sat (hphase : phaseOf done = ⟨false, false, false, false⟩)
    (hdb : v.db = w.db) (htree : v.tree = w.tree) (hfresh : w.fresh ≤ v.fresh) :
    Sat (traced env) (mutating env w m caller false)
      (fun r t => ∀ result, r = .ok result → Mutated env w m caller false result t ∨
        (t.2.db = w.db ∧ t.2.tree = w.tree ∧ lookupAnswer env w.db caller.key
          (signaturePayload m caller (targetIn env w.db m)) = .ok (some result)))
      (contentMutation env m caller) (done, v) := by
  have here : ∀ L, mutating env w m caller false (done, { v with locks := L }) := fun _ =>
    .idle hphase hdb (htree ▸ fun _ => .inl rfl)
  refine validateContext_reads.bind (here v.locks) (fun _ _ => ?_) fun _ _ _ h => nomatch h
  refine withNamespaceLock_sat (fun _ _ _ h => h) (fun _ _ _ _ h => h) (here v.locks)
    fun L => ?_
  refine withLocks_sat (fun _ _ _ h => h) (fun _ _ _ _ h => h) (here L) fun L' => ?_
  refine (contentTarget_reads m).bind (here L') (fun target htarget => ?_) fun e he => nomatch he
  rw [hdb] at htarget
  cases htarget
  refine (lookupIdempotency_reads _ _).bind (here L') (fun found hfound => ?_)
    fun _ _ _ h => nomatch h
  rw [hdb] at hfound
  cases found with
  | some result =>
    refine sat_ret (here L') fun r hr => .inr ⟨hdb, htree, ?_⟩
    cases hr
    exact hfound.symm
  | none =>
    refine checkTarget_reads.bind (here L') (fun _ hok => ?_) fun _ _ _ h => nomatch h
    have hchecked : Checked env v.tree m (targetIn env w.db m) := hok rfl
    rw [hchecked.target_eq, htree] at hchecked
    rw [(hok rfl).target_eq]
    refine (stageContent_sat (v := { v with locks := L' }) hchecked hphase hdb htree hfresh).mono ?_
    intro r t _ h result hr
    exact .inl (h result hr)

end Content

/-! ## Staged uploads -/

/-- The mutation an upload turns out to be. -/
def putMutation (path : VaultPath) (mayCreate mustCreate : Bool) (reader : Reader)
    (target : Option FileRow) : Option Mutation :=
  match target.filter (·.isActive) with
  | some file =>
    if mustCreate then none
    else some ⟨path, .replace, some file.currentRevision, false, false, reader⟩
  | none => if mayCreate then some ⟨path, .create, none, true, false, reader⟩ else none

/-- A dropped handle: row and file stay. -/
def Dropped (env : Env) (w : World) (valid : Ticket → Prop) (path : VaultPath)
    (id : OperationId) (temp : VaultPath) (s : List Milestone × World) : Prop :=
  ∃ k row, valid k ∧ id = k.payload.operationId ∧ temp = k.temp ∧
    phaseOf s.1 = ⟨true, false, false, false⟩ ∧ Intact w.db s.2.db [row] ∧
    Tracks k.input env.context.id .prepared k.payload row ∧
    Staging w.tree path k.temp s.2.tree

/-- What an upload leaves when its locks are released. -/
def Uploaded (env : Env) (w : World) (valid : Ticket → Prop) (path : VaultPath)
    (bytes : Bytes) (r : Except VaultError PutEnd) (s : List Milestone × World) : Prop :=
  (∀ result, r = .ok (.committed result) →
    WriteDone env w valid path bytes result s.2.db s.2.tree) ∧
  ∀ id temp error, r = .ok (.dropped id temp error) → Dropped env w valid path id temp s

section Put

variable {env : Env} {w v : World} {m : Mutation} {caller : Caller}
  {done : List Milestone} {path : VaultPath} {mayCreate mustCreate : Bool} {reader : Reader}
  {target : Option FileRow}

theorem uploaded_error {valid : Ticket → Prop} {bytes : Bytes} {e : VaultError}
    {s : List Milestone × World} : Uploaded env w valid path bytes (.error e) s :=
  ⟨fun _ h => (nomatch h), fun _ _ _ h => nomatch h⟩

theorem putTarget_reads (reader : Reader) :
    Reads (traced env) (fun r => ∀ operation expected requireAbsent prior,
        r = .ok (operation, expected, requireAbsent, prior) →
        putMutation path mayCreate mustCreate reader target =
          some ⟨path, operation, expected, requireAbsent, false, reader⟩ ∧
        Checked env w.tree ⟨path, operation, expected, requireAbsent, false, reader⟩ target ∧
        prior = priorHashOf true target)
      (putTarget path mayCreate mustCreate target) (done, w) := by
  unfold putTarget putMutation priorHashOf
  cases hactive : target.filter (·.isActive) with
  | some file =>
    obtain ⟨rfl, hfile⟩ := filter_eq_some_iff.mp hactive
    refine sat_check rfl (fun hnew => ?_) fun _ _ _ _ _ h => nomatch h
    refine sat_check rfl (fun htype => ?_) fun _ _ _ _ _ h => nomatch h
    refine (verifyCurrent_reads file false).bind rfl (fun _ hdescribes => reads_pure ?_)
      fun _ _ _ _ _ _ h => nomatch h
    intro operation expected requireAbsent prior h
    cases h
    refine ⟨by simpa using hnew, ⟨fun h => (nomatch h), .inr rfl, ?_, ?_, fun hno => ?_⟩,
      rfl⟩
    · intro f hf e he
      cases hf
      cases he
      rfl
    · intro f hf _
      cases hf
      exact ⟨hdescribes, of_decide_eq_true htype⟩
    · rw [hno file rfl] at hfile
      cases hfile
  | none =>
    have hinactive : ∀ file ∈ target, file.isActive = false := by
      rintro file rfl
      simpa using hactive
    refine sat_check rfl (fun hcreate => ?_) fun _ _ _ _ _ h => nomatch h
    refine (storageAbsent_reads path false).bind rfl (fun absent hstat => ?_)
      fun _ _ _ _ _ _ h => nomatch h
    refine sat_check rfl (fun hnone => reads_pure ?_) fun _ _ _ _ _ h => nomatch h
    intro operation expected requireAbsent prior h
    cases h
    refine ⟨by simp [hcreate], ⟨fun _ => hinactive, .inl (by simp), ?_, ?_,
      fun _ => ⟨rfl, hstat.2.mp hnone⟩⟩, rfl⟩
    · intro f _ e he
      cases he
    · intro f hf hact
      rw [hinactive f hf] at hact
      cases hact

/-- An upload streams, describes and installs. -/
theorem writePut_sat {k : Ticket} {row : JournalRow StoredPayload} (hmanaged : m.managed = false)
    (phase : phaseOf done = ⟨true, false, false, false⟩)
    (ticket : WriteTicket env w m caller true k) (intact : Intact w.db v.db [row])
    (tracks : Tracks k.input env.context.id .prepared k.payload row)
    (staging : Staging w.tree m.path k.temp v.tree) :
    Sat (traced env) (mutating env w m caller true)
      (Uploaded env w (WriteTicket env w m caller true) m.path m.reader.chunks.flatten)
      (writePut env m.requireAbsent m.reader k.payload k.temp) (done, v) := by
  refine sat_bind (beginWrite_sat phase ticket intact tracks staging _) ?_
    fun _ _ _ _ => uploaded_error
  rintro _ ⟨d, t⟩ hbegun _
  obtain ⟨hd, hdb, hstaging, hempty⟩ := hbegun rfl
  obtain rfl : d = done := hd
  have intact : Intact w.db t.db [row] := by
    rw [show t.db = v.db from hdb]
    exact intact
  refine sat_bind (R := fun r s => ∃ streamed, r = .ok streamed ∧ s.1 = d ∧ s.2.db = t.db ∧
      Staging w.tree m.path k.temp s.2.tree ∧ (streamed = .ok () →
        s.2.tree.bytes k.temp = some m.reader.chunks.flatten ∧
        m.reader.chunks.flatten.length < 2 ^ 63))
    (sat_attempt ((writeChunks_sat phase ticket intact tracks m.reader.chunks hstaging hempty
      (by simp)).mono fun r s _ h => ⟨r, rfl, by simpa using h⟩)) ?_ ?_
  · rintro streamed ⟨d', u⟩ ⟨_, hr, hd', hdb', hstaging', hbytes⟩ hI
    cases hr
    obtain rfl : d' = d := hd'
    have intact : Intact w.db u.db [row] := by
      rw [show u.db = t.db from hdb']
      exact intact
    have hdropped : ∀ error τ, Uploaded env w (WriteTicket env w m caller true) m.path
        m.reader.chunks.flatten (.ok (.dropped k.payload.operationId k.temp error))
        (d', { u with tick := τ }) := fun error τ =>
      ⟨fun _ h => (nomatch h), fun _ _ _ h => by
        cases h; exact ⟨k, row, ticket, rfl, rfl, phase, intact, tracks, hstaging'⟩⟩
    cases streamed with
    | error e => exact sat_ret hI (hdropped _ u.tick)
    | ok u' =>
      cases hfail : m.reader.failure with
      | some kind => exact sat_ret hI (hdropped _ u.tick)
      | none =>
        obtain ⟨hbytes, hshort⟩ := hbytes rfl
        refine sat_tried rfl hI (fun db hstored => ?_) fun e _ =>
          sat_ret hI (hdropped _ (u.tick + 1))
        obtain ⟨row', hintact, htracks⟩ := intact.describe tracks hstored
        have hphase : phaseOf (d' ++ [.described k.payload.operationId]) =
            ⟨true, true, false, false⟩ := by
          rw [phaseOf_concat, phase]
          rfl
        refine sat_bind (installPayload_sat (v := { u with db, tick := u.tick + 1 })
          (hmanaged ▸ ticket.allowed) hphase ticket hintact htracks hstaging' hshort hbytes
          ticket.path) ?_ fun _ _ _ _ => uploaded_error
        intro result s hresult hI
        refine sat_ret hI ⟨fun r hr => ?_, fun _ _ _ h => nomatch h⟩
        cases hr
        exact hresult result rfl
  · rintro x s ⟨_, hr, _⟩ _
    cases hr

section

variable
  (hm : putMutation path mayCreate mustCreate reader (w.db.getAny env.context.id path) = some m)
  (hphase : phaseOf done = ⟨false, false, false, false⟩) (hdb : v.db = w.db)
  (htree : v.tree = w.tree) (hfresh : w.fresh ≤ v.fresh)

include hm hphase hdb htree hfresh

/-- An upload's row, and all under it. -/
theorem stagePut_sat : Sat (traced env) (mutating env w m { caller with key := none } true)
      (Uploaded env w (WriteTicket env w m { caller with key := none } true) m.path
        m.reader.chunks.flatten)
      (stagePut env path mayCreate mustCreate reader caller) (done, v) := by
  have here : ∀ fresh, mutating env w m { caller with key := none } true
      (done, { v with fresh }) := fun _ => .idle hphase hdb (htree ▸ fun _ => .inl rfl)
  refine sat_call (by rw [exec, hdb])
    (here v.fresh) ?_
  refine (putTarget_reads reader).bind (here v.fresh) ?_ fun _ _ => uploaded_error
  rintro ⟨operation, expected, requireAbsent, prior⟩ hput
  obtain ⟨hm', hchecked, rfl⟩ := hput _ _ _ _ rfl
  rw [hm] at hm'
  cases hm'
  refine sat_call rfl (here v.fresh) ?_
  refine sat_place hphase hdb htree
    (fun _ _ => uploaded_error) ?_
  intro marks tree tick hallowed hroot hphase' hstaging hI
  refine sat_bind (R := fun r t => ∃ fresh, t = (done ++ marks, { v with
        tree, tick, fresh }) ∧ ∀ fileId, r = .ok fileId →
      (∀ file ∈ w.db.getAny env.context.id path, fileId = file.id) ∧
      (w.db.getAny env.context.id path = none → w.fresh ≤ fileId))
    (fileIdFor_sat (fun _ => hI) fun fileId fresh hle hsome hnone =>
      ⟨fresh, rfl, fun _ h => by
        cases h
        exact ⟨hsome, fun h => hfresh.trans ((by omega : v.fresh ≤ v.fresh + 1 + 1).trans
          (hnone h))⟩⟩) ?_ fun _ _ _ _ => uploaded_error
  rintro fileId _ ⟨fresh, rfl, hfile⟩ _
  refine sat_call rfl hI ?_
  let k : Ticket := ⟨contentPayload ⟨path, operation, expected, requireAbsent, false, reader⟩
    { caller with key := none } v.fresh fileId
    ((w.db.getAny env.context.id path).map (·.path)) (env.clock tick)
    (if operation = .create then "file.create" else "file.replace"),
    path.dropLast ++ [temporaryStem ++ toString (v.fresh + 1)],
    priorHashOf true (w.db.getAny env.context.id path)⟩
  have ticket : WriteTicket env w ⟨path, operation, expected, requireAbsent, false, reader⟩
      { caller with key := none } true k :=
    ⟨⟨_, _, _, _, rfl⟩, hfile fileId rfl, ⟨v.fresh + 1, by omega, rfl⟩, hallowed, hroot, rfl,
      htree ▸ hchecked⟩
  refine sat_stored rfl hI (fun db hprepared => ?_) fun _ _ => ⟨hI, uploaded_error⟩
  have hrefl : Intact w.db v.db [] := by
    rw [hdb]
    exact intact_refl
  refine writePut_sat rfl ?_ ticket (hrefl.prepare hprepared) (tracks_row rfl) hstaging
  show phaseOf (done ++ marks ++ [.prepared v.fresh]) = _
  rw [phaseOf_concat, show phaseOf (done ++ marks) = _ from hphase']
  rfl

/-- **AN UPLOAD STAYS IN ITS STAGES**, also when dropped. -/
theorem stagedPut_sat : Sat (traced env) (mutating env w m { caller with key := none } true)
      (fun r t => ∀ result, r = .ok result → Mutated env w m { caller with key := none } true result t)
      (stagedPut env path mayCreate mustCreate reader caller) (done, v) := by
  have here : ∀ L, mutating env w m { caller with key := none } true
      (done, { v with locks := L }) := fun _ => .idle hphase hdb (htree ▸ fun _ => .inl rfl)
  refine validateContext_reads.bind (here v.locks) (fun _ _ => ?_) fun _ _ _ h => nomatch h
  refine sat_bind
    (withNamespaceLock_sat (fun _ _ _ h => h) (fun _ _ _ _ h => h) (here v.locks)
      fun L => withLocks_sat (fun _ _ _ h => h) (fun _ _ _ _ h => h) (here L) fun L' =>
        stagePut_sat hm hphase hdb htree hfresh) ?_
    fun _ _ _ _ _ h => nomatch h
  rintro (result | ⟨id, temp, error⟩) ⟨d, t⟩ hended hI
  · refine sat_ret hI fun r hr => ?_
    cases hr
    exact hended.1 result rfl
  · obtain ⟨k, row, ticket, rfl, rfl, phase, intact, tracks, staging⟩ := hended.2 _ _ _ rfl
    obtain ⟨hframe, hkind⟩ := cleanupTemp_frame t.tree k.temp
    have hstaging := staging.step hframe hkind
    refine sat_call rfl hI ?_
    exact rollBack_sat ticket intact tracks hstaging (congrArg Phase.installed phase) (.blank phase ticket intact tracks hstaging)
      fun _ _ h => nomatch h

end

end Put

/-! ## The requests that write -/

/-- The mutation that writes an edited text. -/
def editedMutation (w : World) (path : VaultPath) (expected : Revision)
    (edit : List Char → Except String (List Char)) : Option Mutation := do
  let bytes ← w.tree.bytes path
  let text ← decodeText bytes
  let edited ← (edit text.toList).toOption
  some ⟨path, .patch, some expected, false, false, byteReader (encodeText edited)⟩

/-- The mutation, from the bytes found. -/
def Request.mutation (env : Env) (w : World) : Request → Option Mutation
  | .create path managed reader => some ⟨path, .create, none, true, managed, reader⟩
  | .replace path managed expected bytes =>
    some ⟨path, .replace, some expected, false, managed, byteReader bytes⟩
  | .append path expected bytes => do
    let original ← w.tree.bytes path
    some ⟨path, .append, some expected, false, false, byteReader (original ++ bytes)⟩
  | .patch path expected diff =>
    editedMutation w path expected (Patch.applyUnifiedDiff · diff.toList)
  | .insertAfterHeading path expected heading insertion =>
    editedMutation w path expected
      (Patch.insertAfterHeading heading.toList insertion.toList)
  | .replaceHeadingSection path expected heading replacement =>
    editedMutation w path expected
      (Patch.replaceHeadingSection heading.toList replacement.toList)
  | .copy source destination => do
    let bytes ← w.tree.bytes source
    some ⟨destination, .copy, none, true, false, byteReader bytes⟩
  | .restore path revision expected => do
    let file ← w.db.getAny env.context.id path
    let record ← w.db.getRevision env.context.id file.id revision
    let hash ← record.historyBlobHash.or record.contentHash
    let address ← (fromHex (stripSha256 hash)).toOption
    let bytes ← w.history.lookup address
    some ⟨path, .restore, some expected, false, false, byteReader bytes⟩
  | .put path mayCreate mustCreate reader =>
    putMutation path mayCreate mustCreate reader (w.db.getAny env.context.id path)
  | .createDirectory _ | .delete .. | .move .. => none

/-- The requests that write bytes. -/
def Request.writes : Request → Bool
  | .createDirectory _ | .delete .. | .move .. => false
  | _ => true

/-- A staged upload, which carries no idempotency key. -/
def Request.staged : Request → Bool
  | .put .. => true
  | _ => false

def Request.caller (request : Request) (caller : Caller) : Caller :=
  if request.staged then { caller with key := none } else caller

/-- A request's stage is its mutation's. -/
def Writing (env : Env) (w : World) (caller : Caller) (request : Request)
    (s : List Milestone × World) : Prop :=
  match request.mutation env w with
  | some m => writing env w (WriteTicket env w m (request.caller caller) request.staged)
      m.path m.reader.chunks.flatten s
  | none => phaseOf s.1 = ⟨false, false, false, false⟩ ∧ s.2.db = w.db ∧ s.2.tree = w.tree

/-- What the success of a request that writes means. -/
def Written (env : Env) (w : World) (caller : Caller) (request : Request)
    (r : Except VaultError MutationResult) (s : List Milestone × World) : Prop :=
  ∀ result, r = .ok result → ∃ m, request.mutation env w = some m ∧
    (WriteDone env w (WriteTicket env w m (request.caller caller) request.staged) m.path
      m.reader.chunks.flatten result s.2.db s.2.tree ∨
    (s.2.db = w.db ∧ s.2.tree = w.tree ∧ request.staged = false ∧
      lookupAnswer env w.db caller.key (signaturePayload m caller (targetIn env w.db m)) =
        .ok (some result)))

section Requests

variable {env : Env} {w : World} {caller : Caller} {request : Request}
  {done : List Milestone}

theorem writing_untouched (hphase : phaseOf done = ⟨false, false, false, false⟩)
    (L : List (LockKey × Nat)) : Writing env w caller request (done, { w with locks := L }) := by
  unfold Writing
  split
  next => exact .idle hphase rfl fun _ => .inl rfl
  next => exact ⟨hphase, rfl, rfl⟩

theorem written_error {e : VaultError} {s : List Milestone × World} :
    Written env w caller request (.error e) s := fun _ h => nomatch h

/-- A request comes to its mutation. -/
theorem contentMutation_writing {m : Mutation} (hm : request.mutation env w = some m)
    (hstaged : request.staged = false)
    (hphase : phaseOf done = ⟨false, false, false, false⟩) (L : List (LockKey × Nat)) :
    Sat (traced env) (Writing env w caller request) (Written env w caller request)
      (contentMutation env m caller) (done, { w with locks := L }) := by
  have hcaller : request.caller caller = caller := by simp [Request.caller, hstaged]
  refine (contentMutation_sat (w := w) (v := { w with locks := L }) hphase rfl rfl
    le_rfl).weaken ?_ ?_
  · intro t ht
    rw [Writing, hm, hcaller, hstaged]
    exact ht
  · intro r t _ h result hr
    refine ⟨m, hm, ?_⟩
    rw [hcaller, hstaged]
    exact (h result hr).imp_right fun h => ⟨h.1, h.2.1, rfl, h.2.2⟩

theorem readText_reads (path : VaultPath) : Reads (traced env) (fun r => ∀ text, r = .ok text →
        ∃ bytes, w.tree.bytes path = some bytes ∧ decodeText bytes = some text)
      (readText path) (done, w) := by
  refine (openRead_reads path false).bind rfl (fun bytes hbytes => ?_) fun _ _ _ h => nomatch h
  refine reads_orFail (fun text htext _ h => ?_) fun _ _ h => nomatch h
  cases h
  exact ⟨bytes, hbytes.2, htext⟩

variable {path : VaultPath}

/-- A text is read, edited and written back. -/
theorem writeEdited_writing {expected : Revision} (edit : List Char → Except String (List Char))
    (hm : request.mutation env w = editedMutation w path expected edit)
    (hstaged : request.staged = false) (hphase : phaseOf done = ⟨false, false, false, false⟩) :
    Sat (traced env) (Writing env w caller request) (Written env w caller request)
      (readText path >>= fun text => writeEdited env path expected (edit text.toList) caller)
      (done, w) := by
  have here : Writing env w caller request (done, w) := writing_untouched hphase w.locks
  refine (readText_reads path).bind here (fun text hread => ?_) fun _ _ => written_error
  obtain ⟨bytes, hbytes, htext⟩ := hread text rfl
  cases hedit : edit text.toList with
  | error message => exact sat_fail here written_error
  | ok edited =>
    refine contentMutation_writing ?_ hstaged hphase w.locks
    rw [hm]
    simp [editedMutation, hbytes, htext, hedit, Except.toOption]

/-- An upload that its flags forbid ends at its checks. -/
theorem stagedPut_refused {mayCreate mustCreate : Bool} {reader : Reader}
    (hm : putMutation path mayCreate mustCreate reader (w.db.getAny env.context.id path) = none)
    (hphase : phaseOf done = ⟨false, false, false, false⟩) :
    Sat (traced env) (Writing env w caller (.put path mayCreate mustCreate reader))
      (Written env w caller (.put path mayCreate mustCreate reader))
      (stagedPut env path mayCreate mustCreate reader caller) (done, w) := by
  have here : ∀ L, Writing env w caller (.put path mayCreate mustCreate reader)
      (done, { w with locks := L }) := writing_untouched hphase
  have hinsensitive : ∀ d t L, Writing env w caller (.put path mayCreate mustCreate reader)
      (d, t) → Writing env w caller (.put path mayCreate mustCreate reader)
      (d, { t with locks := L }) := by
    intro d t L h
    exact h
  refine validateContext_reads.bind (here w.locks) (fun _ _ => ?_) fun _ _ => written_error
  refine sat_bind (R := fun r _ => ∃ e, r = .error e)
    (withNamespaceLock_sat hinsensitive (fun _ _ _ _ h => h) (here w.locks) fun L =>
      withLocks_sat hinsensitive (fun _ _ _ _ h => h) (here L) fun L' => ?_)
    (fun _ _ h _ => nomatch h) fun _ _ _ _ => written_error
  refine sat_perform (here L') ?_
  refine (putTarget_reads reader).bind (here L') ?_ fun e _ => ⟨e, rfl⟩
  rintro ⟨operation, expected, requireAbsent, prior⟩ hput
  have hsome := (hput _ _ _ _ rfl).1
  cases hm.symm.trans hsome

/-- A copy writes what it read, under both locks. -/
theorem copy_writing {source destination : VaultPath}
    (hphase : phaseOf done = ⟨false, false, false, false⟩) :
    Sat (traced env) (Writing env w caller (.copy source destination))
      (Written env w caller (.copy source destination)) (copy env source destination caller)
      (done, w) := by
  have here : Writing env w caller (.copy source destination) (done, w) :=
    writing_untouched hphase w.locks
  refine validateContext_reads.bind here (fun _ _ => ?_) fun _ _ => written_error
  refine sat_check here (fun _ => ?_) fun _ => written_error
  refine sat_bind (R := fun r s => ∃ L, s = (done, { w with locks := L }) ∧
      ∀ bytes, r = .ok bytes → w.tree.bytes source = some bytes)
    (Sat.weaken (I := fun s => ∃ L, s = (done, { w with locks := L }))
      (withLocks_sat (fun _ _ _ h => ?_) (fun _ _ _ _ h => ?_) ⟨w.locks, rfl⟩
        fun L => ?_) ?_ fun _ _ _ h => h) ?_ fun _ _ _ _ => written_error
  · obtain ⟨_, h⟩ := h
    cases h
    exact ⟨_, rfl⟩
  · obtain ⟨_, h, hr⟩ := h
    cases h
    exact ⟨_, rfl, hr⟩
  · have hno : ∀ e bytes, (.error e : Except VaultError Bytes) = .ok bytes →
        w.tree.bytes source = some bytes := fun _ _ h => by cases h
    refine (requireActiveFile_reads source).bind ⟨L, rfl⟩ (fun file _ => ?_)
      fun e _ => ⟨L, rfl, hno e⟩
    refine (verifyCurrent_reads file false).bind ⟨L, rfl⟩ (fun _ _ => ?_)
      fun e _ => ⟨L, rfl, hno e⟩
    refine (openRead_reads source false).sat ⟨L, rfl⟩ fun r hr => ⟨L, rfl, ?_⟩
    intro bytes h
    subst h
    exact hr.2
  · rintro _ ⟨L, rfl⟩
    exact writing_untouched hphase L
  · rintro bytes _ ⟨L, rfl, hbytes⟩ _
    refine contentMutation_writing ?_ rfl hphase L
    simp [Request.mutation, hbytes bytes rfl]

/-- A restore writes the bytes of the revision. -/
theorem restore_writing {revision expected : Revision}
    (hphase : phaseOf done = ⟨false, false, false, false⟩) :
    Sat (traced env) (Writing env w caller (.restore path revision expected))
      (Written env w caller (.restore path revision expected))
      (restore env path revision expected caller) (done, w) := by
  have here : Writing env w caller (.restore path revision expected) (done, w) :=
    writing_untouched hphase w.locks
  refine validateContext_reads.bind here (fun _ _ => ?_) fun _ _ => written_error
  refine sat_perform here ?_
  refine sat_orFail here (fun file hfile => ?_) fun _ => written_error
  refine (requireRevision_reads file expected).bind here (fun _ _ => ?_) fun _ _ => written_error
  refine sat_perform here ?_
  refine sat_orFail here (fun record hrecord => ?_) fun _ => written_error
  refine sat_orFail here (fun hash hhash => ?_) fun _ => written_error
  refine sat_mapError here (fun address haddress => ?_) fun _ _ => written_error
  refine sat_demand here (fun bytes hbytes => ?_) fun _ _ => ⟨here, written_error⟩
  refine contentMutation_writing ?_ rfl hphase w.locks
  have hfile : w.db.getAny env.context.id path = some file := hfile
  have hrecord : w.db.getRevision env.context.id file.id revision = some record := hrecord
  have hlookup : w.history.lookup address = some bytes := historyOpen_ok env hbytes
  simp [Request.mutation, hfile, hrecord, hhash, haddress, hlookup, Except.toOption]

/-- **EVERY WRITING REQUEST STAYS IN ITS STAGES.** -/
theorem Request.serve_writing (hwrites : request.writes)
    (hphase : phaseOf done = ⟨false, false, false, false⟩) :
    Sat (traced env) (Writing env w caller request) (Written env w caller request)
      (request.serve env caller) (done, w) := by
  have here : Writing env w caller request (done, w) := writing_untouched hphase w.locks
  cases request with
  | create path managed reader => exact contentMutation_writing rfl rfl hphase w.locks
  | replace path managed expected bytes =>
    exact contentMutation_writing rfl rfl hphase w.locks
  | append path expected bytes =>
    refine validateContext_reads.bind here (fun _ _ => ?_) fun _ _ => written_error
    refine (requireActiveFile_reads path).bind here (fun file _ => ?_)
      fun _ _ => written_error
    refine sat_check here (fun _ => ?_) fun _ => written_error
    refine (requireRevision_reads file expected).bind here (fun _ _ => ?_)
      fun _ _ => written_error
    refine (openRead_reads path false).bind here (fun original hread => ?_)
      fun _ _ => written_error
    refine contentMutation_writing ?_ rfl hphase w.locks
    simp [Request.mutation, hread.2]
  | patch path expected diff =>
    refine validateContext_reads.bind here (fun _ _ => ?_) fun _ _ => written_error
    refine (requireActiveFile_reads path).bind here (fun file _ => ?_)
      fun _ _ => written_error
    refine (requireRevision_reads file expected).bind here (fun _ _ => ?_)
      fun _ _ => written_error
    exact writeEdited_writing (Patch.applyUnifiedDiff · diff.toList) rfl rfl hphase
  | insertAfterHeading path expected heading insertion
  | replaceHeadingSection path expected heading replacement =>
    exact writeEdited_writing _ rfl rfl hphase
  | copy source destination => exact copy_writing hphase
  | restore path revision expected => exact restore_writing hphase
  | put path mayCreate mustCreate reader =>
    cases hm : putMutation path mayCreate mustCreate reader
        (w.db.getAny env.context.id path) with
    | none => exact stagedPut_refused hm hphase
    | some m =>
      refine (stagedPut_sat hm hphase rfl rfl le_rfl).weaken ?_ ?_
      · intro t ht
        rw [Writing, show Request.mutation env w (.put path mayCreate mustCreate reader) =
          some m from hm]
        exact ht
      · intro r t _ h result hr
        exact ⟨m, hm, .inl (h result hr)⟩
  | createDirectory path => cases hwrites
  | delete path managed expected | move source destination expected => cases hwrites

end Requests

end VaultCore
