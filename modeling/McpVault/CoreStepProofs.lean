import McpVault.OperationProofs

/-! # What the shared steps of the operations do

One lemma for each shared step: the state it leaves, and what its success and its failure mean.
A failure of a step that only looks is *plain*: it never speaks of the key of the request.
Calls with a lasting effect leave a milestone, by which the place of a crash can be named. -/

namespace VaultCore

open VaultDomain FileStore VaultStorage Program List

/-- What a call has achieved. -/
inductive Milestone where
  | prepared (id : OperationId)
  | described (id : OperationId)
  | installed (path : VaultPath)
  | relocated (source destination : VaultPath)
  | removed (path : VaultPath)
  | made (path : VaultPath)
  | closed (id : OperationId)

/-- The milestone that a call reaches. -/
def mark : (ρ : Type) → Call ρ → ρ → Option Milestone
  | _, .prepareOperation input, .ok _ => some (.prepared input.id)
  | _, .updateOperationPayload id _, .ok _ => some (.described id)
  | _, .commitTemp _ path _, .ok _ => some (.installed path)
  | _, .moveEntry source destination, .ok _ => some (.relocated source destination)
  | _, .deleteEntry path _, .ok _ => some (.removed path)
  | _, .ensureDirectory path _, .ok _ => some (.made path)
  | _, .markRolledBack id _, .ok _ => some (.closed id)
  | _, _, _ => none

/-- One task alone, with its milestones. -/
abbrev traced (env : Env) : Handler Call (List Milestone × World) := noting mark (exec env 0)

/-- A failure that is not about the key. -/
def Plain : VaultError → Prop
  | .inFlight | .idempotencyConflict | .state _ => False
  | _ => True

theorem mapStorage_plain (e : StorageError) : Plain (mapStorage e) := by
  unfold mapStorage
  split
  next => trivial
  next => split <;> trivial

theorem validateContext_plain {env : Env} {w : World} {write : Bool} {e : VaultError}
    (h : validateContext env w write = .error e) : Plain e := by
  unfold validateContext at h
  split at h
  next => cases h; trivial
  next =>
    split at h
    next => cases h; trivial
    next =>
      split at h
      next => cases h; trivial
      next =>
        split at h
        next => cases h; trivial
        next => cases h

/-- The file on disk is the one a row speaks of. -/
structure Describes (env : Env) (t : Tree) (file : FileRow) (managed : Bool) : Prop where
  allowed : env.policy.isReserved file.path = managed
  entry : ∃ n, t.node file.path = some n ∧ n.kind = entryKind file.entryType ∧
    (file.entryType = .file → n.size = file.size) ∧
    (∀ hash ∈ file.contentHash, ∃ bytes, n.content = .file bytes ∧ env.hasher.digest bytes = hash) ∧
    ∀ expected ∈ file.filesystemIdentity, ∀ actual ∈ n.identity, expected = actual

variable {env : Env} {done : List Milestone} {w : World}

/-! ## Steps that only look -/

theorem validateContext_reads :
    Reads (traced env) (Outcome (fun _ => validateContext env w true = .ok ())
        fun e => validateContext env w true ≠ .ok () ∧ Plain e)
      (demand (.validateContext true) id) (done, w) := by
  refine reads_demand rfl ?_
  show Outcome _ _ ((validateContext env w true).mapError id)
  cases h : validateContext env w true with
  | ok u => exact rfl
  | error e => exact ⟨by simp, validateContext_plain h⟩

theorem requireActiveFile_reads (path : VaultPath) : Reads (traced env)
      (Outcome (fun file => w.db.getActive env.context.id path = some file)
        fun e => w.db.getActive env.context.id path = none ∧ Plain e)
      (requireActiveFile path) (done, w) :=
  sat_perform rfl (reads_orFail (fun _ h => h) fun h => ⟨h, trivial⟩)

theorem requireRevision_reads (file : FileRow) (expected : Revision) :
    Reads (traced env) (Outcome (fun _ => file.currentRevision = expected)
        fun e => file.currentRevision ≠ expected ∧ Plain e)
      (requireRevision file expected) (done, w) :=
  reads_check of_decide_eq_true fun h => ⟨of_decide_eq_false h, trivial⟩

theorem historyOpen_ok (env : Env) {hash : String} {bytes : Bytes}
    (h : (exec env 0 _ (.historyOpen hash) w).1 = .ok bytes) :
    w.history.lookup hash = some bytes := by
  cases hlookup : w.history.lookup hash with
  | none => simp [exec, hlookup] at h
  | some found => simpa [exec, hlookup] using h

theorem storageAbsent_reads (path : VaultPath) (managed : Bool) : Reads (traced env)
      (Outcome (fun absent => env.policy.isReserved path = managed ∧
          (absent = true ↔ w.tree.node path = none))
        fun e => Plain e ∧ ¬ (env.policy.isReserved path = managed ∧
          (w.tree.node path ≠ none ∨ w.tree.isDir path.dropLast = true)))
      (storageAbsent path managed) (done, w) := by
  refine sat_perform rfl ?_
  rw [show (traced env _ (.stat path managed) (done, w)).1 =
    stat env.policy env.times w.tree path managed from rfl]
  generalize h : stat env.policy env.times w.tree path managed = found
  cases found with
  | ok metadata =>
    obtain ⟨hallowed, n, hn, _⟩ := stat_ok.mp h
    exact reads_pure ⟨hallowed, by simp [hn]⟩
  | error e =>
    rcases stat_error h with ⟨hdenied, error, rfl⟩ | ⟨hallowed, hnone, hdir⟩
    · exact reads_fail ⟨trivial, fun h => hdenied h.1⟩
    · by_cases hkind : storageNotFound e = true
      · simp only [hkind]
        exact reads_pure ⟨hallowed, by simp [hnone]⟩
      · simp only [hkind]
        refine reads_fail ⟨mapStorage_plain _, ?_⟩
        rintro ⟨_, hnode | habove⟩
        · exact hnode hnone
        · rcases hdir with ⟨_, rfl⟩ | ⟨hdir, _⟩
          · exact hkind rfl
          · rw [hdir] at habove
            cases habove

theorem verifyHash_reads {file : FileRow} {managed : Bool} {n : Node}
    (hallowed : env.policy.isReserved file.path = managed) (hn : w.tree.node file.path = some n) :
    let Matches := ∀ hash ∈ file.contentHash, ∃ bytes, n.content = .file bytes ∧
      env.hasher.digest bytes = hash
    Reads (traced env) (Outcome (fun _ => Matches) fun e => ¬ Matches ∧ Plain e)
      (verifyHash file managed) (done, w) := by
  intro Matches
  cases hhash : file.contentHash with
  | none =>
    rw [verifyHash, hhash]
    exact reads_pure (show Matches by simp [Matches, hhash])
  | some expected =>
    have hMatches : Matches ↔ ∃ bytes, n.content = .file bytes ∧
        env.hasher.digest bytes = expected := by simp [Matches, hhash]
    rw [verifyHash, hhash]
    refine sat_demand rfl ?_ ?_
    · intro hashed hread
      obtain ⟨bytes, hbytes, rfl⟩ : ∃ bytes, openRead env.policy w.tree file.path managed =
          .ok bytes ∧ hashed = (bytes.length, env.hasher.digest bytes) := by
        have hread : (openRead env.policy w.tree file.path managed).map _ = .ok hashed :=
          hread
        cases ho : openRead env.policy w.tree file.path managed with
        | error e => rw [ho] at hread; cases hread
        | ok bytes => rw [ho] at hread; cases hread; exact ⟨bytes, rfl, rfl⟩
      obtain ⟨identity, hfile⟩ := Tree.bytes_eq_some.mp (openRead_ok.mp hbytes).2
      rw [hn] at hfile
      cases hfile
      have hdigest : Matches ↔ env.hasher.digest bytes = expected := by
        rw [hMatches]
        simp
      exact reads_check (fun h => hdigest.mpr (of_decide_eq_true h))
        fun h => ⟨fun hm => of_decide_eq_false h (hdigest.mp hm), trivial⟩
    · intro e hread
      refine ⟨rfl, fun hm => ?_, mapStorage_plain e⟩
      obtain ⟨bytes, hcontent, _⟩ := hMatches.mp hm
      have hbytes : w.tree.bytes file.path = some bytes :=
        Tree.bytes_eq_some.mpr ⟨n.identity, by rw [hn, ← hcontent]⟩
      have hread : (openRead env.policy w.tree file.path managed).map _ = .error e := hread
      rw [openRead_ok.mpr ⟨hallowed, hbytes⟩] at hread
      cases hread

/-- What `verify_current` establishes. -/
theorem verifyCurrent_reads (file : FileRow) (managed : Bool) :
    Reads (traced env) (Outcome (fun _ => Describes env w.tree file managed)
        fun e => ¬ Describes env w.tree file managed ∧ Plain e)
      (verifyCurrent file managed) (done, w) := by
  refine sat_demand rfl ?_ ?_
  · intro metadata hstat
    obtain ⟨hallowed, n, hn, rfl⟩ := stat_ok.mp hstat
    have hentry : Describes env w.tree file managed →
        (n.kind = entryKind file.entryType ∧ (file.entryType = .file → n.size = file.size)) ∧
        (∀ hash ∈ file.contentHash, ∃ bytes, n.content = .file bytes ∧
          env.hasher.digest bytes = hash) ∧
        ∀ expected ∈ file.filesystemIdentity, ∀ actual ∈ n.identity, expected = actual := by
      rintro ⟨_, m, hm, hkind, hsize, hhash, hid⟩
      rw [hn] at hm
      cases hm
      exact ⟨⟨hkind, hsize⟩, hhash, hid⟩
    refine sat_check rfl (fun hshape => ?_) fun hshape =>
      ⟨fun h => of_decide_eq_false hshape (hentry h).1, trivial⟩
    have hshape := of_decide_eq_true hshape
    refine (verifyHash_reads hallowed hn).bind rfl (fun _ hhash => ?_) fun e he =>
      ⟨fun h => he.1 (hentry h).2.1, he.2⟩
    refine sat_check rfl (fun hid => ?_) fun hid =>
      ⟨fun h => of_decide_eq_false hid (hentry h).2.2, trivial⟩
    exact reads_pure ⟨hallowed, n, hn, hshape.1, hshape.2, hhash, of_decide_eq_true hid⟩
  · intro e hstat
    refine ⟨rfl, fun h => ?_, mapStorage_plain e⟩
    obtain ⟨hallowed, n, hn, _⟩ := h
    have hstat : stat env.policy env.times w.tree file.path managed = .error e := hstat
    rw [stat_ok.mpr ⟨hallowed, n, hn, rfl⟩] at hstat
    cases hstat

theorem openRead_reads (path : VaultPath) (managed : Bool) : Reads (traced env)
      (Outcome (fun bytes => env.policy.isReserved path = managed ∧ w.tree.bytes path = some bytes)
        fun e => ¬ (env.policy.isReserved path = managed ∧
          ∃ bytes, w.tree.bytes path = some bytes) ∧ Plain e)
      (demand (.openRead path managed) mapStorage) (done, w) := by
  refine reads_demand rfl ?_
  show Outcome _ _ ((openRead env.policy w.tree path managed).mapError mapStorage)
  cases h : openRead env.policy w.tree path managed with
  | ok bytes => exact openRead_ok.mp h
  | error e =>
    refine ⟨?_, mapStorage_plain e⟩
    rintro ⟨hallowed, bytes, hbytes⟩
    rw [openRead_ok.mpr ⟨hallowed, hbytes⟩] at h
    cases h

/-- The answer for a key that is in the journal. -/
def answer (found : IdempotencyLookup StoredPayload) (payload : CorePayload) :
    Except VaultError MutationResult :=
  match found with
  | .committed stored file revision =>
    if sameRequestSignature stored payload then .ok (mutationResult file revision)
    else .error .idempotencyConflict
  | .inFlight _ _ stored =>
    if sameRequestSignature stored payload then .error .inFlight
    else .error .idempotencyConflict

/-- What the lookup finds out about a key. -/
def lookupAnswer (env : Env) (db : Store StoredPayload) (key : Option String)
    (payload : CorePayload) : Except VaultError (Option MutationResult) :=
  match key with
  | none => .ok none
  | some key =>
    match findIdempotency db env.context.id key with
    | .error e => .error (.state e)
    | .ok none => .ok none
    | .ok (some found) => (answer found payload).map some

theorem lookupIdempotency_reads (key : Option String) (payload : CorePayload) :
    Reads (traced env) (fun r => r = lookupAnswer env w.db key payload)
      (lookupIdempotency key payload) (done, w) := by
  cases key with
  | none => exact reads_pure rfl
  | some key =>
    refine sat_demand rfl ?_ ?_
    · intro found hfound
      have hfound : findIdempotency w.db env.context.id key = .ok found := hfound
      rw [lookupAnswer, hfound]
      cases found with
      | none => exact reads_pure rfl
      | some found =>
        cases found with
        | committed stored file revision =>
          refine sat_check rfl (fun h => reads_pure ?_) fun h => ?_
          · simp [answer, h, Except.map]
          · simp [answer, h, Except.map]
        | inFlight id state stored =>
          refine sat_check rfl (fun h => reads_fail ?_) fun h => ?_
          · simp [answer, h, Except.map]
          · simp [answer, h, Except.map]
    · intro e hfound
      have hfound : findIdempotency w.db env.context.id key = .error e := hfound
      refine ⟨rfl, ?_⟩
      rw [lookupAnswer, hfound]

/-! ## Calls that change the tables or the tree -/

section Calls

variable {α β χ ω : Type} {I : List Milestone × World → Prop}
  {Q : Except χ α → List Milestone × World → Prop} {v : World}

theorem traced_eq {ρ : Type} {e : Call ρ} {a : ρ} (he : exec env 0 _ e w = (a, v)) :
    traced env _ e (done, w) = (a, noted done (mark _ e a), v) := by
  simp only [noting, he]

/-- A call with its answer known. -/
theorem sat_call {ρ : Type} {e : Call ρ} {a : ρ} {k : ρ → Prog Call χ α}
    (he : exec env 0 _ e w = (a, v)) (hI : I (done, w))
    (hk : Sat (traced env) I Q (k a) (noted done (mark _ e a), v)) :
    Sat (traced env) I Q (perform e >>= k) (done, w) := by
  refine sat_perform hI ?_
  rw [traced_eq he]
  exact hk

variable {k : β → Prog Call χ α} {f : ω → χ}

theorem sat_granted {e : Call (Except ω β)} {b : β} (he : exec env 0 _ e w = (.ok b, v))
    (hI : I (done, w)) (hk : Sat (traced env) I Q (k b) (noted done (mark _ e (.ok b)), v)) :
    Sat (traced env) I Q (demand e f >>= k) (done, w) := by
  refine sat_demand hI (fun c hc => ?_) fun x hx => ?_
  · rw [traced_eq he] at hc ⊢
    cases hc
    exact hk
  · rw [traced_eq he] at hx
    cases hx

theorem sat_refused {e : Call (Except ω β)} {x : ω} (he : exec env 0 _ e w = (.error x, v))
    (hI : I (done, w))
    (hend : I (noted done (mark _ e (.error x)), v) ∧
      Q (.error (f x)) (noted done (mark _ e (.error x)), v)) :
    Sat (traced env) I Q (demand e f >>= k) (done, w) := by
  refine sat_demand hI (fun c hc => ?_) fun y hy => ?_
  · rw [traced_eq he] at hc
    cases hc
  · rw [traced_eq he] at hy ⊢
    cases hy
    exact hend

variable {e : Call (Except StateError Unit)} {r : Except StateError (Store StoredPayload)}

/-- A repository write whose refusal ends the operation. -/
theorem sat_stored {f : StateError → χ} {k : Unit → Prog Call χ α}
    (he : exec env 0 _ e w = w.stored r) (hI : I (done, w))
    (hok : ∀ db, r = .ok db → Sat (traced env) I Q (k ())
      (noted done (mark _ e (.ok ())), { w with db, tick := w.tick + 1 }))
    (herror : ∀ x, r = .error x →
      I (noted done (mark _ e (.error x)), { w with tick := w.tick + 1 }) ∧
      Q (.error (f x)) (noted done (mark _ e (.error x)), { w with tick := w.tick + 1 })) :
    Sat (traced env) I Q (demand e f >>= k) (done, w) := by
  cases r with
  | ok db => exact sat_granted he hI (hok db rfl)
  | error x => exact sat_refused he hI (herror x rfl)

/-- A write whose outcome is looked at. -/
theorem sat_tried {k : Except StateError Unit → Prog Call χ α}
    (he : exec env 0 _ e w = w.stored r) (hI : I (done, w))
    (hok : ∀ db, r = .ok db → Sat (traced env) I Q (k (.ok ()))
      (noted done (mark _ e (.ok ())), { w with db, tick := w.tick + 1 }))
    (herror : ∀ x, r = .error x → Sat (traced env) I Q (k (.error x))
      (noted done (mark _ e (.error x)), { w with tick := w.tick + 1 })) :
    Sat (traced env) I Q (perform e >>= k) (done, w) := by
  cases r with
  | ok db => exact sat_call he hI (hok db rfl)
  | error x => exact sat_call he hI (herror x rfl)

end Calls

/-! ## Locks -/

section Locks

variable {α : Type} {I : List Milestone × World → Prop}

section

variable {Q : Except VaultError Unit → List Milestone × World → Prop}
  (hI : ∀ L, I (done, { w with locks := L }))
  (hQ : ∀ L, Q (.ok ()) (done, { w with locks := L }))

include hI hQ

theorem lockAll_sat (keys : List LockKey) : Sat (traced env) I Q (lockAll keys) (done, w) := by
  induction keys generalizing w with
  | nil => exact sat_ret (hI w.locks) (hQ w.locks)
  | cons key keys ih => exact sat_perform (hI w.locks) (ih hI hQ)

theorem unlockAll_sat (keys : List LockKey) : Sat (traced env) I Q (unlockAll keys) (done, w) := by
  induction keys generalizing w with
  | nil => exact sat_ret (hI w.locks) (hQ w.locks)
  | cons key keys ih => exact sat_perform (hI w.locks) (ih hI hQ)

end

variable {Q : Except VaultError α → List Milestone × World → Prop} {body : Core α}
  (hI : ∀ d t L, I (d, t) → I (d, { t with locks := L }))
  (hQ : ∀ r d t L, Q r (d, t) → Q r (d, { t with locks := L }))
  (hhere : I (done, w)) (hbody : ∀ L, Sat (traced env) I Q body (done, { w with locks := L }))

include hI hQ hhere hbody

/-- What does not speak of locks holds around a body. -/
theorem bracket_sat {keys : List LockKey} :
    Sat (traced env) I Q (bracket (lockAll keys) (unlockAll keys) body) (done, w) := by
  refine sat_bind (R := fun r t => ∃ L, r = .ok () ∧ t = (done, { w with locks := L }))
    (lockAll_sat (fun L => hI _ _ L hhere) (fun L => ⟨L, rfl, rfl⟩) keys) ?_ ?_
  · rintro _ _ ⟨L, _, rfl⟩ _
    refine sat_bind (R := fun r t => ∃ r', r = .ok r' ∧ Q r' t)
      (sat_attempt ((hbody L).mono fun r t _ hr => ⟨r, rfl, hr⟩)) ?_ ?_
    · rintro r ⟨d, t⟩ ⟨_, hr, hend⟩ hIt
      cases hr
      refine sat_bind (R := fun u t' => u = .ok () ∧ ∃ L, t' = (d, { t with locks := L }))
        (unlockAll_sat (fun L => hI _ _ L hIt) (fun L => ⟨rfl, L, rfl⟩) keys) ?_ ?_
      · rintro _ _ ⟨_, L', rfl⟩ hIt'
        exact sat_ofExcept hIt' (hQ r d t L' hend)
      · rintro x _ ⟨hx, _⟩
        cases hx
    · rintro x t ⟨_, hx, _⟩
      cases hx
  · rintro x t ⟨_, hx, _⟩
    cases hx

theorem withLocks_sat {paths : List VaultPath} :
    Sat (traced env) I Q (withLocks env paths body) (done, w) :=
  bracket_sat hI hQ hhere hbody

theorem withNamespaceLock_sat {claims : Bool} :
    Sat (traced env) I Q (withNamespaceLock claims body) (done, w) := by
  cases claims with
  | true => exact bracket_sat hI hQ hhere hbody
  | false => exact hbody w.locks

end Locks

/-! ## History -/

/-- The recorded hash is that of the readable bytes. -/
def Hashed (env : Env) (t : Tree) (path : VaultPath) (hash : Option String)
    (managed : Bool) : Prop :=
  hash = none ∨ env.policy.isReserved path = managed ∧
    ∃ bytes, t.bytes path = some bytes ∧ hash = some (env.hasher.digest bytes)

/-- Only the history store changes. -/
theorem ensureHistoryBlob_sat {I : List Milestone × World → Prop}
    {Q : Except VaultError Unit → List Milestone × World → Prop} (path : VaultPath)
    (hash : Option String) (managed : Bool) (hI : ∀ H, I (done, { w with history := H }))
    (hok : ∀ H, Q (.ok ()) (done, { w with history := H }))
    (herror : ∀ e H, ¬ Hashed env w.tree path hash managed →
      Q (.error e) (done, { w with history := H })) :
    Sat (traced env) I Q (ensureHistoryBlob path hash managed) (done, w) := by
  cases hash with
  | none => exact sat_ret (hI w.history) (hok w.history)
  | some hash =>
    have hgood : Hashed env w.tree path (some hash) managed →
        fromHex hash = .ok hash ∧ ∃ bytes, openRead env.policy w.tree path managed =
          .ok bytes ∧ env.hasher.digest bytes = hash := by
      rintro (h | ⟨hallowed, bytes, hbytes, h⟩)
      · cases h
      · cases h
        exact ⟨env.hasher.canonical bytes, bytes, openRead_ok.mpr ⟨hallowed, hbytes⟩, rfl⟩
    refine sat_mapError (hI w.history) ?_ ?_
    · intro address haddress
      refine sat_perform (hI w.history) ?_
      show Sat _ _ _ (if (w.history.lookup address).isSome then pure () else _) (done, w)
      by_cases hpresent : (w.history.lookup address).isSome
      · rw [if_pos hpresent]
        exact sat_ret (hI w.history) (hok w.history)
      · rw [if_neg hpresent]
        refine sat_demand (hI w.history) (fun bytes hbytes => ?_) fun e he => ?_
        · refine sat_perform (hI w.history) ?_
          refine sat_checked (hI _) (fun _ => hok _) fun hdiffer =>
            herror _ _ fun hhash => ?_
          obtain ⟨hhex, bytes', hread, hdigest⟩ := hgood hhash
          have hbytes : openRead env.policy w.tree path managed = .ok bytes := hbytes
          rw [hbytes] at hread
          rw [hhex] at haddress
          cases hread
          cases haddress
          exact of_decide_eq_false hdiffer hdigest
        · refine ⟨hI w.history, herror _ w.history fun hhash => ?_⟩
          obtain ⟨_, bytes, hread, _⟩ := hgood hhash
          have he : openRead env.policy w.tree path managed = .error e := he
          rw [hread] at he
          cases he
    · intro x hx
      refine herror _ w.history fun hhash => ?_
      rw [(hgood hhash).1] at hx
      cases hx

/-! ## Directories on the way to a path -/

/-- Some missing directories of `p` have been made. -/
def Paved (p : VaultPath) (t t' : Tree) : Prop :=
  ∀ q, t'.node q = t.node q ∨ t.node q = none ∧ t'.isDir q ∧ q <+: p

/-- The way to `p` has been paved for a while. -/
def PavedFrom (p : VaultPath) (s s' : List Milestone × World) : Prop :=
  ∃ marks tree tick, s' = (s.1 ++ marks, { s.2 with tree, tick }) ∧
    (∀ m ∈ marks, ∃ q, m = .made q ∧ q <+: p) ∧ Paved p s.2.tree tree

variable {leaf : Bool} {identity : Option String} {t t' : Tree} {p q : VaultPath}

/-- Only a missing directory is in the way. -/
theorem ensureDirectory_paved (hqp : q <+: p) (h : ensureDirectory t q leaf identity = .ok t') :
    Paved p t t' ∧ t'.isDir q := by
  unfold ensureDirectory at h
  split at h
  next n hn =>
    split at h
    next hkind =>
      cases h
      exact ⟨fun _ => .inl rfl, by simp [Tree.isDir, isDirectory, hn, hkind]⟩
    next => split at h <;> cases h
  next hnone =>
    split at h
    next t'' hput =>
      cases h
      have hdir : t'.isDir q := by
        simp [Tree.isDir, isDirectory, tryPut_node hput, Node.kind]
      refine ⟨fun r => ?_, hdir⟩
      by_cases hr : r = q
      · subst hr
        exact .inr ⟨hnone, hdir, hqp⟩
      · rw [tryPut_node hput, Function.update_of_ne hr]
        exact .inl rfl
    next => cases h

theorem ensureDirectory_blocked {e : StorageError} (hq : q ≠ [])
    (hparent : t.isDir q.dropLast) (h : ensureDirectory t q leaf identity = .error e) :
    t.node q ≠ none ∧ t.isDir q = false := by
  unfold ensureDirectory at h
  split at h
  next n hn =>
    split at h
    next => cases h
    next hkind => exact ⟨by simp [hn], by simp [Tree.isDir, isDirectory, hn, hkind]⟩
  next hnone =>
    obtain ⟨t', hput⟩ := tryPut_exists (n := ⟨.directory, identity⟩) hq hparent (.inl rfl)
    rw [hput] at h
    cases h

theorem Paved.trans {t₁ t₂ t₃ : Tree} (h₁ : Paved p t₁ t₂) (h₂ : Paved p t₂ t₃) :
    Paved p t₁ t₃ := by
  intro q
  rcases h₂ q with h | ⟨hnone, hdir, hq⟩
  · rw [Tree.isDir, h]
    exact h₁ q
  · rcases h₁ q with h' | ⟨_, hdir', _⟩
    · exact .inr ⟨h' ▸ hnone, hdir, hq⟩
    · exact absurd hnone (Tree.isDir_node hdir')

/-- And what is not on the way as well. -/
theorem Paved.node_of_not_prefix (h : Paved p t t') (hq : ¬ q <+: p) : t'.node q = t.node q := by
  rcases h q with h | ⟨_, _, hp⟩
  · exact h
  · exact absurd hp hq

theorem createDirAllFrom_sat (p above rest : VaultPath) (s s' : List Milestone × World)
    (hp : p = above ++ rest) (hs : PavedFrom p s s') (hdir : s'.2.tree.isDir above) :
    Sat (traced env) (PavedFrom p s)
      (fun r t => PavedFrom p s t ∧ Outcome (fun _ => t.2.tree.isDir p)
        (fun e => Plain e ∧ Blocked s.2.tree p) r)
      (createDirAllFrom above rest) s' := by
  induction rest generalizing above s' with
  | nil =>
    rw [append_nil] at hp
    subst hp
    exact sat_ret hs ⟨hs, hdir⟩
  | cons segment rest ih =>
    obtain ⟨marks, tree, tick, rfl, hmarks, hpaved⟩ := hs
    have hprefix : above ++ [segment] <+: p := ⟨rest, by rw [hp]; simp⟩
    have hs : PavedFrom p s (s.1 ++ marks, { s.2 with tree := tree, tick := tick }) :=
      ⟨marks, tree, tick, rfl, hmarks, hpaved⟩
    refine ⟨hs, ?_⟩
    cases hmade : ensureDirectory tree (above ++ [segment]) rest.isEmpty
        (env.identity tick) with
    | ok tree' =>
      obtain ⟨hstep, hdir'⟩ := ensureDirectory_paved hprefix hmade
      have hnext : traced env _ (.ensureDirectory (above ++ [segment]) rest.isEmpty)
          (s.1 ++ marks, { s.2 with tree, tick }) =
          (.ok (), s.1 ++ marks ++ [.made (above ++ [segment])],
            { s.2 with tree := tree', tick := tick + 1 }) := by
        simp [noting, noted, exec, World.changed, hmade, mark]
      rw [hnext]
      refine ih (above ++ [segment]) _ (by rw [hp]; simp) ?_ hdir'
      refine ⟨marks ++ [.made (above ++ [segment])], tree', tick + 1, by simp, ?_,
        hpaved.trans hstep⟩
      intro m hm
      rcases mem_append.mp hm with hm | hm
      · exact hmarks m hm
      · exact ⟨_, mem_singleton.mp hm, hprefix⟩
    | error e =>
      have hnext : traced env _ (.ensureDirectory (above ++ [segment]) rest.isEmpty)
          (s.1 ++ marks, { s.2 with tree, tick }) =
          (.error e, s.1 ++ marks, { s.2 with tree, tick := tick + 1 }) := by
        simp [noting, noted, exec, World.changed, hmade, mark]
      have hstay : PavedFrom p s (s.1 ++ marks, { s.2 with tree := tree, tick := tick + 1 }) :=
        ⟨marks, tree, tick + 1, rfl, hmarks, hpaved⟩
      rw [hnext]
      obtain ⟨hnode, hfile⟩ := ensureDirectory_blocked (by simp)
        (by rw [dropLast_concat]; exact hdir) hmade
      refine ⟨hstay, hstay, mapStorage_plain e, above ++ [segment], hprefix, ?_⟩
      rcases hpaved (above ++ [segment]) with h | ⟨_, hmade, _⟩
      · rw [Tree.isDir, ← h]
        exact ⟨hnode, hfile⟩
      · rw [hmade] at hfile
        cases hfile

/-- The parent exists, unless something forbids it. -/
theorem createParent_sat (path : VaultPath) (managed : Bool) (s : List Milestone × World) :
    Sat (traced env) (PavedFrom path.dropLast s)
      (fun r t => PavedFrom path.dropLast s t ∧
        Outcome (fun _ => t.2.tree.isDir path.dropLast ∧
            (path ≠ [] → env.policy.isReserved path.dropLast = managed))
          (fun e => Plain e ∧ (env.policy.isReserved path.dropLast ≠ managed ∨
            Blocked s.2.tree path.dropLast)) r)
      (createParent env path managed) s := by
  have hrefl : PavedFrom path.dropLast s s :=
    ⟨[], s.2.tree, s.2.tick, by simp, by simp, fun _ => .inl rfl⟩
  by_cases hpath : path = []
  · subst hpath
    exact sat_ret hrefl ⟨hrefl, s.2.tree.root, fun h => absurd rfl h⟩
  · rw [createParent, if_neg hpath, createDirAll]
    by_cases hallowed : env.policy.isReserved path.dropLast = managed
    · rw [validatePathFor_ok.mpr hallowed]
      refine (createDirAllFrom_sat path.dropLast [] _ s s rfl hrefl s.2.tree.root).mono ?_
      rintro r t _ ⟨ht, hr⟩
      refine ⟨ht, ?_⟩
      cases r with
      | ok u => exact ⟨hr, fun _ => hallowed⟩
      | error e => exact ⟨hr.1, .inr hr.2⟩
    · cases hv : env.policy.validatePathFor path.dropLast managed with
      | ok u => exact absurd (validatePathFor_ok.mp hv) hallowed
      | error e => exact sat_fail hrefl ⟨hrefl, mapStorage_plain e, .inl hallowed⟩

end VaultCore
