import McpVault.KnowledgeMapProofs
import McpVault.CanonicalProofs
import McpVault.SqlTableProofs

/-! # The tables of the index

The knowledge map goes into two tables with keys: an identifier and a stable key for a node, an
earlier row for its parent, and one row for each node, file and source of a membership.  A
rebuild clears the rows of a Vault in one transaction and writes the new ones in another. -/

namespace KnowledgeIndex

open List
open LogicalPath (VaultPath joined)
open PlainText (Text)
open MemoryFormat (Uuid decimalIds)
open SqlTable (Table Unique)
open Fallible (bind_ok_iff bind_error_iff)

/-! ## The tables -/

structure NodeRow where
  vaultId : Nat
  node : IndexNode

/-- A parent is an earlier row of the Vault. -/
def Parented (before : List (Nat × Text)) : List NodeRow → Prop
  | [] => True
  | row :: rest =>
    (∀ p ∈ row.node.parentId, (row.vaultId, p) ∈ before) ∧
      Parented (before ++ [(row.vaultId, row.node.id)]) rest

instance Parented.decidable : ∀ before rows, Decidable (Parented before rows)
  | _, [] => isTrue trivial
  | before, row :: rest =>
    have := Parented.decidable (before ++ [(row.vaultId, row.node.id)]) rest
    inferInstanceAs (Decidable (_ ∧ _))

/-- `index_nodes`; a parent stands before its children. -/
def NodesOk (rows : List NodeRow) : Prop :=
  Unique (fun r => some r.node.id) rows ∧
    Unique (fun r => some (r.vaultId, r.node.stableKey)) rows ∧ Parented [] rows

instance : DecidablePred NodesOk := fun _ => inferInstanceAs (Decidable (_ ∧ _ ∧ _))

structure MembershipRow where
  vaultId : Nat
  membership : IndexMembership

/-- The primary key of `index_memberships`. -/
def MembershipsOk (rows : List MembershipRow) : Prop :=
  Unique (fun r => some (r.vaultId, r.membership.key)) rows

instance : DecidablePred MembershipsOk := fun rows =>
  inferInstanceAs (Decidable (Unique (fun r => some (r.vaultId, r.membership.key)) rows))

/-- The index tables, and the files. -/
structure IndexTables (σ : Type) where
  nodes : Table NodesOk
  memberships : Table MembershipsOk
  status : List (Nat × σ)
  files : List (Nat × Nat)

/-- The table whose constraint was broken. -/
inductive Violation where
  | node
  | membership
  | file
  deriving DecidableEq

/-- The delete with its cascade; parents stand first. -/
def deleteRootRows (vaultId : Nat) (gone : List Text) : List NodeRow → List NodeRow
  | [] => []
  | row :: rest =>
    if row.vaultId = vaultId ∧ row.node.parentId.all (· ∈ gone) then
      deleteRootRows vaultId (row.node.id :: gone) rest
    else row :: deleteRootRows vaultId gone rest

def otherVaults (vaultId : Nat) (rows : List NodeRow) : List NodeRow :=
  rows.filter (·.vaultId ≠ vaultId)

section Deletion

variable {rows new : List NodeRow} {before : List (Nat × Text)} {gone : List Text} {v : Nat}

theorem Parented.append : Parented before (rows ++ new) ↔ Parented before rows ∧
      Parented (before ++ rows.map fun r => (r.vaultId, r.node.id)) new := by
  induction rows generalizing before with
  | nil => simp [Parented]
  | cons row rows ih =>
    rw [cons_append, Parented, Parented, ih, map_cons, append_assoc, singleton_append, and_assoc]

/-- The deletion takes all rows of the Vault with it. -/
theorem deleteRootRows_eq (h : Parented before rows) (hgone : ∀ p, (v, p) ∈ before → p ∈ gone) :
    deleteRootRows v gone rows = otherVaults v rows := by
  induction rows generalizing before gone with
  | nil => rfl
  | cons row rows ih =>
    obtain ⟨hparent, hrest⟩ := h
    rw [deleteRootRows, otherVaults, filter_cons]
    by_cases hv : row.vaultId = v
    · have hall : row.node.parentId.all (· ∈ gone) := by
        rw [Option.all_eq_true]
        intro p hp
        exact decide_eq_true (hgone p (hv ▸ hparent p hp))
      rw [if_pos ⟨hv, hall⟩, if_neg (by simp [hv])]
      refine ih hrest fun p hp => ?_
      rcases mem_append.mp hp with hp | hp
      · exact mem_cons_of_mem _ (hgone p hp)
      · cases mem_singleton.mp hp
        exact mem_cons_self
    · rw [if_neg fun h => hv h.1, if_pos (by simp [hv])]
      refine congrArg _ (ih hrest fun p hp => ?_)
      rcases mem_append.mp hp with hp | hp
      · exact hgone p hp
      · cases mem_singleton.mp hp
        exact absurd rfl hv

theorem Parented.otherVaults (h : Parented before rows) {kept : List (Nat × Text)}
    (hkept : ∀ w p, w ≠ v → (w, p) ∈ before → (w, p) ∈ kept) :
    Parented kept (otherVaults v rows) := by
  induction rows generalizing before kept with
  | nil => trivial
  | cons row rows ih =>
    obtain ⟨hparent, hrest⟩ := h
    rw [KnowledgeIndex.otherVaults, filter_cons]
    by_cases hv : row.vaultId = v
    · rw [if_neg (by simp [hv])]
      refine ih hrest fun w p hw hp => ?_
      rcases mem_append.mp hp with hp | hp
      · exact hkept w p hw hp
      · cases mem_singleton.mp hp
        exact absurd hv hw
    · rw [if_pos (by simp [hv])]
      refine ⟨fun p hp => hkept _ p hv (hparent p hp), ih hrest fun w p hw hp => ?_⟩
      exact (mem_append.mp hp).elim
        (fun hp => mem_append_left _ (hkept w p hw hp)) fun hp => mem_append_right _ hp

theorem NodesOk.otherVaults (h : NodesOk rows) (v : Nat) : NodesOk (otherVaults v rows) :=
  ⟨h.1.sublist filter_sublist, h.2.1.sublist filter_sublist, h.2.2.otherVaults fun _ _ _ hp => hp⟩

theorem NodesOk.of_append (h : NodesOk (rows ++ new)) : NodesOk rows :=
  ⟨h.1.sublist (sublist_append_left _ _), h.2.1.sublist (sublist_append_left _ _),
    (Parented.append.mp h.2.2).1⟩

end Deletion

/-- `DELETE FROM index_nodes … parent_id IS NULL`. -/
def deleteRoots (t : Table NodesOk) (vaultId : Nat) : Table NodesOk where
  rows := deleteRootRows vaultId [] t.rows
  ok := by
    rw [deleteRootRows_eq t.ok.2.2 (by simp)]
    exact t.ok.otherVaults vaultId

/-- `DELETE FROM index_nodes WHERE vault_id = ?`. -/
def deleteNodes (t : Table NodesOk) (vaultId : Nat) : Table NodesOk :=
  ⟨otherVaults vaultId t.rows, t.ok.otherVaults vaultId⟩

/-- `DELETE FROM index_memberships WHERE vault_id = ?`. -/
def deleteMemberships (t : Table MembershipsOk) (vaultId : Nat) : Table MembershipsOk :=
  ⟨t.rows.filter (·.vaultId ≠ vaultId), Unique.sublist t.ok filter_sublist⟩

/-- `INSERT INTO index_memberships`. -/
def insertMembership (nodes : List NodeRow) (files : List (Nat × Nat)) (t : Table MembershipsOk)
    (row : MembershipRow) : Except Violation (Table MembershipsOk) :=
  match t.insert row with
  | none => .error .membership
  | some t' =>
    if (row.vaultId, row.membership.nodeId) ∉ nodes.map fun r => (r.vaultId, r.node.id) then
      .error .membership
    else if (row.vaultId, row.membership.fileId) ∉ files then .error .file
    else .ok t'

section Replace

variable {σ : Type} (tables : IndexTables σ) (vaultId : Nat) (map : KnowledgeMap) (status : σ)

/-- The old map goes, the new one is inserted. -/
def replaceKnowledgeMap : Except Violation (IndexTables σ) := do
  let memberships := deleteMemberships tables.memberships vaultId
  let nodes ← ((deleteRoots tables.nodes vaultId).insertAll (map.nodes.map (⟨vaultId, ·⟩))).elim
    (.error .node) .ok
  let memberships ← (map.memberships.map fun m => MembershipRow.mk vaultId m).foldlM
    (insertMembership nodes.rows tables.files) memberships
  .ok { tables with
    nodes
    memberships
    status := tables.status.filter (·.1 ≠ vaultId) ++ [(vaultId, status)] }

/-- The map of a Vault goes. -/
def clearVault : IndexTables σ :=
  { tables with
    nodes := deleteNodes tables.nodes vaultId
    memberships := deleteMemberships tables.memberships vaultId
    status := tables.status.filter (·.1 ≠ vaultId) }

/-- The end of `rebuild_vault`, a transaction of its own. -/
def rebuildVault : Except Violation Unit × IndexTables σ :=
  match replaceKnowledgeMap (clearVault tables vaultId) vaultId map status with
  | .ok after => (.ok (), after)
  | .error violation => (.error violation, clearVault tables vaultId)

end Replace

/-! ## What the tables take -/

section Stored

variable {uuid : Uuid} {v : Nat} {rows : List NodeRow} {nodes : List IndexNode}

/-- Every row has an identifier of its own Vault. -/
def Owned (uuid : Uuid) (rows : List NodeRow) : Prop :=
  ∀ r ∈ rows, uuid.text r.vaultId ++ ":index:".toList <+: r.node.id

theorem uuid_colon (uuid : Uuid) (id : Nat) : ':' ∉ uuid.text id := by
  intro h
  rcases uuid.hex id ':' h with hdigit | ⟨hle, hle'⟩ | heq
  · exact absurd hdigit (by decide)
  · exact absurd hle (by decide)
  · exact absurd heq (by decide)

/-- An identifier begins with one Vault only. -/
theorem vault_of_start {id : Text} {w : Nat} (hv : uuid.text v ++ ":index:".toList <+: id)
    (hw : uuid.text w ++ ":index:".toList <+: id) : v = w := by
  obtain ⟨x, rfl⟩ := hv
  obtain ⟨y, heq⟩ := hw
  have hcolon : ":index:".toList = ':' :: "index:".toList := by decide
  rw [hcolon, append_assoc, append_assoc] at heq
  obtain ⟨htext, _⟩ := PlainText.append_cons_inj (uuid_colon uuid w) (uuid_colon uuid v) heq
  have hparse := congrArg uuid.parse htext
  rw [uuid.parse_text, uuid.parse_text] at hparse
  exact (Option.some.inj hparse).symm

theorem unique_iff {ρ κ : Type} {key : ρ → κ} {rows : List ρ} :
    Unique (fun r => some (key r)) rows ↔ (rows.map key).Nodup := by
  rw [← filterMap_eq_map]
  rfl

theorem parented_of_placed {before : List Text} {pairs : List (Nat × Text)}
    (h : Placed before nodes) (hpairs : ∀ p ∈ before, (v, p) ∈ pairs) :
    Parented pairs (nodes.map fun n => NodeRow.mk v n) := by
  induction nodes generalizing before pairs with
  | nil => trivial
  | cons node nodes ih =>
    obtain ⟨⟨p, hp, hparent⟩, hrest⟩ := h
    refine ⟨?_, ih hrest fun q hq => ?_⟩
    · intro q hq
      rw [hparent] at hq
      cases hq
      exact hpairs p hp
    · rcases mem_append.mp hq with hq | hq
      · exact mem_append_left _ (hpairs q hq)
      · cases mem_singleton.mp hq
        exact mem_append_right _ mem_cons_self

variable {U : TagText} {notes : List IndexedNote} {topics : List Topic}

/-- The nodes may join those of other Vaults. -/
theorem nodesOk_build (hok : NodesOk rows) (howned : Owned uuid rows)
    (hother : ∀ r ∈ rows, r.vaultId ≠ v)
    (hkeys : ((buildKnowledgeMap U (uuid.text v) notes topics).nodes.map (·.stableKey)).Nodup) :
    NodesOk (rows ++ (buildKnowledgeMap U (uuid.text v) notes topics).nodes.map
      fun n => NodeRow.mk v n) := by
  refine ⟨?_, ?_, ?_⟩
  · rw [unique_iff, map_append, map_map, nodup_append']
    refine ⟨unique_iff.mp hok.1, (named_ids_nodup build_named).mpr hkeys, ?_⟩
    intro id hrow hnew
    obtain ⟨r, hr, rfl⟩ := mem_map.mp hrow
    obtain ⟨n, hn, heq⟩ := mem_map.mp hnew
    have hstart : uuid.text v ++ ":index:".toList <+: r.node.id := by
      rw [← heq]
      exact ⟨n.stableKey, (build_named n hn).symm⟩
    exact hother r hr (vault_of_start (howned r hr) hstart)
  · rw [unique_iff, map_append, map_map, nodup_append']
    refine ⟨unique_iff.mp hok.2.1, ?_, ?_⟩
    · refine List.Nodup.of_map Prod.snd ?_
      rw [map_map]
      exact hkeys
    · intro key hrow hnew
      obtain ⟨r, hr, rfl⟩ := mem_map.mp hrow
      obtain ⟨n, hn, heq⟩ := mem_map.mp hnew
      exact hother r hr (congrArg Prod.fst heq).symm
  · rw [Parented.append]
    refine ⟨hok.2.2, ?_⟩
    obtain ⟨rest, hnodes, hplaced⟩ := build_placed U (uuid.text v) notes topics
    rw [hnodes]
    refine ⟨nofun, parented_of_placed hplaced fun p hp => ?_⟩
    cases mem_singleton.mp hp
    exact mem_append_right _ mem_cons_self

/-- Memberships are taken while nodes and files are there. -/
theorem insertMemberships {files : List (Nat × Nat)} {t : Table MembershipsOk}
    {new : List MembershipRow} (hok : MembershipsOk (t.rows ++ new))
    (hnodes : ∀ m ∈ new, (m.vaultId, m.membership.nodeId) ∈ rows.map fun r => (r.vaultId, r.node.id)) :
    ∀ e, new.foldlM (insertMembership rows files) t = .error e → e = .file := by
  induction new generalizing t with
  | nil =>
    intro e h
    cases h
  | cons m new ih =>
    intro e h
    have hsplit : t.rows ++ m :: new = t.rows ++ [m] ++ new := by
      rw [append_assoc, singleton_append]
    rw [hsplit] at hok
    have hone : MembershipsOk (t.rows ++ [m]) :=
      Unique.sublist hok (sublist_append_left _ _)
    rw [foldlM_cons, insertMembership, Table.insert, Table.store_of_ok hone] at h
    dsimp only at h
    rw [if_neg (not_not.mpr (hnodes m mem_cons_self))] at h
    by_cases hfile : (m.vaultId, m.membership.fileId) ∈ files
    · rw [if_neg (not_not.mpr hfile)] at h
      exact ih hok (fun m' hm' => hnodes m' (mem_cons_of_mem _ hm')) e h
    · rw [if_pos hfile] at h
      cases h
      rfl

theorem Owned.sublist {fewer : List NodeRow} (h : Owned uuid rows) (hsub : fewer.Sublist rows) :
    Owned uuid fewer := fun r hr => h r (hsub.subset hr)

variable {σ : Type} {tables : IndexTables σ} {status : σ}

theorem deleteRoots_rows (t : Table NodesOk) : (deleteRoots t v).rows = otherVaults v t.rows :=
  deleteRootRows_eq t.ok.2.2 nofun

theorem mem_otherVaults {r : NodeRow} (h : r ∈ otherVaults v rows) : r.vaultId ≠ v :=
  of_decide_eq_true (mem_filter.mp h).2

section

variable (howned : Owned uuid tables.nodes.rows)
  (hkeys : ((buildKnowledgeMap U (uuid.text v) notes topics).nodes.map (·.stableKey)).Nodup)
  (hmap : Coherent (buildKnowledgeMap U (uuid.text v) notes topics)) {e : Violation}

include howned hkeys hmap

/-- A coherent map is stored, unless a file is missing. -/
theorem replaceKnowledgeMap_error
    (h : replaceKnowledgeMap tables v (buildKnowledgeMap U (uuid.text v) notes topics) status =
      .error e) : e = .file := by
  have hnodes : NodesOk ((deleteRoots tables.nodes v).rows ++
      (buildKnowledgeMap U (uuid.text v) notes topics).nodes.map fun n => NodeRow.mk v n) := by
    refine nodesOk_build (deleteRoots tables.nodes v).ok ?_ ?_ hkeys
    · rw [deleteRoots_rows]
      exact howned.sublist filter_sublist
    · rw [deleteRoots_rows]
      exact fun r hr => mem_otherVaults hr
  obtain ⟨stored, hstored⟩ := Table.insertAll_of_ok (fun _ _ => NodesOk.of_append) hnodes
  rw [replaceKnowledgeMap, hstored] at h
  have hmembers : MembershipsOk ((deleteMemberships tables.memberships v).rows ++
      (buildKnowledgeMap U (uuid.text v) notes topics).memberships.map
        fun m => MembershipRow.mk v m) := by
    rw [MembershipsOk, unique_iff, map_append, map_map, nodup_append']
    refine ⟨unique_iff.mp (deleteMemberships tables.memberships v).ok, ?_, ?_⟩
    · refine List.Nodup.of_map Prod.snd ?_
      rw [map_map]
      exact hmap.nodup ((named_ids_nodup build_named).mpr hkeys)
    · intro key hrow hnew
      obtain ⟨r, hr, rfl⟩ := mem_map.mp hrow
      obtain ⟨m, hm, heq⟩ := mem_map.mp hnew
      exact of_decide_eq_true (mem_filter.mp hr).2 (congrArg Prod.fst heq).symm
  have hthere : ∀ row ∈ (buildKnowledgeMap U (uuid.text v) notes topics).memberships.map
      (fun m => MembershipRow.mk v m), (row.vaultId, row.membership.nodeId) ∈
        stored.rows.map fun r => (r.vaultId, r.node.id) := by
    intro row hrow
    obtain ⟨m, hm, rfl⟩ := mem_map.mp hrow
    obtain ⟨n, hn, heq⟩ := mem_map.mp (hmap.node m hm)
    rw [Table.insertAll_rows hstored, map_append]
    refine mem_append_right _ (mem_map.mpr ⟨⟨v, n⟩, mem_map_of_mem hn, ?_⟩)
    exact congrArg (Prod.mk v) heq
  rcases bind_error_iff.mp h with h | ⟨nodes, heq, h⟩
  · cases h
  · cases heq
    rcases bind_error_iff.mp h with h | ⟨_, -, h⟩
    · exact insertMemberships hmembers hthere e h
    · cases h

theorem rebuildVault_error
    (h : (rebuildVault tables v (buildKnowledgeMap U (uuid.text v) notes topics) status).1 =
      .error e) : e = .file := by
  rw [rebuildVault] at h
  cases hreplace : replaceKnowledgeMap (clearVault tables v) v
      (buildKnowledgeMap U (uuid.text v) notes topics) status with
  | ok after =>
    rw [hreplace] at h
    cases h
  | error e' =>
    rw [hreplace] at h
    cases h
    exact replaceKnowledgeMap_error (howned.sublist filter_sublist) hkeys hmap hreplace

end

end Stored

/-! ## The keys of the map -/

section Sound

variable (U : TagText) (uuid : Uuid) (v : Nat) (notes : List IndexedNote) (topics : List Topic)

/-- Keys hold, notes are in their places, it is stored. -/
structure Sound : Prop where
  ids : ((buildKnowledgeMap U (uuid.text v) notes topics).nodes.map (·.id)).Nodup
  keys : ((buildKnowledgeMap U (uuid.text v) notes topics).nodes.map (·.stableKey)).Nodup
  parents : ∀ before node after,
    (buildKnowledgeMap U (uuid.text v) notes topics).nodes = before ++ node :: after →
      node.nodeType ≠ .root → ∃ p ∈ before, node.parentId = some p.id
  memberships :
    ((buildKnowledgeMap U (uuid.text v) notes topics).memberships.map IndexMembership.key).Nodup
  folder : ∀ note ∈ notes, ∀ q, note.path.parent = some q → q.isRoot = false →
    nodeId (uuid.text v) .folder q.text ∈
        (buildKnowledgeMap U (uuid.text v) notes topics).nodes.map (·.id) ∧
      ((buildKnowledgeMap U (uuid.text v) notes topics).memberships.map IndexMembership.key).count
        (nodeId (uuid.text v) .folder q.text, note.fileId, .folder) = 1
  tag : ∀ note ∈ notes, ∀ source, ∀ n ∈ normalizedTags U note source, nodeId (uuid.text v) .tag n ∈
        (buildKnowledgeMap U (uuid.text v) notes topics).nodes.map (·.id) ∧
      ((buildKnowledgeMap U (uuid.text v) notes topics).memberships.map IndexMembership.key).count
        (nodeId (uuid.text v) .tag n, note.fileId, .tag) = 1
  replaced : ∀ {σ : Type} (tables : IndexTables σ) (status : σ), Owned uuid tables.nodes.rows →
    ∀ e, replaceKnowledgeMap tables v (buildKnowledgeMap U (uuid.text v) notes topics) status =
      .error e → e = .file
  rebuilt : ∀ {σ : Type} (tables : IndexTables σ) (status : σ), Owned uuid tables.nodes.rows →
    ∀ e, (rebuildVault tables v (buildKnowledgeMap U (uuid.text v) notes topics) status).1 =
      .error e → e = .file

/-- No tag is in both places, and chains read differently. -/
structure Unambiguous : Prop where
  tags : ∀ note ∈ notes, ∀ n ∈ normalizedTags U note .frontmatter, n ∉ normalizedTags U note .inline
  topics : ∀ c ∈ chains topics, ∀ d ∈ chains topics, joined c = joined d → c = d

end Sound

section SoundIff

variable {U : TagText} {uuid : Uuid} {v : Nat} {notes : List IndexedNote} {topics : List Topic}
  {vault : Text}
  {node : IndexNode} {note : IndexedNote} {source : TagSource} {n : Text}

theorem parent_earlier {before : List Text} {a b rest : List IndexNode} (h : Placed before rest)
    (hrest : rest = a ++ node :: b) : ∃ p ∈ before ++ a.map (·.id), node.parentId = some p := by
  rw [hrest, Placed.append] at h
  exact h.2.1

theorem build_parents {before after : List IndexNode}
    (h : (buildKnowledgeMap U vault notes topics).nodes = before ++ node :: after)
    (hnode : node.nodeType ≠ .root) : ∃ p ∈ before, node.parentId = some p.id := by
  obtain ⟨rest, hnodes, hplaced⟩ := build_placed U vault notes topics
  rw [hnodes] at h
  cases before with
  | nil =>
    cases h
    exact absurd rfl hnode
  | cons first before =>
    obtain ⟨rfl, hrest⟩ := List.cons.inj h
    obtain ⟨p, hp, hparent⟩ := parent_earlier hplaced hrest
    -- the identifiers that stand before are the root's and those of `before`
    obtain ⟨n, hn, rfl⟩ : ∃ n ∈ rootNode vault :: before, n.id = p := mem_map.mp hp
    exact ⟨n, hn, hparent⟩

theorem key_mem_build (hnote : note ∈ notes) {m : IndexMembership}
    (hm : m ∈ noteMemberships U vault notes note) :
    m.key ∈ (buildKnowledgeMap U vault notes topics).memberships.map IndexMembership.key := by
  rw [build_memberships, map_append]
  exact mem_append_left _ (mem_map_of_mem (mem_flatMap.mpr ⟨note, hnote, hm⟩))

theorem folder_membership (hnote : note ∈ notes) {q : VaultPath}
    (hq : parentFolder note.path = some q) : (nodeId vault .folder q.text, note.fileId, .folder) ∈
      (buildKnowledgeMap U vault notes topics).memberships.map IndexMembership.key :=
  key_mem_build hnote ((mem_noteMemberships hnote).mpr (.inl ⟨q, hq, rfl⟩))

theorem tag_membership (hnote : note ∈ notes) (hn : n ∈ normalizedTags U note source) :
    (nodeId vault .tag n, note.fileId, .tag) ∈
      (buildKnowledgeMap U vault notes topics).memberships.map IndexMembership.key := by
  obtain ⟨t, ht, hpair⟩ := mem_map.mp (mem_noteTags.mpr hn)
  cases hpair
  exact key_mem_build hnote ((mem_noteMemberships hnote).mpr (.inr ⟨t, ht, rfl⟩))

theorem tag_name (hnote : note ∈ notes) (hn : n ∈ normalizedTags U note source) :
    n ∈ names U notes topics .tag := by
  obtain ⟨t, ht, hpair⟩ := mem_map.mp (mem_noteTags.mpr hn)
  cases hpair
  exact SortedMap.mem_keys_enter.mpr
    (mem_map_of_mem (mem_flatMap.mpr ⟨note, hnote, ht⟩))

theorem Unambiguous.sound (h : Unambiguous U notes topics) (hchains : (chains topics).Nodup)
    (hfiles : (notes.map (·.fileId)).Nodup) : Sound U uuid v notes topics := by
  have hkeys : ((buildKnowledgeMap U (uuid.text v) notes topics).nodes.map (·.stableKey)).Nodup :=
    build_keys_nodup_iff.mpr (hchains.map_on h.topics)
  have hids : ((buildKnowledgeMap U (uuid.text v) notes topics).nodes.map (·.id)).Nodup :=
    (named_ids_nodup build_named).mpr hkeys
  have hmap : Coherent (buildKnowledgeMap U (uuid.text v) notes topics) :=
    build_coherent hfiles h.tags
  refine ⟨hids, hkeys, fun _ _ _ => build_parents, hmap.nodup hids, ?_, ?_, ?_, ?_⟩
  · intro note hnote q hparent hroot
    have hq := parentFolder_eq_some.mpr ⟨hparent, hroot⟩
    refine ⟨nodeId_mem .folder (mem_map_of_mem
      (mem_sortedFolders.mpr ⟨note, hnote, parentFolder_mem hq⟩)), ?_⟩
    exact count_eq_one_of_mem (hmap.nodup hids) (folder_membership hnote hq)
  · intro note hnote source n hn
    refine ⟨nodeId_mem .tag (tag_name hnote hn), ?_⟩
    exact count_eq_one_of_mem (hmap.nodup hids) (tag_membership hnote hn)
  · exact fun _ _ howned _ => replaceKnowledgeMap_error howned hkeys hmap
  · exact fun _ _ howned _ => rebuildVault_error howned hkeys hmap

theorem Sound.unambiguous (h : Sound U uuid v notes topics) : Unambiguous U notes topics where
  tags := by
    intro note hnote
    have hnodup : ((noteMemberships U (uuid.text v) notes note).map IndexMembership.key).Nodup :=
      h.memberships.sublist ?_
    · exact (noteMemberships_nodup_iff hnote).mp hnodup
    rw [build_memberships, map_append, map_flatMap]
    refine List.Sublist.trans ?_ (sublist_append_left _ _)
    obtain ⟨before, after, rfl⟩ := append_of_mem hnote
    rw [flatMap_append]
    exact (sublist_append_left _ _).trans (sublist_append_right _ _)
  topics := fun c hc d hd heq =>
    inj_on_of_nodup_map (build_keys_nodup_iff.mp h.keys) hc hd heq

/-- Sound iff tags and topics are unambiguous. -/
theorem map_sound_iff (U : TagText) (uuid : Uuid) (v : Nat) (notes : List IndexedNote)
    (hfiles : (notes.map (·.fileId)).Nodup) (env : YamlEnv) (source : Text) (topics : List Topic)
    (haccepted : parseTaxonomy env source = .ok topics) :
    Sound U uuid v notes topics ↔ Unambiguous U notes topics := by
  constructor
  · exact Sound.unambiguous
  · intro h
    exact h.sound (parseTaxonomy_chains haccepted) hfiles

end SoundIff

/-! ## Two indexes that are lost -/

def asciiText : TagText where
  isWhitespace c := c = ' '
  isAlphanumeric := Char.isAlphanum
  toLowercase c := [c.toLower]

/-- The map of an empty Vault, and one file. -/
def emptyVaultTables : IndexTables Unit where
  nodes := ⟨[⟨7, rootNode (decimalIds.text 7)⟩], by decide⟩
  memberships := ⟨[], by decide⟩
  status := [(7, ())]
  files := [(7, 1)]

/-- One tag in the front matter and in the text. -/
def taggedTwice : IndexedNote := ⟨1, ⟨"a.md".toList⟩, ["Work".toList], ["about #work".toList]⟩

def topicYaml (id : String) (topics : List Yaml) : Yaml :=
  .hash [(.string "id".toList, .string id.toList), (.string "topics".toList, .array topics)]

def nestedText : String := "topics:\n- id: a\n  topics:\n  - id: b\n    topics: []\n"

/-- A loader that knows what these texts say. -/
def topicsEnv : YamlEnv where
  load text :=
    [("topics: []\n", []), (nestedText, [topicYaml "a" [topicYaml "b" []]]),
      (nestedText ++ "- id: a/b\n  topics: []\n",
        [topicYaml "a" [topicYaml "b" []], topicYaml "a/b" []])].findSome? fun (known, topics) =>
      if known.toList = text then some [.hash [(.string "topics".toList, .array topics)]] else none
  isFinite _ := true
  isWhitespace c := c = ' '

/-- The topic that is read from `topicYaml`. -/
def readTopic (id : String) (children : List Topic) : Topic :=
  ⟨id.toList, id.toList, none, [], [], [], [], children⟩

/-- A tag in both places, or `a/b` next to `b` below `a`. -/
theorem ambiguous_index_lost : (parseTaxonomy topicsEnv "topics: []\n".toList = .ok [] ∧
      (rebuildVault emptyVaultTables 7
        (buildKnowledgeMap asciiText (decimalIds.text 7) [taggedTwice] []) ()).1 =
          .error .membership ∧
      (rebuildVault emptyVaultTables 7
        (buildKnowledgeMap asciiText (decimalIds.text 7) [taggedTwice] []) ()).2.status = [] ∧
      ¬ Sound asciiText decimalIds 7 [taggedTwice] []) ∧
    (parseTaxonomy topicsEnv (nestedText ++ "- id: a/b\n  topics: []\n").toList =
        .ok [readTopic "a" [readTopic "b" []], readTopic "a/b" []] ∧
      (rebuildVault emptyVaultTables 7 (buildKnowledgeMap asciiText (decimalIds.text 7) []
        [readTopic "a" [readTopic "b" []], readTopic "a/b" []]) ()).1 = .error .node ∧
      (rebuildVault emptyVaultTables 7 (buildKnowledgeMap asciiText (decimalIds.text 7) []
        [readTopic "a" [readTopic "b" []], readTopic "a/b" []]) ()).2.status = [] ∧
      ¬ Sound asciiText decimalIds 7 [] [readTopic "a" [readTopic "b" []], readTopic "a/b" []]) := by
  have howned : Owned decimalIds emptyVaultTables.nodes.rows := by
    intro r hr
    cases mem_singleton.mp hr
    exact ⟨"root".toList, rfl⟩
  refine ⟨⟨rfl, ?_, ?_, ?_⟩, ⟨rfl, ?_, ?_, ?_⟩⟩
  · decide +kernel
  · decide +kernel
  · intro h
    cases h.rebuilt emptyVaultTables () howned .membership (by decide +kernel)
  · decide +kernel
  · decide +kernel
  · intro h
    cases h.rebuilt emptyVaultTables () howned .node (by decide +kernel)

/-- A note with two tags in a folder, and nested topics. -/
theorem map_sound_folder_note :
    Sound asciiText decimalIds 7 [⟨1, ⟨"f/a.md".toList⟩, ["work".toList], ["#home".toList]⟩]
      [readTopic "a" [readTopic "b" []]] := by
  refine (map_sound_iff asciiText decimalIds 7 _ (by decide)
    topicsEnv nestedText.toList _ rfl).mpr ⟨?_, ?_⟩
  · decide +kernel
  · decide +kernel

end KnowledgeIndex
