import McpVault.IndexTableProofs
import McpVault.ToolRequestProofs
import McpVault.PaginationProofs

/-! # Browsing the index

`browse_index` lists the children of a node of the stored map, a page at a time.  The root of the
map is a row of its own, and a request for the root asks for the rows without a parent. -/

namespace KnowledgeIndex

open List
open LogicalPath (Normalizer VaultPath byteLen plain stripPrefix)
open PlainText (Text isControl)
open MemoryFormat (Uuid decimalIds)
open Fallible (bind_ok_iff)
open ToolRequest (ToolError maxOffset maxU32 boundedLimit boundedLimit_ok offsetCursor
  cursorRefusal parseCursor parseCursor_offsetCursor)
open Pagination (Page Follows Reachable Serves offsetPage)

/-! ## The request -/

def rootKey : Text := stableKey .root []

def validIndexKey (value : Text) : Bool :=
  decide (value ≠ [] ∧ byteLen value ≤ 512) && !value.any isControl

def checkIndexKey (value : Text) : Except ToolError Text :=
  if validIndexKey value then .ok value
  else .error ⟨"invalid_argument", "node_id is not a valid indexed node identifier", false⟩

/-- The root, a folder by its path, or a key. -/
def parseNodeId (N : Normalizer) (value : Option Text) : Except ToolError Text :=
  let value := value.getD rootKey
  if value = rootKey ∨ value = [] then .ok rootKey
  else
    match stripPrefix value "path:".toList with
    | none => checkIndexKey value
    | some path =>
      match LogicalPath.parse N path with
      | .error _ =>
        .error ⟨"invalid_path", "path must be a normalized Vault-relative path", false⟩
      | .ok path => checkIndexKey (stableKey .folder path.text)

/-! ## The answer -/

structure IndexNodeRecord where
  stableKey : Text
  parentKey : Option Text
  nodeType : NodeType
  title : Text
  summary : Option Text
  sourceType : NodeSource
  sortKey : Text
  memberCount : Nat
  deriving DecidableEq

section Answer

variable {σ : Type} (tables : IndexTables σ) (v : Nat)

/-- The rows of the Vault. -/
def vaultNodes : List IndexNode :=
  (tables.nodes.rows.filter (·.vaultId = v)).map (·.node)

/-- `parent.stable_key` of the join with the parent. -/
def parentKeyOf (node : IndexNode) : Option Text :=
  ((vaultNodes tables v).find? fun p => some p.id = node.parentId).map (·.stableKey)

def nodeRecord (node : IndexNode) : IndexNodeRecord where
  stableKey := node.stableKey
  parentKey := parentKeyOf tables v node
  nodeType := node.nodeType
  title := node.title
  summary := node.summary
  sourceType := node.sourceType
  sortKey := node.sortKey
  memberCount := tables.memberships.rows.countP fun r =>
    r.vaultId = v ∧ r.membership.nodeId = node.id

def nodeRank (node : IndexNode) : Text ×ₗ Text := toLex (node.sortKey, node.id)

/-- The `WHERE` clause for a parent key, or for none. -/
def isChild (parentKey : Option Text) (node : IndexNode) : Bool :=
  match parentKey with
  | some key => decide (parentKeyOf tables v node = some key)
  | none => decide (node.parentId = none)

/-- The rows that a listing pages through. -/
def sortedChildren (parentKey : Option Text) : List IndexNode :=
  ((vaultNodes tables v).filter (isChild tables v parentKey)).insertionSort
    fun a b => nodeRank a ≤ nodeRank b

def pageRefusal : ToolError :=
  ⟨"temporarily_unavailable", "the index is unavailable", true⟩

/-- One page of the sorted children. -/
def listNodes (parentKey : Option Text) (limit offset : Nat) :
    Except ToolError (List IndexNodeRecord) :=
  if limit = 0 ∨ 100 < limit ∨ maxOffset < offset then .error pageRefusal
  else .ok (((sortedChildren tables v parentKey).drop offset).take limit |>.map
    (nodeRecord tables v))

structure BrowseChild where
  record : IndexNodeRecord
  children : Option (List IndexNodeRecord)
  deriving DecidableEq

def browseChild (depth limit : Nat) (record : IndexNodeRecord) : Except ToolError BrowseChild :=
  if 1 < depth then do
    let grandchildren ← listNodes tables v (some record.stableKey) (min limit 25) 0
    .ok ⟨record, some grandchildren⟩
  else .ok ⟨record, none⟩

/-- The filter that a request for a node sets. -/
def parentFilter (node : Text) : Option Text := if node = rootKey then none else some node

def browseData (node : Text) (depth limit offset : Nat) :
    Except ToolError (Page Text BrowseChild) := do
  let children ←
    if depth = 0 then .ok [] else listNodes tables v (parentFilter node) limit offset
  let entries ← children.mapM (browseChild tables v depth limit)
  .ok ⟨entries, if children.length = limit then
    some (offsetCursor (min maxU32 (offset + children.length))) else none⟩

structure BrowseInput where
  nodeId : Option Text
  (depth limit : Option Nat)
  cursor : Option Text

/-- The tool, from its arguments on. -/
def browseIndex (N : Normalizer) (input : BrowseInput) :
    Except ToolError (Page Text BrowseChild) := do
  let limit ← boundedLimit input.limit 50
  let depth := input.depth.getD 1
  if 2 < depth then .error ⟨"invalid_argument", "depth must not exceed 2", false⟩ else do
  let node ← parseNodeId N input.nodeId
  let offset ← parseCursor input.cursor
  browseData tables v node depth limit offset

end Answer

/-! ## Pages of one listing -/

section Listing

variable {σ : Type} {tables : IndexTables σ} {v : Nat} {limit depth : Nat}

/-- A child as it is answered. -/
def childEntry (tables : IndexTables σ) (v depth limit : Nat) (node : IndexNode) : BrowseChild where
  record := nodeRecord tables v node
  children :=
    if 1 < depth then
      some (((sortedChildren tables v (some node.stableKey)).take (min limit 25)).map
        (nodeRecord tables v))
    else none

theorem browseChild_eq (hlimit : 0 < limit) (node : IndexNode) :
    browseChild tables v depth limit (nodeRecord tables v node) =
      .ok (childEntry tables v depth limit node) := by
  rw [browseChild, childEntry]
  by_cases hdepth : 1 < depth
  · rw [if_pos hdepth, if_pos hdepth, listNodes, if_neg]
    · rfl
    · rintro (h | h | h)
      · omega
      · omega
      · exact absurd h (Nat.not_lt.mpr (Nat.zero_le _))
  · rw [if_neg hdepth, if_neg hdepth]

theorem mapM_browseChild (hlimit : 0 < limit) (nodes : List IndexNode) :
    (nodes.map (nodeRecord tables v)).mapM (browseChild tables v depth limit) =
      .ok (nodes.map (childEntry tables v depth limit)) := by
  rw [Fallible.mapM_ok_iff, forall₂_map_left_iff, forall₂_map_right_iff, forall₂_same]
  exact fun node _ => browseChild_eq hlimit node

/-- The answers are the pages of sorted children. -/
theorem browseData_eq {node : Text} {offset : Nat} (hlimit : 0 < limit) (hle : limit ≤ 100)
    (hdepth : depth ≠ 0) (hoffset : offset ≤ maxOffset) :
    browseData tables v node depth limit offset =
      offsetPage ((sortedChildren tables v (parentFilter node)).map
        (childEntry tables v depth limit)) limit maxOffset cursorRefusal offsetCursor offset := by
  have hlist : listNodes tables v (parentFilter node) limit offset =
      .ok ((((sortedChildren tables v (parentFilter node)).drop offset).take limit).map
        (nodeRecord tables v)) := by
    rw [listNodes, if_neg]
    rintro (h | h | h) <;> omega
  have hsmall : offset + (((sortedChildren tables v (parentFilter node)).drop offset).take
      limit).length ≤ maxU32 := by
    have hlength : (((sortedChildren tables v (parentFilter node)).drop offset).take
        limit).length ≤ limit := length_take_le _ _
    have hsum : maxOffset + 100 ≤ maxU32 := by decide
    omega
  rw [offsetPage, if_neg (Nat.not_lt.mpr hoffset), browseData, if_neg hdepth]
  refine bind_ok_iff.mpr ⟨_, hlist, bind_ok_iff.mpr ⟨_, mapM_browseChild hlimit _, ?_⟩⟩
  rw [← map_drop, ← map_take, length_map, length_map, Nat.min_eq_right hsmall]

end Listing

/-! ## Requests for a node -/

section Requests

variable {σ : Type}

/-- One client's requests: the cursor changes. -/
def browse (N : Normalizer) (tables : IndexTables σ) (v depth : Nat) (limit : Option Nat)
    (nodeId cursor : Option Text) : Except ToolError (Page Text BrowseChild) :=
  browseIndex tables v N ⟨nodeId, some depth, limit, cursor⟩

variable {N : Normalizer} {tables : IndexTables σ} {v depth L : Nat} {limit : Option Nat}
  {nodeId : Option Text}

theorem browse_eq (hlimit : boundedLimit limit 50 = .ok L) (hdepth : depth ≤ 2)
    (cursor : Option Text) : browse N tables v depth limit nodeId cursor =
      parseNodeId N nodeId >>= fun node => parseCursor cursor >>=
        browseData tables v node depth L := by
  rw [browse, browseIndex, hlimit]
  show (if 2 < depth then _ else _) = _
  rw [if_neg (Nat.not_lt.mpr hdepth)]
  rfl

/-- An accepted node is served with its children. -/
theorem browse_serves (hlimit : boundedLimit limit 50 = .ok L) (hdepth : depth ≠ 0 ∧ depth ≤ 2)
    {node : Text} (hnode : parseNodeId N nodeId = .ok node) :
    Serves (browse N tables v depth limit nodeId)
      ((sortedChildren tables v (parentFilter node)).map (childEntry tables v depth L))
      L maxOffset cursorRefusal offsetCursor := by
  obtain ⟨hpositive, hle⟩ := boundedLimit_ok hlimit
  have hrequest : ∀ cursor, browse N tables v depth limit nodeId cursor =
      parseCursor cursor >>= browseData tables v node depth L := by
    intro cursor
    rw [browse_eq hlimit hdepth.2, hnode]
    rfl
  refine ⟨hpositive, ?_, ?_⟩
  · rw [hrequest]
    exact browseData_eq hpositive hle hdepth.1 (Nat.zero_le _)
  · intro offset hoffset
    have hsmall : offset ≤ maxU32 := by
      have hsum : maxOffset + 100 ≤ maxU32 := by decide
      omega
    rw [hrequest, parseCursor_offsetCursor hsmall]
    by_cases hmost : maxOffset < offset
    · rw [if_pos hmost, offsetPage, if_pos hmost]
      rfl
    · rw [if_neg hmost]
      exact browseData_eq hpositive hle hdepth.1 (Nat.le_of_not_lt hmost)

/-- Nothing follows from a node that is refused. -/
theorem browse_refused (hlimit : boundedLimit limit 50 = .ok L) (hdepth : depth ≤ 2)
    {e : ToolError} (hnode : parseNodeId N nodeId = .error e) {cursor : Option Text}
    {out : List BrowseChild} : ¬ Follows (browse N tables v depth limit nodeId) cursor out := by
  have hrequest : browse N tables v depth limit nodeId cursor = .error e := by
    rw [browse_eq hlimit hdepth, hnode]
    rfl
  rintro (⟨h, -⟩ | ⟨h, -, -⟩)
  · cases hrequest.symm.trans h
  · cases hrequest.symm.trans h

theorem stripPrefix_path (type : NodeType) (name : Text) :
    stripPrefix (stableKey type name) "path:".toList = none := by
  rw [stripPrefix, if_neg]
  intro h
  obtain ⟨rest, heq⟩ := isPrefixOf_iff_prefix.mp h
  have htake := congrArg (List.take 2) heq
  rw [stableKey, take_append_of_le_length (by decide),
    take_append_of_le_length (by cases type <;> decide)] at htake
  revert htake
  cases type <;> decide

/-- A node's key is taken if short and clean. -/
theorem parseNodeId_key (N : Normalizer) (type : NodeType) (name : Text)
    (hroot : stableKey type name ≠ rootKey) :
    parseNodeId N (some (stableKey type name)) = checkIndexKey (stableKey type name) := by
  have hne : stableKey type name ≠ [] := by
    intro hnil
    have hstart := (append_eq_nil_iff.mp hnil).1
    revert hstart
    cases type <;> decide
  rw [parseNodeId, Option.getD_some, if_neg (not_or.mpr ⟨hroot, hne⟩), stripPrefix_path]

theorem parseNodeId_root (N : Normalizer) : parseNodeId N (some rootKey) = .ok rootKey := by
  rw [parseNodeId, if_pos (.inl rfl)]

theorem parseNodeId_none (N : Normalizer) : parseNodeId N none = .ok rootKey := by
  rw [parseNodeId, if_pos (.inl rfl)]

end Requests

/-! ## The stored map -/

section Stored

variable {σ : Type} {U : TagText} {uuid : Uuid} {v : Nat} {notes : List IndexedNote}
  {topics : List Topic} {tables after : IndexTables σ} {status : σ} {map : KnowledgeMap}

/-- A rebuild has stored the nodes of the map. -/
theorem rebuildVault_nodes (h : rebuildVault tables v map status = (.ok (), after)) :
    vaultNodes after v = map.nodes := by
  rw [rebuildVault] at h
  cases hreplace : replaceKnowledgeMap (clearVault tables v) v map status with
  | error e =>
    rw [hreplace] at h
    cases congrArg Prod.fst h
  | ok replaced =>
    rw [hreplace] at h
    cases h
    obtain ⟨stored, hstored, hreplace⟩ := bind_ok_iff.mp hreplace
    obtain ⟨memberships, -, hreplace⟩ := bind_ok_iff.mp hreplace
    cases hreplace
    cases hinsert : (deleteRoots (clearVault tables v).nodes v).insertAll
        (map.nodes.map (⟨v, ·⟩)) with
    | none =>
      rw [hinsert] at hstored
      cases hstored
    | some t =>
      rw [hinsert] at hstored
      cases hstored
      have hothers : (otherVaults v (clearVault tables v).nodes.rows).filter (·.vaultId = v) =
          [] := filter_eq_nil_iff.mpr fun r hr =>
        decide_eq_false (mem_otherVaults hr) ▸ Bool.false_ne_true
      have hours : (map.nodes.map (NodeRow.mk v)).filter (·.vaultId = v) =
          map.nodes.map (NodeRow.mk v) := by
        rw [filter_eq_self]
        intro r hr
        obtain ⟨n, -, rfl⟩ := mem_map.mp hr
        exact decide_eq_true rfl
      show (stored.rows.filter (·.vaultId = v)).map (·.node) = map.nodes
      rw [SqlTable.Table.insertAll_rows hinsert, deleteRoots_rows, filter_append, hothers,
        hours, nil_append, map_map]
      exact map_id _

theorem vaultNodes_nodup (tables : IndexTables σ) (v : Nat) :
    ((vaultNodes tables v).map (·.id)).Nodup ∧ ((vaultNodes tables v).map (·.stableKey)).Nodup := by
  obtain ⟨hids, hkeys, -⟩ := tables.nodes.ok
  have hsub : (tables.nodes.rows.filter (·.vaultId = v)).Sublist tables.nodes.rows :=
    filter_sublist
  refine ⟨?_, ?_⟩
  · rw [vaultNodes, map_map]
    exact unique_iff.mp (hids.sublist hsub)
  · have hpairs := unique_iff.mp (hkeys.sublist hsub)
    rw [vaultNodes, map_map]
    -- in one Vault, the pairs with the Vault differ only where the keys do
    refine pairwise_map.mpr ((pairwise_map.mp hpairs).imp_of_mem ?_)
    intro r q hr hq hne heq
    have hv : r.vaultId = q.vaultId :=
      (of_decide_eq_true (mem_filter.mp hr).2).trans (of_decide_eq_true (mem_filter.mp hq).2).symm
    exact hne (Prod.ext hv heq)

variable {tables : IndexTables σ} {node parent : IndexNode}

/-- The join finds the children of a node. -/
theorem isChild_iff (hparent : parent ∈ vaultNodes tables v) :
    isChild tables v (some parent.stableKey) node ↔ node.parentId = some parent.id := by
  obtain ⟨hids, hkeys⟩ := vaultNodes_nodup tables v
  rw [isChild, decide_eq_true_eq, parentKeyOf, Option.map_eq_some_iff]
  constructor
  · rintro ⟨p, hfind, hkey⟩
    have hp := mem_of_find?_eq_some hfind
    have hid : some p.id = node.parentId := by simpa using List.find?_some hfind
    rw [← hid, inj_on_of_nodup_map hkeys hp hparent hkey]
  · intro hid
    cases hfind : (vaultNodes tables v).find? fun p => some p.id = node.parentId with
    | none =>
      have hnot := List.find?_eq_none.mp hfind parent hparent
      exact absurd (decide_eq_true hid.symm) hnot
    | some p =>
      have hp := mem_of_find?_eq_some hfind
      have hfound : some p.id = node.parentId := by simpa using List.find?_some hfind
      have heq := Option.some.inj (hfound.trans hid)
      exact ⟨p, rfl, congrArg _ (inj_on_of_nodup_map hids hp hparent heq)⟩

theorem sortedChildren_perm (tables : IndexTables σ) (v : Nat) (key : Option Text) :
    (sortedChildren tables v key).Perm ((vaultNodes tables v).filter (isChild tables v key)) :=
  perm_insertionSort _ _

/-- The children of a node in the map. -/
def childrenOf (map : KnowledgeMap) (parent : IndexNode) : List IndexNode :=
  map.nodes.filter fun node => node.parentId = some parent.id

theorem sortedChildren_node (hnodes : vaultNodes tables v = map.nodes)
    (hparent : parent ∈ map.nodes) :
    (sortedChildren tables v (some parent.stableKey)).Perm (childrenOf map parent) := by
  refine (sortedChildren_perm tables v _).trans ?_
  rw [hnodes]
  refine List.Perm.of_eq (filter_congr fun node _ => ?_)
  rw [Bool.eq_iff_iff, isChild_iff (hnodes ▸ hparent), decide_eq_true_eq]

theorem placed_parent {before : List Text} {rest : List IndexNode} (h : Placed before rest) :
    ∀ n ∈ rest, n.parentId ≠ none := by
  intro n hn
  obtain ⟨a, b, hsplit⟩ := append_of_mem hn
  obtain ⟨p, -, hparent⟩ := parent_earlier h hsplit
  rw [hparent]
  exact Option.some_ne_none p

/-- The root is the only row without a parent. -/
theorem sortedChildren_root
    (hnodes : vaultNodes tables v = (buildKnowledgeMap U (uuid.text v) notes topics).nodes) :
    sortedChildren tables v none = [rootNode (uuid.text v)] := by
  obtain ⟨rest, hbuild, hplaced⟩ := build_placed U (uuid.text v) notes topics
  have hnone : rest.filter (isChild tables v none) = [] := by
    rw [filter_eq_nil_iff]
    intro n hn hchild
    exact placed_parent hplaced n hn (of_decide_eq_true hchild)
  have hroot : isChild tables v none (rootNode (uuid.text v)) := by
    rw [isChild]
    exact decide_eq_true rfl
  have hperm := sortedChildren_perm tables v none
  rw [hnodes, hbuild, filter_cons_of_pos hroot, hnone] at hperm
  exact perm_singleton.mp hperm

end Stored

/-! ## What a client comes to see -/

/-- The keys on the pages of one listing. -/
def Listed (request : Option Text → Except ToolError (Page Text BrowseChild)) (key : Text) : Prop :=
  ∃ cursor page, Reachable request cursor ∧ request cursor = .ok page ∧
    ∃ child ∈ page.items, child.record.stableKey = key

/-- The keys that come up from the root down. -/
inductive Browsable (request : Option Text → Option Text → Except ToolError (Page Text BrowseChild)) :
    Text → Prop
  | top {key : Text} (h : Listed (request none) key) : Browsable request key
  | child {parent key : Text} (hparent : Browsable request parent)
      (h : Listed (request (some parent)) key) : Browsable request key

section Browse

variable {σ : Type} {N : Normalizer} {U : TagText} {uuid : Uuid} {v depth L : Nat}
  {notes : List IndexedNote} {topics : List Topic} {tables : IndexTables σ} {limit : Option Nat}

/-- The cursors give exactly the node's children. -/
def ListsChildren (N : Normalizer) (tables : IndexTables σ) (v depth : Nat) (limit : Option Nat)
    (map : KnowledgeMap) (node : IndexNode) : Prop :=
  ∃ out, Follows (browse N tables v depth limit (some node.stableKey)) none out ∧
    (out.map (·.record.stableKey)).Perm ((childrenOf map node).map (·.stableKey))

/-- No folder, no tag, no topic. -/
def Flat (U : TagText) (notes : List IndexedNote) (topics : List Topic) : Prop :=
  (∀ note ∈ notes, parentFolder note.path = none ∧ ∀ source, normalizedTags U note source = []) ∧
    topics = []

theorem entries_keys (nodes : List IndexNode) :
    (nodes.map (childEntry tables v depth L)).map (·.record.stableKey) = nodes.map (·.stableKey) := by
  rw [map_map]
  rfl

theorem stableKey_of_mem {node : IndexNode} {vault : Text}
    (h : node ∈ (buildKnowledgeMap U vault notes topics).nodes) :
    ∃ type name, name ∈ names U notes topics type ∧ node.stableKey = stableKey type name := by
  have hkey : node.stableKey ∈ (buildKnowledgeMap U vault notes topics).nodes.map (·.stableKey) :=
    mem_map_of_mem h
  rw [build_keys, mem_flatMap] at hkey
  obtain ⟨type, -, hkey⟩ := hkey
  obtain ⟨name, hname, heq⟩ := mem_map.mp hkey
  exact ⟨type, name, hname, heq.symm⟩

section Answered

variable (hnodes : vaultNodes tables v = (buildKnowledgeMap U (uuid.text v) notes topics).nodes)
  (hlimit : boundedLimit limit 50 = .ok L) (hdepth : depth ≠ 0 ∧ depth ≤ 2)
include hnodes hlimit hdepth

/-- When a request for a node lists its children. -/
theorem listsChildren_iff {node : IndexNode}
    (hnode : node ∈ (buildKnowledgeMap U (uuid.text v) notes topics).nodes) :
    ListsChildren N tables v depth limit (buildKnowledgeMap U (uuid.text v) notes topics) node ↔
      node.stableKey ≠ rootKey ∧ validIndexKey node.stableKey ∧
        (childrenOf (buildKnowledgeMap U (uuid.text v) notes topics) node).length / L * L ≤
          maxOffset := by
  by_cases hroot : node.stableKey = rootKey
  · refine ⟨?_, fun h => absurd hroot h.1⟩
    rintro ⟨out, hfollows, hperm⟩
    rw [hroot] at hfollows
    obtain ⟨rfl, -⟩ := (browse_serves hlimit hdepth (parseNodeId_root N)).follows_iff.mp hfollows
    rw [parentFilter, if_pos rfl, sortedChildren_root hnodes] at hperm
    -- the answer for the root is the root itself, which has no parent
    obtain ⟨child, hchild, hkey⟩ := mem_map.mp (hperm.mem_iff.mp mem_cons_self)
    obtain ⟨hmem, hparent⟩ := mem_filter.mp hchild
    have hself : child = rootNode (uuid.text v) := by
      refine inj_on_of_nodup_map (hnodes ▸ (vaultNodes_nodup tables v).2) hmem ?_ hkey
      exact mem_cons_self
    subst hself
    cases of_decide_eq_true hparent
  · obtain ⟨type, name, -, hkey⟩ := stableKey_of_mem hnode
    have hparse : parseNodeId N (some node.stableKey) = checkIndexKey node.stableKey := by
      rw [hkey] at hroot ⊢
      exact parseNodeId_key N type name hroot
    by_cases hvalid : validIndexKey node.stableKey
    · rw [checkIndexKey, if_pos hvalid] at hparse
      have hserves := (browse_serves hlimit hdepth hparse : Serves
        (browse N tables v depth limit (some node.stableKey)) _ _ _ _ _)
      rw [parentFilter, if_neg hroot] at hserves
      have hchildren := sortedChildren_node hnodes hnode
      have hlength : ((sortedChildren tables v (some node.stableKey)).map
          (childEntry tables v depth L)).length =
            (childrenOf (buildKnowledgeMap U (uuid.text v) notes topics) node).length := by
        rw [length_map, hchildren.length_eq]
      constructor
      · rintro ⟨out, hfollows, -⟩
        exact ⟨hroot, hvalid, hlength ▸ (hserves.follows_iff.mp hfollows).2⟩
      · rintro ⟨-, -, hmost⟩
        refine ⟨_, hserves.follows_iff.mpr ⟨rfl, hlength ▸ hmost⟩, ?_⟩
        rw [entries_keys]
        exact hchildren.map _
    · rw [checkIndexKey, if_neg hvalid] at hparse
      refine ⟨?_, fun h => absurd h.2.1 hvalid⟩
      rintro ⟨out, hfollows, -⟩
      exact absurd hfollows (browse_refused hlimit hdepth.2 hparse)

/-- A listing of the root has the root and nothing else. -/
theorem listed_root_iff {nodeId : Option Text} (hnode : parseNodeId N nodeId = .ok rootKey)
    {key : Text} : Listed (browse N tables v depth limit nodeId) key ↔ key = rootKey := by
  have hserves := (browse_serves hlimit hdepth hnode : Serves
    (browse N tables v depth limit nodeId) _ _ _ _ _)
  rw [parentFilter, if_pos rfl, sortedChildren_root hnodes] at hserves
  constructor
  · rintro ⟨cursor, page, hcursor, hpage, child, hchild, rfl⟩
    rw [mem_singleton.mp (hserves.mem_of_reachable hcursor hpage child hchild)]
    rfl
  · rintro rfl
    have hfirst := hserves.first
    refine ⟨none, _, .first, hfirst, childEntry tables v depth L (rootNode (uuid.text v)), ?_, rfl⟩
    obtain ⟨n, hn⟩ := Nat.exists_eq_succ_of_ne_zero (Nat.ne_of_gt (boundedLimit_ok hlimit).1)
    rw [hn]
    exact mem_cons_self

/-- From the root on, a client comes to the root only. -/
theorem browsable_iff {key : Text} :
    Browsable (browse N tables v depth limit) key ↔ key = rootKey := by
  constructor
  · intro h
    induction h with
    | top h => exact (listed_root_iff hnodes hlimit hdepth (parseNodeId_none N)).mp h
    | child _ h ih =>
      rw [ih] at h
      exact (listed_root_iff hnodes hlimit hdepth (parseNodeId_root N)).mp h
  · intro h
    exact .top ((listed_root_iff hnodes hlimit hdepth (parseNodeId_none N)).mpr h)

end Answered

theorem foldersOf_eq_nil {path : VaultPath} (h : parentFolder path = none) :
    foldersOf path = [] := by
  rw [foldersOf]
  cases hparent : path.parent with
  | none => cases path.text.length <;> rfl
  | some q =>
    have hroot : q.isRoot := by
      by_contra hnot
      rw [parentFolder_eq_some.mpr ⟨hparent, Bool.eq_false_iff.mpr hnot⟩] at h
      cases h
    cases path.text.length with
    | zero => rfl
    | succ fuel => rw [foldersFrom, if_pos hroot]

theorem chains_eq_nil : chains topics = [] ↔ topics = [] := by
  constructor
  · intro h
    cases topics with
    | nil => rfl
    | cons topic rest =>
      have htopic := (append_eq_nil_iff.mp h).1
      cases topic
      cases htopic
  · rintro rfl
    rfl

/-- Which inputs give a map with nothing but the root. -/
theorem flat_iff : Flat U notes topics ↔ ∀ type ≠ NodeType.root, names U notes topics type = [] := by
  constructor
  · rintro ⟨hnotes, rfl⟩ type htype
    rw [eq_nil_iff_forall_not_mem]
    intro name hname
    cases type with
    | root => exact htype rfl
    | folder =>
      obtain ⟨q, hq, -⟩ := mem_map.mp hname
      obtain ⟨note, hnote, hq⟩ := mem_sortedFolders.mp hq
      rw [foldersOf_eq_nil (hnotes note hnote).1] at hq
      cases hq
    | tag =>
      obtain ⟨t, ht, -⟩ := mem_map.mp (SortedMap.mem_keys_enter.mp hname)
      obtain ⟨note, hnote, ht⟩ := mem_flatMap.mp ht
      have hpair : (t.source, t.normalizedTag) ∈ (noteTags U note).map TagProjection.pair :=
        mem_map.mpr ⟨t, ht, rfl⟩
      rw [mem_noteTags, (hnotes note hnote).2] at hpair
      cases hpair
    | manualTopic => cases hname
  · intro h
    refine ⟨fun note hnote => ⟨?_, fun source => ?_⟩, ?_⟩
    · cases hq : parentFolder note.path with
      | none => rfl
      | some q =>
        have hname : q.text ∈ names U notes topics .folder := mem_map_of_mem
          (mem_sortedFolders.mpr ⟨note, hnote, parentFolder_mem hq⟩)
        rw [h .folder (by decide)] at hname
        cases hname
    · rw [eq_nil_iff_forall_not_mem]
      intro n hn
      have hname : n ∈ names U notes topics .tag := tag_name hnote hn
      rw [h .tag (by decide)] at hname
      cases hname
    · exact chains_eq_nil.mp (map_eq_nil_iff.mp (h .manualTopic (by decide)))

theorem only_root_iff : (∀ node ∈ (buildKnowledgeMap U (uuid.text v) notes topics).nodes,
    node.stableKey = rootKey) ↔ Flat U notes topics := by
  rw [flat_iff]
  constructor
  · intro h type htype
    rw [eq_nil_iff_forall_not_mem]
    intro name hname
    have hkey : stableKey type name ∈
        (buildKnowledgeMap U (uuid.text v) notes topics).nodes.map (·.stableKey) := by
      rw [build_keys]
      refine mem_flatMap.mpr ⟨type, ?_, mem_map_of_mem hname⟩
      cases type <;> decide
    obtain ⟨node, hnode, heq⟩ := mem_map.mp hkey
    exact htype (stableKey_inj (heq.symm.trans (h node hnode))).1
  · intro h node hnode
    obtain ⟨type, name, hname, hkey⟩ := stableKey_of_mem hnode
    by_cases htype : type = .root
    · subst htype
      rw [hkey, mem_singleton.mp hname]
      rfl
    · rw [h type htype] at hname
      cases hname

end Browse

/-- Browsing a stored map lists a node's children unless it is the root, its key is refused or
    an offset is too large; only the root is ever reached. -/
theorem browse_index_iff {σ : Type} (N : Normalizer) (U : TagText) (uuid : Uuid) (v : Nat)
    (notes : List IndexedNote) (topics : List Topic) (tables after : IndexTables σ) (status : σ)
    (hstored : rebuildVault tables v (buildKnowledgeMap U (uuid.text v) notes topics) status =
      (.ok (), after)) (limit : Option Nat) (L depth : Nat) (hlimit : boundedLimit limit 50 = .ok L)
    (hdepth : depth ≠ 0 ∧ depth ≤ 2) :
    (∀ node ∈ (buildKnowledgeMap U (uuid.text v) notes topics).nodes,
      ListsChildren N after v depth limit (buildKnowledgeMap U (uuid.text v) notes topics) node ↔
        node.stableKey ≠ rootKey ∧ validIndexKey node.stableKey ∧
          (childrenOf (buildKnowledgeMap U (uuid.text v) notes topics) node).length / L * L ≤
            maxOffset) ∧
    ((∀ node ∈ (buildKnowledgeMap U (uuid.text v) notes topics).nodes,
      Browsable (browse N after v 1 limit) node.stableKey) ↔ Flat U notes topics) := by
  have hnodes := rebuildVault_nodes hstored
  refine ⟨fun node hnode => listsChildren_iff hnodes hlimit hdepth hnode, ?_⟩
  rw [← only_root_iff]
  constructor
  · intro h node hnode
    exact (browsable_iff hnodes hlimit (by decide)).mp (h node hnode)
  · intro h node hnode
    exact (browsable_iff hnodes hlimit (by decide)).mpr (h node hnode)

/-- The map of one note in a folder of a folder. -/
def nestedMap : KnowledgeMap :=
  buildKnowledgeMap asciiText (decimalIds.text 7) [⟨1, ⟨"f/g/a.md".toList⟩, [], []⟩] []

theorem nestedMap_stored : rebuildVault emptyVaultTables 7 nestedMap () =
    (.ok (), (rebuildVault emptyVaultTables 7 nestedMap ()).2) :=
  Prod.ext (by decide +kernel) rfl

/-- The root is listed below itself only. -/
theorem folder_not_reached : nestedMap.nodes.map (·.stableKey) =
      ["root".toList, "folder:f".toList, "folder:f/g".toList] ∧
    (rebuildVault emptyVaultTables 7 nestedMap ()).1 = .ok () ∧
    ¬ Browsable (browse plain (rebuildVault emptyVaultTables 7 nestedMap ()).2 7 1 none)
      "folder:f".toList ∧
    ¬ ListsChildren plain (rebuildVault emptyVaultTables 7 nestedMap ()).2 7 1 none
      nestedMap (rootNode (decimalIds.text 7)) := by
  have hnodes := rebuildVault_nodes nestedMap_stored
  refine ⟨by decide +kernel, by decide +kernel, ?_, ?_⟩
  · intro h
    exact absurd ((browsable_iff hnodes rfl (by decide)).mp h) (by decide)
  · intro h
    have hroot : rootNode (decimalIds.text 7) ∈ nestedMap.nodes := mem_cons_self
    exact ((listsChildren_iff hnodes rfl (by decide) hroot).mp h).1 rfl

/-- The folder itself is listed with the folder in it. -/
theorem folder_children_listed : ∃ node ∈ nestedMap.nodes, node.stableKey = "folder:f".toList ∧
    (childrenOf nestedMap node).map (·.stableKey) = ["folder:f/g".toList] ∧
    ListsChildren plain (rebuildVault emptyVaultTables 7 nestedMap ()).2 7 1 none
      nestedMap node := by
  refine ⟨folderNode (decimalIds.text 7) [] ⟨"f".toList⟩, by decide +kernel, by decide +kernel,
    by decide +kernel, ?_⟩
  refine ((browse_index_iff plain asciiText decimalIds 7 _ [] _ _ () nestedMap_stored
    none 50 1 rfl (by decide)).1 _ (by decide +kernel)).mpr ⟨by decide, by decide, ?_⟩
  decide +kernel

end KnowledgeIndex
