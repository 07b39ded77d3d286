import McpVault.TaxonomyProofs

/-! # The knowledge map — folders, tags and topics of a Vault

A rebuild of the index makes one tree of the folders, the tags and the topics of a Vault, and
says which notes belong to which node.  This file has the construction and what it makes: the
stable keys of the nodes, where their parents stand, and the memberships of each note. -/

namespace KnowledgeIndex

open List
open LogicalPath (VaultPath beforeLastSlash byteLen bytesOf joined joined_cons joined_singleton root splitOn_joined)
open PlainText (Text isControl)
open SortedMap (enter forall_enter keys_enter mem_keys_enter)

/-! ## The tags of a note -/

/-- Unicode's classes and case mapping. -/
structure TagText where
  (isWhitespace isAlphanumeric : Char → Bool)
  toLowercase : Char → Text

/-- A note with its tags and the texts for others. -/
structure IndexedNote where
  fileId : Nat
  path : VaultPath
  (frontmatterTags texts : List Text)

inductive TagSource where
  | frontmatter
  | inline
  deriving DecidableEq

def TagSource.label : TagSource → Text
  | .frontmatter => "frontmatter".toList
  | .inline => "inline".toList

structure TagProjection where
  (tag normalizedTag : Text)
  source : TagSource

section Tags

variable (U : TagText)

def normalizeTag (value : Text) : Text :=
  let trimmed := ((value.dropWhile U.isWhitespace).reverse.dropWhile U.isWhitespace).reverse
  (trimmed.dropWhile (· = '#')).flatMap U.toLowercase

def isTagCharacter (c : Char) : Bool :=
  U.isAlphanumeric c || decide (c = '_' ∨ c = '-' ∨ c = '/')

/-- No word character stands before the sign. -/
def atBoundary : Option Char → Bool
  | none => true
  | some previous => !U.isAlphanumeric previous && decide (previous ≠ '_')

/-- `scan_inline_tags`, after the character `previous`. -/
def scanInlineTags (previous : Option Char) : Text → List Text
  | [] => []
  | c :: rest =>
    let found := rest.takeWhile (isTagCharacter U)
    if c = '#' ∧ atBoundary U previous ∧ found ≠ [] then
      found :: scanInlineTags (some c) rest
    else scanInlineTags (some c) rest

/-- A note's tags from a source, as written. -/
def sourceTags (note : IndexedNote) : TagSource → List Text
  | .frontmatter => note.frontmatterTags
  | .inline => note.texts.flatMap (scanInlineTags U none)

def tagKey (source : TagSource) (normalized : Text) : Text :=
  source.label ++ ':' :: normalized

/-- A tag of a source, unless nothing is left of it. -/
def tagProjection (source : TagSource) (tag : Text) : Option TagProjection :=
  let normalized := normalizeTag U tag
  if normalized = [] then none else some ⟨tag, normalized, source⟩

/-- The tags as `analyze_markdown` enters them. -/
def foundTags (note : IndexedNote) : List TagProjection :=
  (sourceTags U note .frontmatter).filterMap (tagProjection U .frontmatter) ++
    (sourceTags U note .inline).filterMap (tagProjection U .inline)

/-- The `tags` map: the first tag under a key stays. -/
def tagMap (note : IndexedNote) : List (Text × TagProjection) :=
  enter (fun t => tagKey t.source t.normalizedTag) (fun t => t) (fun _ old => old)
    (foundTags U note)

def noteTags (note : IndexedNote) : List TagProjection := (tagMap U note).map (·.2)

/-- What the tags of a source are normalized to. -/
def normalizedTags (note : IndexedNote) (source : TagSource) : List Text :=
  ((sourceTags U note source).map (normalizeTag U)).filter (· ≠ [])

end Tags

/-! ## Globs -/

/-- `glob_matches`; `back` is where the last star resumes. -/
def globLoop (pattern value : List UInt8) (back : Option (List UInt8 × List UInt8))
    (h : ∀ b ∈ back, pattern.length ≤ b.1.length) : Bool :=
  match value with
  | [] => pattern.all (· = '*'.toUInt8)
  | v :: value' =>
    let retry : Bool :=
      match back with
      | some (again, _ :: from') => globLoop again from' (some (again, from')) (by simp)
      | _ => false
    match pattern with
    | [] => retry
    | p :: pattern' =>
      if p = v ∨ p = '?'.toUInt8 then
        globLoop pattern' value' back fun b hb =>
          Nat.le_trans (Nat.le_succ _) (h b hb)
      else if p = '*'.toUInt8 then
        globLoop pattern' (v :: value') (some (pattern', v :: value')) (by simp)
      else retry
termination_by ((back.map (·.1.length)).getD (pattern.length + 1),
  (back.map (·.2.length)).getD 0, pattern.length + value.length)
decreasing_by
  -- a retry moves the value, a match moves both, and a star moves `back` up
  · exact .right _ (.left _ _ (Nat.lt_succ_self _))
  · clear retry
    cases back with
    | none => exact .left _ _ (Nat.lt_succ_self _)
    | some b => exact .right _ (.right _ (Nat.add_lt_add (Nat.lt_succ_self _) (Nat.lt_succ_self _)))
  · refine .left _ _ ?_
    clear retry
    cases back with
    | none => exact Nat.lt_succ_of_le (Nat.le_succ _)
    | some b => exact h b rfl

def globMatches (pattern value : Text) : Bool :=
  globLoop (bytesOf pattern) (bytesOf value) none (by simp)

/-! ## Nodes and memberships -/

inductive NodeType where
  | root
  | folder
  | tag
  | manualTopic
  deriving DecidableEq

/-- How the stable keys of a type begin. -/
def NodeType.keyStart : NodeType → Text
  | .root => "root".toList
  | .folder => "folder:".toList
  | .tag => "tag:".toList
  | .manualTopic => "topic:".toList

inductive NodeSource where
  | derived
  | taxonomy
  deriving DecidableEq

/-- A node with its parent's identifier. -/
structure IndexNode where
  id : Text
  parentId : Option Text
  nodeType : NodeType
  (stableKey title : Text)
  summary : Option Text
  sourceType : NodeSource
  sourceRef : Option Text
  sortKey : Text
  deriving DecidableEq

inductive MembershipSource where
  | folder
  | tag
  | taxonomy
  deriving DecidableEq

structure IndexMembership where
  nodeId : Text
  (fileId relevance : Nat)
  sourceType : MembershipSource
  deriving DecidableEq

/-- The columns of the primary key, next to the Vault. -/
def IndexMembership.key (m : IndexMembership) : Text × Nat × MembershipSource :=
  (m.nodeId, m.fileId, m.sourceType)

structure KnowledgeMap where
  nodes : List IndexNode
  memberships : List IndexMembership
  deriving DecidableEq

instance : Append KnowledgeMap where
  append a b := ⟨a.nodes ++ b.nodes, a.memberships ++ b.memberships⟩

def stableKey (type : NodeType) (name : Text) : Text := type.keyStart ++ name

def nodeId (vault : Text) (type : NodeType) (name : Text) : Text :=
  vault ++ ":index:".toList ++ stableKey type name

section Build

variable (U : TagText) (vault : Text) (notes : List IndexedNote)

def rootId : Text := nodeId vault .root []

def rootNode : IndexNode where
  id := rootId vault
  parentId := none
  nodeType := .root
  stableKey := stableKey .root []
  title := "Vault".toList
  summary := none
  sourceType := .derived
  sourceRef := none
  sortKey := []

/-! ### Folders -/

/-- The folders from one upwards, below the root. -/
def foldersFrom : Nat → Option VaultPath → List VaultPath
  | fuel + 1, some path => if path.isRoot then [] else path :: foldersFrom fuel path.parent
  | _, _ => []

/-- A path's folders.  Every parent is shorter. -/
def foldersOf (path : VaultPath) : List VaultPath := foldersFrom path.text.length path.parent

def folderPaths : List (Text × VaultPath) :=
  enter VaultPath.text (fun path => path) (fun path _ => path)
    (notes.flatMap fun note => foldersOf note.path)

def folderRank (path : VaultPath) : Nat ×ₗ Text := toLex (path.depth, path.text)

def sortedFolders : List VaultPath :=
  ((folderPaths notes).map (·.2)).insertionSort fun p q => folderRank p ≤ folderRank q

/-- `folder_ids`, once these folders have their node. -/
def folderIds (done : List VaultPath) : List (Text × Text) :=
  done.map fun path => (path.text, nodeId vault .folder path.text)

def fileName (path : VaultPath) : Option Text := path.segments.getLast?

/-- The parent of a path, if it is a folder of its own. -/
def parentFolder (path : VaultPath) : Option VaultPath := path.parent.filter fun p => !p.isRoot

def folderNode (ids : List (Text × Text)) (path : VaultPath) : IndexNode where
  id := nodeId vault .folder path.text
  parentId := ((parentFolder path).bind fun p => ids.lookup p.text).or (some (rootId vault))
  nodeType := .folder
  stableKey := stableKey .folder path.text
  title := (fileName path).getD "Folder".toList
  summary := none
  sourceType := .derived
  sourceRef := some path.text
  sortKey := stableKey .folder path.text

def folderNodes (done : List VaultPath) : List VaultPath → List IndexNode
  | [] => []
  | path :: rest =>
    folderNode vault (folderIds vault done) path :: folderNodes (done ++ [path]) rest

/-! ### Tags -/

/-- The first spelling of every tag. -/
def tagDisplay : List (Text × Text) :=
  enter TagProjection.normalizedTag TagProjection.tag (fun _ old => old)
    (notes.flatMap (noteTags U))

def tagNode (entry : Text × Text) : IndexNode where
  id := nodeId vault .tag entry.1
  parentId := some (rootId vault)
  nodeType := .tag
  stableKey := stableKey .tag entry.1
  title := entry.2
  summary := none
  sourceType := .derived
  sourceRef := some entry.1
  sortKey := stableKey .tag entry.1

def tagIds : List (Text × Text) :=
  (tagDisplay U notes).map fun entry => (entry.1, nodeId vault .tag entry.1)

def folderMembership (note : IndexedNote) : Option IndexMembership := do
  let parent ← parentFolder note.path
  let id ← (folderIds vault (sortedFolders notes)).lookup parent.text
  some ⟨id, note.fileId, 1, .folder⟩

def tagMembership (note : IndexedNote) (tag : TagProjection) : Option IndexMembership := do
  let id ← (tagIds U vault notes).lookup tag.normalizedTag
  some ⟨id, note.fileId, 1, .tag⟩

def noteMemberships (note : IndexedNote) : List IndexMembership :=
  (folderMembership vault notes note).toList ++
    (noteTags U note).filterMap (tagMembership U vault notes note)

/-! ### Topics -/

/-- A topic's identifier below the key `parentKey`. -/
def qualify : Option Text → Text → Text
  | none, id => id
  | some parentKey, id => parentKey ++ '/' :: id

def topicNode (topic : Topic) (parentId qualified : Text) : IndexNode where
  id := nodeId vault .manualTopic qualified
  parentId := some parentId
  nodeType := .manualTopic
  stableKey := stableKey .manualTopic qualified
  title := topic.title
  summary := topic.description
  sourceType := .taxonomy
  sourceRef := some ("_mcp-vault/index.yaml:".toList ++ qualified)
  sortKey := stableKey .manualTopic qualified

def anyMatches (patterns : List Text) (note : IndexedNote) : Bool :=
  patterns.any fun pattern => globMatches pattern note.path.text

/-- A note that the patterns of a topic take. -/
def topicMembership (topic : Topic) (qualified : Text) (note : IndexedNote) :
    Option IndexMembership :=
  if (topic.includes.isEmpty || anyMatches topic.includes note) && !anyMatches topic.excludes note
  then
    some ⟨nodeId vault .manualTopic qualified, note.fileId,
      if anyMatches topic.pinned note then 2 else 1, .taxonomy⟩
  else none

mutual

/-- `add_taxonomy_topic`: what it pushes. -/
def addTaxonomyTopic : Topic → Text → Option Text → KnowledgeMap
  | ⟨id, title, description, includes, excludes, pinned, aliases, children⟩, parentId, parentKey =>
    let topic : Topic := ⟨id, title, description, includes, excludes, pinned, aliases, []⟩
    let qualified := qualify parentKey id
    ⟨[topicNode vault topic parentId qualified],
      notes.filterMap (topicMembership vault topic qualified)⟩ ++
        addTaxonomyTopics children (nodeId vault .manualTopic qualified) (some qualified)

def addTaxonomyTopics : List Topic → Text → Option Text → KnowledgeMap
  | [], _, _ => ⟨[], []⟩
  | topic :: rest, parentId, parentKey =>
    addTaxonomyTopic topic parentId parentKey ++ addTaxonomyTopics rest parentId parentKey

end

/-- The root, folders, tags and topics. -/
def buildKnowledgeMap (topics : List Topic) : KnowledgeMap :=
  ⟨rootNode vault :: folderNodes vault [] (sortedFolders notes) ++
      (tagDisplay U notes).map (tagNode vault),
    notes.flatMap (noteMemberships U vault notes)⟩ ++
      addTaxonomyTopics vault notes topics (rootId vault) none

end Build

/-! ## Tags under two keys -/

section TagLemmas

variable {U : TagText} {s s' : TagSource} {n n' tag : Text}
  {note : IndexedNote}

theorem tagKey_inj (h : tagKey s n = tagKey s' n') : s = s' ∧ n = n' := by
  -- the labels differ in their first character
  have hfirst : ∀ (s : TagSource) (rest : Text), (s.label ++ rest).take 1 = s.label.take 1 :=
    fun s rest => take_append_of_le_length (by cases s <;> decide)
  have htake := congrArg (List.take 1) h
  rw [tagKey, tagKey, hfirst, hfirst] at htake
  have hs : s = s' := by
    cases s <;> cases s' <;> first | rfl | exact absurd htake (by decide)
  subst hs
  exact ⟨rfl, (List.cons.inj (append_cancel_left h)).2⟩

/-- The source and the normalized form of a tag. -/
def TagProjection.pair (t : TagProjection) : TagSource × Text := (t.source, t.normalizedTag)

theorem mem_tagProjection (source : TagSource) :
    (s, n) ∈ ((sourceTags U note source).filterMap (tagProjection U source)).map
      TagProjection.pair ↔ s = source ∧ n ∈ normalizedTags U note source := by
  rw [normalizedTags, mem_filter, mem_map, mem_map]
  constructor
  · rintro ⟨t, ht, hpair⟩
    obtain ⟨tag, htag, hsome⟩ := mem_filterMap.mp ht
    rw [tagProjection] at hsome
    split_ifs at hsome with hempty
    cases hsome
    cases hpair
    exact ⟨rfl, ⟨tag, htag, rfl⟩, decide_eq_true hempty⟩
  · rintro ⟨rfl, ⟨tag, htag, rfl⟩, hne⟩
    refine ⟨⟨tag, normalizeTag U tag, s⟩, mem_filterMap.mpr ⟨tag, htag, ?_⟩, rfl⟩
    rw [tagProjection, if_neg (of_decide_eq_true hne)]

theorem mem_foundTags : (s, n) ∈ (foundTags U note).map TagProjection.pair ↔
    n ∈ normalizedTags U note s := by
  rw [foundTags, map_append, mem_append, mem_tagProjection, mem_tagProjection]
  cases s <;> simp

theorem tagMap_keys : (tagMap U note).map (·.1) =
    ((noteTags U note).map TagProjection.pair).map fun p => tagKey p.1 p.2 := by
  rw [noteTags, map_map, map_map]
  refine map_congr_left ?_
  exact forall_enter (fun _ _ => rfl) fun _ _ _ hv => hv

theorem noteTags_pairs_nodup (U : TagText) (note : IndexedNote) :
    ((noteTags U note).map TagProjection.pair).Nodup := by
  refine List.Nodup.of_map (fun p => tagKey p.1 p.2) ?_
  rw [← tagMap_keys]
  exact keys_enter.imp ne_of_lt

theorem mem_noteTags : (s, n) ∈ (noteTags U note).map TagProjection.pair ↔
    n ∈ normalizedTags U note s := by
  have hkey : ∀ l : List (TagSource × Text),
      tagKey s n ∈ l.map (fun p => tagKey p.1 p.2) ↔ (s, n) ∈ l := by
    intro l
    constructor
    · intro h
      obtain ⟨p, hp, heq⟩ := mem_map.mp h
      obtain ⟨rfl, rfl⟩ := tagKey_inj heq
      exact hp
    · exact fun h => mem_map.mpr ⟨_, h, rfl⟩
  rw [← hkey, ← tagMap_keys, tagMap, mem_keys_enter, ← mem_foundTags, ← hkey, map_map]
  rfl

/-- No tag twice iff none comes from both sources. -/
theorem noteTags_nodup_iff : ((noteTags U note).map (·.normalizedTag)).Nodup ↔
    ∀ n ∈ normalizedTags U note .frontmatter, n ∉ normalizedTags U note .inline := by
  have hmap : (noteTags U note).map (·.normalizedTag) =
      ((noteTags U note).map TagProjection.pair).map (·.2) := by
    rw [map_map]
    rfl
  rw [hmap]
  constructor
  · intro h n hfront hinline
    have heq := inj_on_of_nodup_map h (mem_noteTags.mpr hfront) (mem_noteTags.mpr hinline) rfl
    cases congrArg Prod.fst heq
  · intro h
    refine (noteTags_pairs_nodup U note).map_on ?_
    rintro ⟨s, n⟩ hp ⟨s', n'⟩ hq rfl
    cases s <;> cases s'
    · rfl
    · exact absurd (mem_noteTags.mp hq) (h n (mem_noteTags.mp hp))
    · exact absurd (mem_noteTags.mp hp) (h n (mem_noteTags.mp hq))
    · rfl

end TagLemmas

/-! ## Folders before their subfolders -/

section FolderLemmas

variable {p q : VaultPath} {notes : List IndexedNote}

/-- The parent lacks the last segment. -/
theorem parent_cases (h : p.parent = some q) : p.isRoot = false ∧ (q = root ∨
    ∃ init s, init ≠ [] ∧ (∀ t ∈ init ++ [s], '/' ∉ t) ∧ p.text = joined (init ++ [s]) ∧
      q.text = joined init) := by
  rw [VaultPath.parent] at h
  by_cases hroot : p.isRoot
  · rw [if_pos hroot] at h
    cases h
  rw [if_neg hroot] at h
  refine ⟨Bool.eq_false_iff.mpr hroot, ?_⟩
  cases hslash : beforeLastSlash p.text with
  | none =>
    rw [hslash] at h
    exact .inl (Option.some.inj h).symm
  | some parent =>
    rw [hslash] at h
    cases h
    obtain ⟨segs, hsegs, hfree, htext⟩ := LogicalPath.exists_joined p.text
    obtain ⟨init, s, rfl⟩ : ∃ init s, segs = init ++ [s] :=
      ⟨segs.dropLast, segs.getLast hsegs, (dropLast_append_getLast hsegs).symm⟩
    have hs : '/' ∉ s := hfree s (mem_append_right _ mem_cons_self)
    have hinit : init ≠ [] := by
      rintro rfl
      rw [htext, nil_append, joined_singleton, beforeLastSlash, if_neg hs]
        at hslash
      cases hslash
    rw [htext, LogicalPath.beforeLastSlash_joined hinit hs] at hslash
    exact .inr ⟨init, s, hinit, hfree, htext, (Option.some.inj hslash).symm⟩

theorem parent_shorter (h : p.parent = some q) : q.text.length < p.text.length := by
  obtain ⟨hroot, rfl | ⟨init, s, hinit, -, hp, hq⟩⟩ := parent_cases h
  · exact length_pos_iff.mpr fun hnil => by simp [VaultPath.isRoot, hnil] at hroot
  · rw [hp, hq, LogicalPath.joined_append hinit (cons_ne_nil _ _), length_append, length_cons]
    omega

theorem parent_depth (h : p.parent = some q) : q.depth < p.depth := by
  obtain ⟨hroot, rfl | ⟨init, s, hinit, hfree, hp, hq⟩⟩ := parent_cases h
  · show 0 < p.depth
    rw [VaultPath.depth, if_neg (Bool.eq_false_iff.mp hroot)]
    exact length_pos_iff.mpr (splitOn_ne_nil _ _)
  · rw [VaultPath.depth, VaultPath.depth, if_neg (Bool.eq_false_iff.mp hroot), hp, hq,
      splitOn_joined (by simp) hfree,
      splitOn_joined hinit fun t ht => hfree t (mem_append_left _ ht)]
    split_ifs <;> simp

theorem mem_foldersFrom {fuel : Nat} {start : Option VaultPath}
    (hfuel : ∀ s ∈ start, s.text.length < fuel) (hp : p ∈ foldersFrom fuel start) :
    p.isRoot = false ∧ ∀ r, p.parent = some r → r.isRoot = false → r ∈ foldersFrom fuel start := by
  induction fuel generalizing start with
  | zero => cases hp
  | succ fuel ih =>
    cases start with
    | none => cases hp
    | some s =>
      have hs := hfuel s rfl
      have hshort : ∀ r ∈ s.parent, r.text.length < fuel := fun r hr =>
        Nat.lt_of_lt_of_le (parent_shorter hr) (Nat.le_of_lt_succ hs)
      rw [foldersFrom] at hp ⊢
      by_cases hroot : s.isRoot
      · rw [if_pos hroot] at hp
        cases hp
      · rw [if_neg hroot] at hp ⊢
        rcases mem_cons.mp hp with rfl | hp
        · refine ⟨Bool.eq_false_iff.mpr hroot, fun r hr hnot => ?_⟩
          -- the parent is shorter still, so that the fuel reaches it
          obtain ⟨fuel, rfl⟩ := Nat.exists_eq_add_of_lt (hshort r hr)
          rw [hr, foldersFrom, if_neg (Bool.eq_false_iff.mp hnot)]
          exact mem_cons_of_mem _ mem_cons_self
        · obtain ⟨hnot, hup⟩ := ih hshort hp
          exact ⟨hnot, fun r hr hr' => mem_cons_of_mem _ (hup r hr hr')⟩

theorem parentFolder_eq_some : parentFolder p = some q ↔ p.parent = some q ∧ q.isRoot = false := by
  rw [parentFolder]
  simp

theorem parentFolder_mem (h : parentFolder p = some q) : q ∈ foldersOf p := by
  obtain ⟨hparent, hroot⟩ := parentFolder_eq_some.mp h
  obtain ⟨fuel, hfuel⟩ := Nat.exists_eq_add_of_lt (parent_shorter hparent)
  rw [foldersOf, hfuel, hparent, foldersFrom, if_neg (Bool.eq_false_iff.mp hroot)]
  exact mem_cons_self

theorem parentFolder_closed {path : VaultPath} (hp : p ∈ foldersOf path)
    (h : parentFolder p = some q) : q ∈ foldersOf path := by
  obtain ⟨hparent, hroot⟩ := parentFolder_eq_some.mp h
  exact (mem_foldersFrom (fun _ hs => parent_shorter hs) hp).2 q hparent hroot

theorem folderPaths_keys : (folderPaths notes).map (·.1) =
    ((folderPaths notes).map (·.2)).map VaultPath.text := by
  rw [map_map]
  refine map_congr_left ?_
  exact forall_enter (fun _ _ => rfl)
    fun _ _ _ _ => rfl

theorem text_inj (h : p.text = q.text) : p = q := by
  cases p
  cases q
  exact congrArg _ h

theorem sortedFolders_perm (notes : List IndexedNote) :
    (sortedFolders notes).Perm ((folderPaths notes).map (·.2)) :=
  perm_insertionSort _ _

theorem sortedFolders_nodup (notes : List IndexedNote) :
    ((sortedFolders notes).map VaultPath.text).Nodup := by
  rw [((sortedFolders_perm notes).map _).nodup_iff, ← folderPaths_keys]
  exact keys_enter.imp ne_of_lt

theorem mem_sortedFolders : p ∈ sortedFolders notes ↔ ∃ note ∈ notes, p ∈ foldersOf note.path := by
  have htext : ∀ l : List VaultPath, p.text ∈ l.map VaultPath.text ↔ p ∈ l := fun l =>
    ⟨fun h => by
      obtain ⟨r, hr, heq⟩ := mem_map.mp h
      exact text_inj heq ▸ hr, fun h => mem_map_of_mem h⟩
  rw [(sortedFolders_perm notes).mem_iff, ← htext, ← folderPaths_keys, folderPaths,
    mem_keys_enter, htext, mem_flatMap]

/-- A folder stands after the folder that it is in. -/
theorem parentFolder_before {done rest : List VaultPath}
    (h : sortedFolders notes = done ++ p :: rest) (hq : parentFolder p = some q) : q ∈ done := by
  have hmem : q ∈ sortedFolders notes := by
    have hp : p ∈ sortedFolders notes := by
      rw [h]
      exact mem_append_right _ mem_cons_self
    obtain ⟨note, hnote, hp⟩ := mem_sortedFolders.mp hp
    exact mem_sortedFolders.mpr ⟨note, hnote, parentFolder_closed hp hq⟩
  have hdepth : q.depth < p.depth := parent_depth (parentFolder_eq_some.mp hq).1
  have hsorted : (sortedFolders notes).Pairwise fun p q => folderRank p ≤ folderRank q :=
    pairwise_insertionSort _ _
  rw [h] at hmem hsorted
  rcases mem_append.mp hmem with hmem | hmem
  · exact hmem
  · -- what stands after is not less deep
    exfalso
    rcases mem_cons.mp hmem with rfl | hmem
    · exact Nat.lt_irrefl _ hdepth
    · have hle := (pairwise_cons.mp (pairwise_append.mp hsorted).2.1).1 q hmem
      rcases Prod.Lex.toLex_le_toLex.mp hle with hlt | ⟨heq, -⟩
      · exact Nat.lt_asymm hdepth hlt
      · exact absurd heq (Nat.ne_of_gt hdepth)

end FolderLemmas

/-! ## Where the nodes stand -/

section Nodes

variable {U : TagText} {vault : Text} {notes : List IndexedNote}

/-- Every node has its parent earlier, or in `before`. -/
def Placed (before : List Text) : List IndexNode → Prop
  | [] => True
  | node :: rest =>
    (∃ p ∈ before, node.parentId = some p) ∧ Placed (before ++ [node.id]) rest

variable {before : List Text} {nodes more : List IndexNode}

theorem Placed.append : Placed before (nodes ++ more) ↔
    Placed before nodes ∧ Placed (before ++ nodes.map (·.id)) more := by
  induction nodes generalizing before with
  | nil => simp [Placed]
  | cons node nodes ih =>
    rw [cons_append, Placed, Placed, ih, map_cons, append_assoc, singleton_append, and_assoc]

/-- Identifier and stable key name the same thing. -/
def Named (vault : Text) (node : IndexNode) : Prop :=
  node.id = vault ++ ":index:".toList ++ node.stableKey

theorem lookup_self {f : Text → Text} {keys : List Text} {k : Text} (h : k ∈ keys) :
    (keys.map fun k => (k, f k)).lookup k = some (f k) := by
  induction keys with
  | nil => cases h
  | cons k' keys ih =>
    rw [map_cons, lookup_cons]
    by_cases heq : k = k'
    · rw [heq, beq_self_eq_true]
    · rw [beq_false_of_ne heq]
      exact ih ((mem_cons.mp h).resolve_left heq)

variable {done rest : List VaultPath}

theorem lookup_folderIds {q : VaultPath} (h : q ∈ done) :
    (folderIds vault done).lookup q.text = some (nodeId vault .folder q.text) := by
  have hmap : folderIds vault done =
      (done.map VaultPath.text).map fun t => (t, nodeId vault .folder t) := by
    rw [map_map]
    rfl
  rw [hmap]
  exact lookup_self (mem_map_of_mem h)

theorem folderNodes_placed (h : sortedFolders notes = done ++ rest) :
    Placed (rootId vault :: done.map fun q => nodeId vault .folder q.text)
      (folderNodes vault done rest) := by
  induction rest generalizing done with
  | nil => trivial
  | cons path rest ih =>
    refine ⟨?_, ?_⟩
    · cases hq : parentFolder path with
      | none =>
        refine ⟨rootId vault, mem_cons_self, ?_⟩
        rw [folderNode, hq]
        rfl
      | some q =>
        have hdone := parentFolder_before h hq
        refine ⟨nodeId vault .folder q.text, mem_cons_of_mem _ (mem_map.mpr ⟨q, hdone, rfl⟩), ?_⟩
        rw [folderNode, hq, Option.bind_some, lookup_folderIds hdone]
        rfl
    · have hnext : sortedFolders notes = (done ++ [path]) ++ rest := by
        rw [h, append_assoc]
        rfl
      have hrest := ih hnext
      rw [map_append] at hrest
      exact hrest

theorem folderNodes_keys : (folderNodes vault done rest).map (·.stableKey) =
      (rest.map VaultPath.text).map (stableKey .folder) := by
  induction rest generalizing done with
  | nil => rfl
  | cons path rest ih => exact congrArg _ ih

theorem folderNodes_named : ∀ n ∈ folderNodes vault done rest, Named vault n := by
  induction rest generalizing done with
  | nil =>
    intro n hn
    cases hn
  | cons path rest ih =>
    intro n hn
    rcases mem_cons.mp hn with rfl | hn
    · rfl
    · exact ih n hn

theorem tagNodes_placed (entries : List (Text × Text)) (h : rootId vault ∈ before) :
    Placed before (entries.map (tagNode vault)) := by
  induction entries generalizing before with
  | nil => trivial
  | cons e entries ih => exact ⟨⟨_, h, rfl⟩, ih (mem_append_left _ h)⟩

/-! ### Topics -/

theorem qualify_chain (parentKey : Option Text) (id : Text) {c : List Text} (hc : c ≠ []) :
    qualify (some (qualify parentKey id)) (joined c) = qualify parentKey (joined (id :: c)) := by
  rw [joined_cons hc]
  cases parentKey with
  | none => rfl
  | some key => exact append_assoc _ _ _

theorem append_nodes (a b : KnowledgeMap) : (a ++ b).nodes = a.nodes ++ b.nodes := rfl

theorem append_memberships (a b : KnowledgeMap) :
    (a ++ b).memberships = a.memberships ++ b.memberships := rfl

section

variable (topics : List Topic) (parentId : Text) (parentKey : Option Text)

/-- Topic keys are chains joined by slashes. -/
theorem addTaxonomyTopics_keys :
    (addTaxonomyTopics vault notes topics parentId parentKey).nodes.map (·.stableKey) =
      (chains topics).map fun c => stableKey .manualTopic (qualify parentKey (joined c)) := by
  induction topics using forest_induction generalizing parentId parentKey with
  | nil => rfl
  | cons id _ _ _ _ _ _ children rest hchildren hrest =>
    rw [addTaxonomyTopics, append_nodes, map_append, hrest, addTaxonomyTopic, append_nodes,
      map_append, hchildren, chains, Topic.chains, map_append, map_cons, map_nil, map_cons, map_map,
      joined_singleton]
    refine congrArg (· ++ _) (congrArg _ (map_congr_left fun c hc => ?_))
    exact congrArg _ (qualify_chain parentKey id (chains_ne_nil children c hc))

theorem addTaxonomyTopics_placed (before : List Text) (h : parentId ∈ before) :
    Placed before (addTaxonomyTopics vault notes topics parentId parentKey).nodes := by
  induction topics using forest_induction generalizing parentId parentKey before with
  | nil => trivial
  | cons _ _ _ _ _ _ _ _ _ hchildren hrest =>
    rw [addTaxonomyTopics, append_nodes, Placed.append, addTaxonomyTopic, append_nodes,
      Placed.append]
    exact ⟨⟨⟨⟨parentId, h, rfl⟩, trivial⟩, hchildren _ _ _ (mem_append_right _ mem_cons_self)⟩,
      hrest _ _ _ (mem_append_left _ h)⟩

theorem addTaxonomyTopics_named :
    ∀ n ∈ (addTaxonomyTopics vault notes topics parentId parentKey).nodes, Named vault n := by
  induction topics using forest_induction generalizing parentId parentKey with
  | nil => exact nofun
  | cons _ _ _ _ _ _ _ _ _ hchildren hrest =>
    intro n hn
    rw [addTaxonomyTopics, append_nodes, addTaxonomyTopic, append_nodes, mem_append, mem_append,
      mem_singleton] at hn
    rcases hn with (rfl | hn) | hn
    · rfl
    · exact hchildren _ _ n hn
    · exact hrest _ _ n hn

end

/-! ### The whole map -/

variable {topics : List Topic}

theorem build_nodes : (buildKnowledgeMap U vault notes topics).nodes =
    rootNode vault :: (folderNodes vault [] (sortedFolders notes) ++
      ((tagDisplay U notes).map (tagNode vault) ++
        (addTaxonomyTopics vault notes topics (rootId vault) none).nodes)) := by
  rw [buildKnowledgeMap, append_nodes, cons_append, cons_append, append_assoc]

/-- The parents stand earlier. -/
theorem build_placed (U : TagText) (vault : Text) (notes : List IndexedNote)
    (topics : List Topic) : ∃ rest, (buildKnowledgeMap U vault notes topics).nodes =
      rootNode vault :: rest ∧ Placed [rootId vault] rest := by
  refine ⟨_, build_nodes, Placed.append.mpr ⟨?_, Placed.append.mpr ⟨?_, ?_⟩⟩⟩
  · exact folderNodes_placed (nil_append _).symm
  · exact tagNodes_placed _ mem_cons_self
  · exact addTaxonomyTopics_placed _ _ _ _
      (mem_append_left _ (mem_append_left _ mem_cons_self))

theorem build_named : ∀ n ∈ (buildKnowledgeMap U vault notes topics).nodes, Named vault n := by
  intro n hn
  rw [build_nodes, mem_cons, mem_append, mem_append] at hn
  rcases hn with rfl | hn | hn | hn
  · exact congrArg (· ++ stableKey .root []) rfl
  · exact folderNodes_named n hn
  · obtain ⟨e, -, rfl⟩ := mem_map.mp hn
    rfl
  · exact addTaxonomyTopics_named _ _ _ n hn

/-- The names of the nodes of a type. -/
def names (U : TagText) (notes : List IndexedNote) (topics : List Topic) : NodeType → List Text
  | .root => [[]]
  | .folder => (sortedFolders notes).map VaultPath.text
  | .tag => (tagDisplay U notes).map (·.1)
  | .manualTopic => (chains topics).map joined

theorem build_keys : (buildKnowledgeMap U vault notes topics).nodes.map (·.stableKey) =
    [NodeType.root, .folder, .tag, .manualTopic].flatMap fun type =>
      (names U notes topics type).map (stableKey type) := by
  have htags : ((tagDisplay U notes).map (tagNode vault)).map (·.stableKey) =
      (names U notes topics .tag).map (stableKey .tag) := by
    rw [names, map_map, map_map]
    rfl
  have htopics : (addTaxonomyTopics vault notes topics (rootId vault) none).nodes.map
      (·.stableKey) = (names U notes topics .manualTopic).map (stableKey .manualTopic) := by
    rw [names, map_map, addTaxonomyTopics_keys]
    rfl
  rw [build_nodes, map_cons, map_append, map_append, folderNodes_keys, htags, htopics]
  simp [names, rootNode]

theorem stableKey_inj {k k' : NodeType} {a b : Text} (h : stableKey k a = stableKey k' b) :
    k = k' ∧ a = b := by
  -- two characters tell the types apart
  have hfirst : ∀ (k : NodeType) (rest : Text), (k.keyStart ++ rest).take 2 = k.keyStart.take 2 :=
    fun k rest => take_append_of_le_length (by cases k <;> decide)
  have htake := congrArg (List.take 2) h
  rw [stableKey, stableKey, hfirst, hfirst] at htake
  have hk : k = k' := by
    revert htake
    cases k <;> cases k' <;> decide
  subst hk
  exact ⟨rfl, append_cancel_left h⟩

theorem names_nodup (U : TagText) (notes : List IndexedNote) (topics : List Topic)
    {type : NodeType} (h : type ≠ .manualTopic) : (names U notes topics type).Nodup := by
  cases type with
  | root => exact nodup_singleton _
  | folder => exact sortedFolders_nodup notes
  | tag => exact keys_enter.imp ne_of_lt
  | manualTopic => exact absurd rfl h

/-- Only topics may share a key. -/
theorem build_keys_nodup_iff :
    ((buildKnowledgeMap U vault notes topics).nodes.map (·.stableKey)).Nodup ↔
      ((chains topics).map joined).Nodup := by
  have hinj : ∀ type, Function.Injective (stableKey type) := fun _ _ _ h => (stableKey_inj h).2
  have hapart : [NodeType.root, .folder, .tag, .manualTopic].Pairwise
      (Function.onFun List.Disjoint fun type => (names U notes topics type).map (stableKey type)) := by
    refine List.Nodup.pairwise_of_forall_ne (by decide) ?_
    intro k _ k' _ hne key hk hk'
    obtain ⟨a, -, rfl⟩ := mem_map.mp hk
    obtain ⟨b, -, heq⟩ := mem_map.mp hk'
    exact hne (stableKey_inj heq).1.symm
  rw [build_keys, nodup_flatMap, and_iff_left hapart]
  constructor
  · intro h
    exact (nodup_map_iff (hinj _)).mp (h .manualTopic (by decide))
  · intro h type _
    rw [nodup_map_iff (hinj type)]
    by_cases htype : type = .manualTopic
    · rw [htype]
      exact h
    · exact names_nodup U notes topics htype

theorem named_ids (h : ∀ n ∈ nodes, Named vault n) :
    nodes.map (·.id) = (nodes.map (·.stableKey)).map (vault ++ ":index:".toList ++ ·) := by
  rw [map_map]
  exact map_congr_left fun n hn => h n hn

theorem named_ids_nodup (h : ∀ n ∈ nodes, Named vault n) :
    (nodes.map (·.id)).Nodup ↔ (nodes.map (·.stableKey)).Nodup := by
  rw [named_ids h, nodup_map_iff fun _ _ heq => append_cancel_left heq]

/-- The node of a name of the map. -/
theorem nodeId_mem (type : NodeType) {name : Text} (h : name ∈ names U notes topics type) :
    nodeId vault type name ∈ (buildKnowledgeMap U vault notes topics).nodes.map (·.id) := by
  rw [named_ids build_named, build_keys]
  refine mem_map.mpr ⟨stableKey type name, mem_flatMap.mpr ⟨type, ?_, ?_⟩, rfl⟩
  · cases type <;> decide
  · exact mem_map_of_mem h

end Nodes

/-! ## Memberships -/

section Memberships

variable {U : TagText} {vault : Text} {notes : List IndexedNote} {note : IndexedNote}
  {topics : List Topic}

/-- A note's memberships in folder and tags. -/
theorem noteMemberships_eq (hnote : note ∈ notes) : noteMemberships U vault notes note =
    ((parentFolder note.path).map fun q =>
      (⟨nodeId vault .folder q.text, note.fileId, 1, .folder⟩ : IndexMembership)).toList ++
    (noteTags U note).map fun t =>
      (⟨nodeId vault .tag t.normalizedTag, note.fileId, 1, .tag⟩ : IndexMembership) := by
  rw [noteMemberships]
  congr 1
  · rw [folderMembership]
    cases hq : parentFolder note.path with
    | none => rfl
    | some q =>
      have hfolder : q ∈ sortedFolders notes :=
        mem_sortedFolders.mpr ⟨note, hnote, parentFolder_mem hq⟩
      show (((folderIds vault (sortedFolders notes)).lookup q.text).bind _).toList = _
      rw [lookup_folderIds hfolder]
      rfl
  · rw [filterMap_eq_map_iff_forall_eq_some]
    intro t ht
    have hdisplay : t.normalizedTag ∈ (tagDisplay U notes).map (·.1) :=
      mem_keys_enter.mpr
        (mem_map_of_mem (mem_flatMap.mpr ⟨note, hnote, ht⟩))
    have hids : tagIds U vault notes =
        ((tagDisplay U notes).map (·.1)).map fun t => (t, nodeId vault .tag t) := by
      rw [map_map]
      rfl
    rw [tagMembership, hids, lookup_self hdisplay]
    rfl

/-- Memberships name nodes, and none is there twice. -/
structure Coherent (map : KnowledgeMap) : Prop where
  node : ∀ m ∈ map.memberships, m.nodeId ∈ map.nodes.map (·.id)
  nodup : (map.nodes.map (·.id)).Nodup → (map.memberships.map IndexMembership.key).Nodup

theorem Coherent.append {a b : KnowledgeMap} (ha : Coherent a) (hb : Coherent b) :
    Coherent (a ++ b) where
  node := by
    intro m hm
    rw [append_memberships, mem_append] at hm
    rw [append_nodes, map_append, mem_append]
    exact hm.imp (ha.node m) (hb.node m)
  nodup := by
    intro h
    rw [append_nodes, map_append, nodup_append'] at h
    rw [append_memberships, map_append, nodup_append']
    refine ⟨ha.nodup h.1, hb.nodup h.2.1, ?_⟩
    intro key hka hkb
    obtain ⟨m, hm, rfl⟩ := mem_map.mp hka
    obtain ⟨m', hm', heq⟩ := mem_map.mp hkb
    -- the key has the node, and the nodes of the two maps differ
    have hnode : m'.nodeId = m.nodeId := congrArg Prod.fst heq
    exact h.2.2 (ha.node m hm) (hnode ▸ hb.node m' hm')

variable {m : IndexMembership}

theorem topicMembership_eq {topic : Topic} {qualified : Text}
    (h : topicMembership vault topic qualified note = some m) :
    m.key = (nodeId vault .manualTopic qualified, note.fileId, .taxonomy) := by
  rw [topicMembership] at h
  split_ifs at h <;> (cases h; rfl)

/-- The notes of one topic. -/
theorem coherent_topic (hfiles : (notes.map (·.fileId)).Nodup) (topic : Topic)
    (parentId qualified : Text) : Coherent
      ⟨[topicNode vault topic parentId qualified],
        notes.filterMap (topicMembership vault topic qualified)⟩ where
  node := by
    intro m hm
    obtain ⟨note, -, h⟩ := mem_filterMap.mp hm
    exact mem_singleton.mpr (congrArg Prod.fst (topicMembership_eq h))
  nodup := by
    intro _
    show ((notes.filterMap (topicMembership vault topic qualified)).map IndexMembership.key).Nodup
    refine pairwise_map.mpr ((pairwise_map.mp hfiles).filterMap _ ?_)
    intro note note' hne m hm m' hm' heq
    rw [topicMembership_eq hm, topicMembership_eq hm'] at heq
    exact hne (congrArg (·.2.1) heq)

theorem coherent_addTaxonomyTopics (hfiles : (notes.map (·.fileId)).Nodup) (topics : List Topic)
    (parentId : Text) (parentKey : Option Text) :
    Coherent (addTaxonomyTopics vault notes topics parentId parentKey) := by
  induction topics using forest_induction generalizing parentId parentKey with
  | nil => exact ⟨nofun, fun _ => nodup_nil⟩
  | cons _ _ _ _ _ _ _ _ _ hchildren hrest =>
    exact ((coherent_topic hfiles _ _ _).append (hchildren _ _)).append (hrest _ _)

theorem mem_noteMemberships (hnote : note ∈ notes) : m ∈ noteMemberships U vault notes note ↔
      (∃ q, parentFolder note.path = some q ∧
        m = ⟨nodeId vault .folder q.text, note.fileId, 1, .folder⟩) ∨
      ∃ t ∈ noteTags U note, m = ⟨nodeId vault .tag t.normalizedTag, note.fileId, 1, .tag⟩ := by
  rw [noteMemberships_eq hnote, mem_append, Option.mem_toList, Option.map_eq_some_iff, mem_map]
  simp only [eq_comm]

theorem noteMemberships_file (hnote : note ∈ notes)
    (hm : m ∈ noteMemberships U vault notes note) : m.fileId = note.fileId := by
  rcases (mem_noteMemberships hnote).mp hm with ⟨q, -, rfl⟩ | ⟨t, -, rfl⟩
  · rfl
  · rfl

/-- Each once, if no tag is from both sources. -/
theorem noteMemberships_nodup_iff (hnote : note ∈ notes) :
    ((noteMemberships U vault notes note).map IndexMembership.key).Nodup ↔
      ∀ n ∈ normalizedTags U note .frontmatter, n ∉ normalizedTags U note .inline := by
  have hfolder : ∀ o : Option IndexMembership, (o.toList.map IndexMembership.key).Nodup := by
    intro o
    cases o <;> simp
  have htags : ((noteTags U note).map fun t =>
      (⟨nodeId vault .tag t.normalizedTag, note.fileId, 1, .tag⟩ : IndexMembership)).map
        IndexMembership.key = ((noteTags U note).map (·.normalizedTag)).map
          fun n => (nodeId vault .tag n, note.fileId, MembershipSource.tag) := by
    rw [map_map, map_map]
    rfl
  have hinj : Function.Injective fun n => (nodeId vault .tag n, note.fileId, MembershipSource.tag) :=
    fun a b h => (stableKey_inj (append_cancel_left (congrArg Prod.fst h))).2
  rw [noteMemberships_eq hnote, map_append, nodup_append', htags,
    nodup_map_iff hinj, noteTags_nodup_iff, and_iff_right (hfolder _), and_iff_left]
  intro key hka hkb
  obtain ⟨m, hm, rfl⟩ := mem_map.mp hka
  obtain ⟨n, -, heq⟩ := mem_map.mp hkb
  obtain ⟨q, -, rfl⟩ := Option.map_eq_some_iff.mp (Option.mem_toList.mp hm)
  cases congrArg (·.2.2) heq

theorem build_memberships : (buildKnowledgeMap U vault notes topics).memberships =
    notes.flatMap (noteMemberships U vault notes) ++
      (addTaxonomyTopics vault notes topics (rootId vault) none).memberships := rfl

section

variable (hfiles : (notes.map (·.fileId)).Nodup) (htags : ∀ note ∈ notes,
  ∀ n ∈ normalizedTags U note .frontmatter, n ∉ normalizedTags U note .inline)

include hfiles htags

/-- Folders and tags, with their memberships. -/
theorem coherent_notes :
    Coherent ⟨(buildKnowledgeMap U vault notes []).nodes,
      notes.flatMap (noteMemberships U vault notes)⟩ where
  node := by
    intro m hm
    obtain ⟨note, hnote, hm⟩ := mem_flatMap.mp hm
    rcases (mem_noteMemberships hnote).mp hm with ⟨q, hq, rfl⟩ | ⟨t, ht, rfl⟩
    · exact nodeId_mem .folder
        (mem_map_of_mem (mem_sortedFolders.mpr ⟨note, hnote, parentFolder_mem hq⟩))
    · exact nodeId_mem .tag (mem_keys_enter.mpr
        (mem_map_of_mem (mem_flatMap.mpr ⟨note, hnote, ht⟩)))
  nodup := by
    intro _
    show ((notes.flatMap (noteMemberships U vault notes)).map IndexMembership.key).Nodup
    rw [map_flatMap, nodup_flatMap]
    refine ⟨fun note hnote => (noteMemberships_nodup_iff hnote).mpr (htags note hnote), ?_⟩
    refine (pairwise_map.mp hfiles).imp_of_mem ?_
    intro note note' hnote hnote' hne key hk hk'
    obtain ⟨m, hm, rfl⟩ := mem_map.mp hk
    obtain ⟨m', hm', heq⟩ := mem_map.mp hk'
    have hfile : m'.fileId = m.fileId := congrArg (·.2.1) heq
    rw [noteMemberships_file hnote hm, noteMemberships_file hnote' hm'] at hfile
    exact hne hfile.symm

theorem build_coherent : Coherent (buildKnowledgeMap U vault notes topics) := by
  have hsplit : buildKnowledgeMap U vault notes topics =
      ⟨(buildKnowledgeMap U vault notes []).nodes, notes.flatMap (noteMemberships U vault notes)⟩ ++
        addTaxonomyTopics vault notes topics (rootId vault) none := by
    rw [buildKnowledgeMap, buildKnowledgeMap, addTaxonomyTopics, append_nodes, append_nil]
  rw [hsplit]
  exact (coherent_notes hfiles htags).append (coherent_addTaxonomyTopics hfiles _ _ _)

end

end Memberships

end KnowledgeIndex
