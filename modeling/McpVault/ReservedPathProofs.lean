import McpVault.PathProofs

/-! # The reserved namespace

Whether a path is reserved is decided on its comparison key, by equality or by a prefix that a
slash follows.  As lowercase mapping neither makes nor loses a slash, this is a test for a prefix
of folded segments. -/

namespace ReservedPath

open LogicalPath PlainText List
open Fallible (of_check)
open String (ofList)

/-- `char::to_lowercase`, as far as needed. -/
structure CaseFolding where
  toLowercase : Char → Text
  nonempty : ∀ c, toLowercase c ≠ []
  slash : toLowercase '/' = ['/']
  slashless : ∀ c, c ≠ '/' → '/' ∉ toLowercase c

inductive PathCaseSensitivity where
  | sensitive
  | insensitive
  deriving DecidableEq

def foldText (F : CaseFolding) : PathCaseSensitivity → Text → Text
  | .sensitive, t => t
  | .insensitive, t => t.flatMap F.toLowercase

def comparisonKey (F : CaseFolding) (sensitivity : PathCaseSensitivity) (p : VaultPath) : Text :=
  foldText F sensitivity p.text

/-- The policy as its constructor admits it. -/
structure VaultPathPolicy (N : Normalizer) where
  reservedRoot : VaultPath
  caseSensitivity : PathCaseSensitivity
  valid : parse N reservedRoot.text = .ok reservedRoot
  nonRoot : reservedRoot.isRoot = false

inductive PolicyError where
  | reservedPath (path : VaultPath)
  | pathNotManaged
  deriving DecidableEq

section Policy

variable {N : Normalizer} (F : CaseFolding) (policy : VaultPathPolicy N)

def VaultPathPolicy.isReserved (p : VaultPath) : Bool :=
  beneath (comparisonKey F policy.caseSensitivity p)
    (comparisonKey F policy.caseSensitivity policy.reservedRoot)

def VaultPathPolicy.validateUserPath (p : VaultPath) : Except PolicyError Unit :=
  if policy.isReserved F p then .error (.reservedPath p) else .ok ()

def VaultPathPolicy.validateManagedPath (p : VaultPath) : Except PolicyError Unit :=
  if policy.isReserved F p then .ok () else .error .pathNotManaged

/-- The segments of a path, as the policy compares them. -/
def VaultPathPolicy.folded (p : VaultPath) : List Text :=
  p.segments.map (foldText F policy.caseSensitivity)

end Policy

/-! ## Folding keeps the segments apart -/

section Folding

variable {F : CaseFolding} {sensitivity : PathCaseSensitivity} {s t : Text} {segs : List Text}

@[simp] theorem foldText_nil : foldText F sensitivity [] = [] := by
  cases sensitivity <;> rfl

@[simp] theorem foldText_append :
    foldText F sensitivity (s ++ t) = foldText F sensitivity s ++ foldText F sensitivity t := by
  cases sensitivity with
  | sensitive => rfl
  | insensitive => exact flatMap_append

@[simp] theorem foldText_slash : foldText F sensitivity ('/' :: t) = '/' :: foldText F sensitivity t := by
  cases sensitivity with
  | sensitive => rfl
  | insensitive => simp [foldText, F.slash]

theorem foldText_slashless (h : '/' ∉ s) : '/' ∉ foldText F sensitivity s := by
  cases sensitivity with
  | sensitive => exact h
  | insensitive =>
    intro hslash
    obtain ⟨c, hc, hmem⟩ := mem_flatMap.mp hslash
    exact F.slashless c (fun hcs => h (hcs ▸ hc)) hmem

theorem foldText_ne_nil (h : s ≠ []) : foldText F sensitivity s ≠ [] := by
  cases sensitivity with
  | sensitive => exact h
  | insensitive =>
    obtain ⟨c, s, rfl⟩ := exists_cons_of_ne_nil h
    exact append_ne_nil_of_left_ne_nil (F.nonempty c) _

theorem foldText_joined :
    foldText F sensitivity (joined segs) = joined (segs.map (foldText F sensitivity)) := by
  induction segs with
  | nil => simp
  | cons s segs ih =>
    by_cases hsegs : segs = []
    · subst hsegs
      simp
    · have hmap : segs.map (foldText F sensitivity) ≠ [] := by simpa using hsegs
      rw [joined_cons hsegs, map_cons, joined_cons hmap, foldText_append, foldText_slash, ih]

end Folding

/-! ## The namespace -/

section Namespace

variable {N : Normalizer} {F : CaseFolding} {policy : VaultPathPolicy N} {p q r : VaultPath}

theorem VaultPathPolicy.folded_slashless (hp : parse N p.text = .ok p) :
    ∀ s ∈ policy.folded F p, '/' ∉ s := by
  obtain ⟨segs, hroute, rfl⟩ := route_of_parse hp
  intro s hs
  rw [VaultPathPolicy.folded, hroute.segments_eq] at hs
  obtain ⟨u, hu, rfl⟩ := mem_map.mp hs
  exact foldText_slashless (hroute.slashless u hu)

theorem VaultPathPolicy.folded_nonempty : ∀ s ∈ policy.folded F p, s ≠ [] := by
  intro s hs
  obtain ⟨u, hu, rfl⟩ := mem_map.mp hs
  exact foldText_ne_nil (by simpa using (mem_filter.mp hu).2)

theorem VaultPathPolicy.comparisonKey_eq (hp : parse N p.text = .ok p) :
    comparisonKey F policy.caseSensitivity p = joined (policy.folded F p) := by
  obtain ⟨segs, hroute, rfl⟩ := route_of_parse hp
  rw [comparisonKey, foldText_joined, VaultPathPolicy.folded, hroute.segments_eq]

theorem VaultPathPolicy.folded_root_ne_nil : policy.folded F policy.reservedRoot ≠ [] := by
  obtain ⟨segs, hroute, heq⟩ := route_of_parse policy.valid
  have hnonRoot := policy.nonRoot
  rw [heq] at hnonRoot
  rw [VaultPathPolicy.folded, heq, hroute.segments_eq]
  intro hnil
  rw [hroute.isRoot_iff.mpr (map_eq_nil_iff.mp hnil)] at hnonRoot
  exact Bool.noConfusion hnonRoot

/-- The string test is a test on folded segments. -/
theorem VaultPathPolicy.isReserved_iff (hp : parse N p.text = .ok p) :
    policy.isReserved F p ↔ policy.folded F policy.reservedRoot <+: policy.folded F p := by
  rw [VaultPathPolicy.isReserved, policy.comparisonKey_eq hp, policy.comparisonKey_eq policy.valid]
  have hroot := policy.folded_root_ne_nil (F := F)
  by_cases hnil : policy.folded F p = []
  · -- The Vault root is beneath nothing else, as no folded segment is empty.
    obtain ⟨c, rest, hcons, -⟩ := joined_head hroot policy.folded_nonempty
      (policy.folded_slashless policy.valid)
    rw [hnil, beneath_iff, hcons, joined_nil, prefix_nil]
    simp [hroot]
  · exact beneath_joined hnil hroot (policy.folded_slashless hp)
      (policy.folded_slashless policy.valid)

/-- The reserved root is above it, up to case. -/
theorem VaultPathPolicy.isReserved_iff_ancestor (hp : parse N p.text = .ok p) :
    policy.isReserved F p ↔ ∃ a, parse N a.text = .ok a ∧ p.startsWith a ∧
      policy.folded F a = policy.folded F policy.reservedRoot := by
  rw [policy.isReserved_iff hp]
  obtain ⟨segs, hroute, rfl⟩ := route_of_parse hp
  have hfolded : policy.folded F ⟨joined segs⟩ =
      segs.map (foldText F policy.caseSensitivity) := by
    rw [VaultPathPolicy.folded, hroute.segments_eq]
  rw [hfolded]
  constructor
  · intro hstart
    rw [prefix_iff_eq_take, ← map_take] at hstart
    have htake := take_append_drop (policy.folded F policy.reservedRoot).length segs
    have hancestor := (htake ▸ hroute).of_append
    refine ⟨⟨joined _⟩, hancestor.parse_eq, ?_, ?_⟩
    · exact (hroute.startsWith_iff hancestor).mpr ( take_prefix _ segs)
    · rw [VaultPathPolicy.folded, hancestor.segments_eq, ← hstart]
  · rintro ⟨a, ha, hstart, hsame⟩
    obtain ⟨above, habove, rfl⟩ := route_of_parse ha
    rw [← hsame, VaultPathPolicy.folded, habove.segments_eq]
    exact ((hroute.startsWith_iff habove).mp hstart).map _

section

variable (hp : parse N p.text = .ok p) (hq : parse N q.text = .ok q)

include hp hq

theorem VaultPathPolicy.folded_prefix (h : q.startsWith p) : policy.folded F p <+: policy.folded F q := by
  obtain ⟨segs, hroute, rfl⟩ := route_of_parse hp
  obtain ⟨more, hmore, rfl⟩ := route_of_parse hq
  rw [VaultPathPolicy.folded, VaultPathPolicy.folded, hroute.segments_eq, hmore.segments_eq]
  exact ((hmore.startsWith_iff hroute).mp h).map _

/-- The namespace is closed below. -/
theorem VaultPathPolicy.isReserved_below (h : q.startsWith p)
    (hreserved : policy.isReserved F p) : policy.isReserved F q :=
  (policy.isReserved_iff hq).mpr
    (((policy.isReserved_iff hp).mp hreserved).trans (policy.folded_prefix hp hq h))

theorem join_startsWith (h : p.join N q = .ok r) : parse N r.text = .ok r ∧ r.startsWith p := by
  obtain ⟨segs, hroute, rfl⟩ := route_of_parse hp
  obtain ⟨more, hmore, rfl⟩ := route_of_parse hq
  have houtcome := hroute.joinOutcome hmore
  rw [h] at houtcome
  cases houtcome with
  | joined valid _ beneath _ => exact ⟨valid, beneath⟩

/-- What stands above a reserved path is above the root. -/
theorem VaultPathPolicy.above_root (h : q.startsWith p)
    (hout : policy.isReserved F p = false) (hreserved : policy.isReserved F q) :
    policy.folded F p <+: policy.folded F policy.reservedRoot ∧
      policy.folded F p ≠ policy.folded F policy.reservedRoot := by
  have hroot := (policy.isReserved_iff hq).mp hreserved
  have hnot : ¬ policy.folded F policy.reservedRoot <+: policy.folded F p := by
    rw [← policy.isReserved_iff hp, hout]
    exact Bool.false_ne_true
  refine ⟨?_, fun hsame => hnot (hsame ▸ prefix_rfl)⟩
  exact ( prefix_or_prefix_of_prefix (policy.folded_prefix hp hq h) hroot).resolve_right hnot

end

theorem VaultPathPolicy.isReserved_of_key
    (h : comparisonKey F policy.caseSensitivity p = comparisonKey F policy.caseSensitivity q) :
    policy.isReserved F p = policy.isReserved F q := by
  rw [VaultPathPolicy.isReserved, VaultPathPolicy.isReserved, h]

theorem VaultPathPolicy.validateUserPath_ok :
    policy.validateUserPath F p = .ok () ↔ policy.isReserved F p = false := by
  unfold VaultPathPolicy.validateUserPath
  cases policy.isReserved F p <;> simp

theorem VaultPathPolicy.validateManagedPath_ok :
    policy.validateManagedPath F p = .ok () ↔ policy.isReserved F p := by
  unfold VaultPathPolicy.validateManagedPath
  cases policy.isReserved F p <;> simp

/-- Two spellings of one normalized text. -/
def NfcVariant (N : Normalizer) (t u : Text) : Prop := N.nfc t = N.nfc u ∧ (t = [] ↔ u = [])

/-- An accepted text is the path, up to its normal form. -/
theorem path_of_parse {t : Text} (ht : t ≠ []) (hp : parse N t = .ok p) : p = ⟨N.nfc t⟩ := by
  rw [parse, if_neg ht] at hp
  iterate 8 replace hp := (of_check hp).2
  cases hvalid : ((N.nfc t).splitOn '/').forM validateSegment with
  | error e => simp [hvalid, bind, Except.bind] at hp
  | ok _ =>
    simp only [hvalid, bind, Except.bind] at hp
    exact (Except.ok.inj hp).symm

theorem NfcVariant.same_path {t u : Text} (h : NfcVariant N t u) (hp : parse N t = .ok p)
    (hq : parse N u = .ok q) : p = q := by
  by_cases ht : t = []
  · have hu := h.2.mp ht
    rw [ht] at hp
    rw [hu] at hq
    exact Except.ok.inj (hp.symm.trans hq)
  · rw [path_of_parse ht hp, path_of_parse (mt h.2.mpr ht) hq, h.1]

/-- **THE RESERVED NAMESPACE** is all below the root up to case, whatever the normal form, and
    each path is on one side. -/
theorem reserved_namespace_closed (N : Normalizer) (F : CaseFolding) (policy : VaultPathPolicy N) :
    (∀ p, parse N p.text = .ok p → (policy.isReserved F p ↔
      ∃ a, parse N a.text = .ok a ∧ p.startsWith a ∧
        policy.folded F a = policy.folded F policy.reservedRoot)) ∧
    (∀ p q r, parse N p.text = .ok p → parse N q.text = .ok q → p.join N q = .ok r →
      policy.isReserved F p → policy.isReserved F r) ∧
    (∀ p q, comparisonKey F policy.caseSensitivity p = comparisonKey F policy.caseSensitivity q →
      policy.isReserved F p = policy.isReserved F q) ∧
    (∀ p d, parse N p.text = .ok p → parse N d.text = .ok d →
      policy.validateUserPath F p = .ok () → d.startsWith p →
      policy.isReserved F d →
      policy.folded F p <+: policy.folded F policy.reservedRoot ∧
        policy.folded F p ≠ policy.folded F policy.reservedRoot) ∧
    (∀ p q, policy.validateUserPath F p = .ok () →
      comparisonKey F policy.caseSensitivity p = comparisonKey F policy.caseSensitivity q →
      policy.validateUserPath F q = .ok ()) ∧
    (∀ t u p q, NfcVariant N t u → parse N t = .ok p → parse N u = .ok q →
      policy.validateUserPath F p = .ok () → policy.validateUserPath F q = .ok ()) ∧
    (∀ p, policy.validateUserPath F p = .ok () ↔ policy.validateManagedPath F p ≠ .ok ()) := by
  refine ⟨fun p hp => policy.isReserved_iff_ancestor hp, ?_, fun p q => policy.isReserved_of_key,
    ?_, ?_, ?_, ?_⟩
  · intro p q r hp hq hjoin hreserved
    obtain ⟨hr, hbelow⟩ := join_startsWith hp hq hjoin
    exact policy.isReserved_below hp hr hbelow hreserved
  · intro p d hp hd huser hbelow hreserved
    exact policy.above_root hp hd hbelow (policy.validateUserPath_ok.mp huser) hreserved
  · intro p q huser hkey
    rw [policy.validateUserPath_ok] at huser ⊢
    rw [← policy.isReserved_of_key hkey, huser]
  · intro t u p q hvariant hp hq huser
    rwa [← hvariant.same_path hp hq]
  · intro p
    rw [policy.validateUserPath_ok, Ne, policy.validateManagedPath_ok, Bool.not_eq_true]

/-- Lowercase mapping of ASCII letters. -/
def asciiFolding : CaseFolding where
  toLowercase := fun c => [c.toLower]
  nonempty := fun _ => cons_ne_nil _ _
  slash := rfl
  slashless := by
    intro c hc hmem
    have hlower : '/' = c.toLower := mem_singleton.mp hmem
    unfold Char.toLower at hlower
    split at hlower
    next hupper =>
      have hval := congrArg (fun x : Char => x.val.toNat) hlower
      have hge : 65 ≤ c.toNat := hupper.1
      have hle : c.toNat ≤ 90 := hupper.2
      simp at hval
      omega
    next => exact hc hlower.symm

/-- `VaultPathPolicy::default`, ignoring case. -/
def managedPolicy : VaultPathPolicy plain where
  reservedRoot := ⟨"_mcp-vault".toList⟩
  caseSensitivity := .insensitive
  valid := by decide
  nonRoot := rfl

theorem reserved_namespace_closed_child :
    parse plain "_MCP-Vault/memory".toList = .ok ⟨"_MCP-Vault/memory".toList⟩ ∧
      managedPolicy.validateUserPath asciiFolding ⟨"_MCP-Vault/memory".toList⟩ ≠ .ok () := by
  have hparent : parse plain "_MCP-Vault".toList = .ok ⟨"_MCP-Vault".toList⟩ := by decide
  have hchild : parse plain "memory".toList = .ok ⟨"memory".toList⟩ := by decide
  obtain ⟨hiff, hjoin, hkey, -⟩ := reserved_namespace_closed plain asciiFolding managedPolicy
  refine ⟨by decide, ?_⟩
  have hroot : managedPolicy.isReserved asciiFolding ⟨"_MCP-Vault".toList⟩ :=
    (hkey _ _ (by decide)).trans ((hiff _ managedPolicy.valid).mpr
      ⟨_, managedPolicy.valid, by decide, rfl⟩)
  have hreserved := hjoin _ _ ⟨"_MCP-Vault/memory".toList⟩ hparent hchild (by decide) hroot
  rw [Ne, VaultPathPolicy.validateUserPath_ok, hreserved]
  exact fun h => Bool.noConfusion h

/-- Users have the root; the reserved one is below. -/
theorem user_path_above_reserved : ∃ p d, parse plain p.text = .ok p ∧ parse plain d.text = .ok d ∧
    managedPolicy.validateUserPath asciiFolding p = .ok () ∧ d.startsWith p ∧
    managedPolicy.isReserved asciiFolding d :=
  ⟨root, ⟨"_mcp-vault".toList⟩, by decide, by decide, by decide, by decide, by decide⟩

end Namespace

end ReservedPath
