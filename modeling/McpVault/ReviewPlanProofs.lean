import McpVault.ReviewProofs

/-! # The plan of a review

Every minimal unit is in one group (`reviewGroups_grouped`), a scope with a parent has its whole
group and the group has everything inside the parent (`WholeScope`), and the plan omits the units
that fit no review input of their own (`omittedSelected_nil_iff`). -/

namespace MemoryReview

open List
open LogicalPath (byteLen)
open PlainText (Text startsWith)
open MemoryUnits SortedMap
open Outline (Span)

/-! ## What the reviews use of the candidates -/

/-- Minimal units are disjoint; full ones nest or not. -/
structure Candidates (full minimal : List SourceUnit) : Prop where
  named : ∀ u ∈ full ++ minimal, u.Named
  ids : (minimal.map (·.id)).Nodup
  nonempty : ∀ u ∈ minimal, u.span.start < u.span.stop
  apart : ∀ u ∈ minimal, ∀ v ∈ minimal, u.id ≠ v.id → u.span.Apart v.span
  around : ∀ u ∈ minimal, ∀ p ∈ full, u.span.Within p.span ∨ u.span.Apart p.span
  nested : ∀ p ∈ full, ∀ q ∈ full, p.span.Within q.span ∨ q.span.Within p.span ∨ p.span.Apart q.span

theorem candidates_of_source (md : Markdown) (source : Text) :
    Candidates (sourceUnits md source) (minimalSelectionUnits md source) where
  named := by
    intro u hu
    rcases mem_append.mp hu with hu | hu
    · exact sourceUnits_named hu
    · exact minimal_named hu
  ids := minimal_ids_nodup md source
  nonempty := fun _ hu => minimal_nonempty hu
  apart := fun _ hu _ hv hne => minimal_apart hu hv hne
  around := fun _ hu _ hp => minimal_full hu hp
  nested := fun _ hp _ hq => full_nested hp hq

theorem contains_iff {p u : SourceUnit} : contains p u ↔ u.span.Within p.span :=
  decide_eq_true_iff

section Facts

variable {full minimal : List SourceUnit} {u v p : SourceUnit}

theorem Candidates.eq_of_id (h : Candidates full minimal) (hu : u ∈ minimal) (hv : v ∈ minimal)
    (hid : u.id = v.id) : u = v :=
  inj_on_of_nodup_map h.ids hu hv hid

theorem Candidates.span_of_id (h : Candidates full minimal) (hu : u ∈ full ++ minimal)
    (hv : v ∈ full ++ minimal) (hid : u.id = v.id) : u.span = v.span :=
  ((h.named u hu).id_eq_iff (h.named v hv)).mp hid

/-- Around another minimal unit it is not minimal. -/
theorem Candidates.parent_not_minimal (h : Candidates full minimal) (hp : p ∈ full)
    (hu : u ∈ minimal) (hin : u.span.Within p.span) (hne : u.id ≠ p.id) (hv : v ∈ minimal) :
    v.id ≠ p.id := by
  intro hid
  have hspan := h.span_of_id (mem_append_right _ hv) (mem_append_left _ hp) hid
  have hapart := h.apart u hu v hv (hid ▸ hne)
  have hlt := h.nonempty u hu
  rw [hspan] at hapart
  rcases hapart with hle | hle
  · exact absurd hlt (Nat.not_lt_of_le (hle.trans hin.1))
  · exact absurd hlt (Nat.not_lt_of_le (hin.2.trans hle))

theorem Candidates.not_root (h : Candidates full minimal) (hp : p ∈ full) :
    p.id ≠ "virtual-root".toList := by
  rw [h.named p (mem_append_left _ hp)]
  intro heq
  exact absurd (List.cons.inj heq).1 (by decide)

end Facts

/-! ## The first selection is offered -/

section Offered

variable {redact : Text → Text} {path : Text} {u : SourceUnit}

theorem skipReason_none_iff : skipReason redact path u = none ↔
    redact u.completeText = u.completeText ∧ byteLen u.completeText ≤ 64 * 1024 ∧
      byteLen (selectionInput [u] path) ≤ 60 * 1024 := by
  unfold skipReason safe
  split_ifs with hsafe hlarge
  · simp_all
  · simp_all
    omega
  · simp_all

-- the induction is on the candidates that are left, over any open batch
theorem batchLoop_splits (current candidates : List SourceUnit) :
    (batchLoop redact path current candidates).1.flatMap (·.units) =
        current ++ candidates.filter (skipReason redact path · = none) ∧
      (batchLoop redact path current candidates).2 = candidates.filterMap fun u =>
        (skipReason redact path u).map fun reason => ⟨u.id, u.headings, reason⟩ := by
  induction candidates generalizing current with
  | nil =>
    rw [batchLoop]
    split_ifs with hnil
    · simp [hnil]
    · simp
  | cons u rest ih =>
    rw [batchLoop]
    cases hskip : skipReason redact path u with
    | some reason => simp [ih, hskip]
    | none =>
      simp only
      split_ifs
      · simp [ih, hskip]
      · simp [ih, hskip]

/-- One request: few enough and small enough units. -/
structure Batch.Bounded (path : Text) (b : Batch) : Prop where
  nonempty : b.units ≠ []
  count : b.units.length ≤ 32
  user : b.user = selectionInput b.units path
  size : byteLen b.user ≤ 60 * 1024

/-- Batches are within limits; each start fits. -/
theorem batchLoop_bounded {current : List SourceUnit} (candidates : List SourceUnit)
    (h : current ≠ [] → Batch.Bounded path ⟨selectionInput current path, current⟩) :
    ∀ b ∈ (batchLoop redact path current candidates).1, b.Bounded path := by
  induction candidates generalizing current with
  | nil =>
    intro b hb
    rw [batchLoop] at hb
    split_ifs at hb with hnil
    · cases hb
    · rw [mem_singleton.mp hb]
      exact h hnil
  | cons u rest ih =>
    rw [batchLoop]
    cases hskip : skipReason redact path u with
    | some reason => exact ih h
    | none =>
      have hone : Batch.Bounded path ⟨selectionInput [u] path, [u]⟩ :=
        ⟨cons_ne_nil u [], by simp, rfl, (skipReason_none_iff.mp hskip).2.2⟩
      simp only
      split_ifs with hfull
      · intro b hb
        rcases mem_cons.mp hb with rfl | hb
        · exact h hfull.1
        · exact ih (fun _ => hone) b hb
      · refine ih fun _ => ?_
        rcases eq_or_ne current [] with rfl | hne
        · exact hone
        · have hfits := not_or.mp (not_and.mp hfull hne)
          exact ⟨by simp, Nat.le_of_not_lt hfits.1, rfl, Nat.le_of_not_lt hfits.2⟩

/-- Every candidate is in one batch, or skipped. -/
theorem batches_partition (redact : Text → Text) (path : Text) (candidates : List SourceUnit) :
    (batches redact path candidates).1.flatMap (·.units) =
        candidates.filter (skipReason redact path · = none) ∧
      (batches redact path candidates).2 = candidates.filterMap (fun u =>
        (skipReason redact path u).map fun reason => ⟨u.id, u.headings, reason⟩) ∧
      (∀ b ∈ (batches redact path candidates).1, b.Bounded path ∧
        ∀ u ∈ b.units, redact u.completeText = u.completeText) ∧
      ∀ u ∈ candidates, skipReason redact path u ≠ none ↔
        redact u.completeText ≠ u.completeText ∨ 64 * 1024 < byteLen u.completeText ∨
          60 * 1024 < byteLen (selectionInput [u] path) := by
  obtain ⟨hunits, hskipped⟩ := @batchLoop_splits redact path [] candidates
  refine ⟨hunits, hskipped, fun b hb =>
    ⟨batchLoop_bounded candidates (absurd rfl) b hb, fun u hu => ?_⟩, fun u _ => ?_⟩
  · have hmem := mem_flatMap.mpr ⟨b, hb, hu⟩
    rw [batches, hunits] at hmem
    exact (skipReason_none_iff.mp (of_decide_eq_true (mem_filter.mp hmem).2)).1
  · rw [Ne, skipReason_none_iff, not_and_or, not_and_or, not_le, not_le]

/-- The ids come from units that the batches offer. -/
def Offered (redact : Text → Text) (path : Text) (minimal : List SourceUnit)
    (first : SelectionOutput) : Prop :=
  ∀ item ∈ first, ∃ batch ∈ (batches redact path minimal).1, ∃ u ∈ batch.units, u.id = item.unitId

/-- Ids of minimal units that stay unredacted. -/
def Picked (redact : Text → Text) (minimal : List SourceUnit) (selected : List Text) : Prop :=
  ∀ id ∈ selected, ∃ u ∈ minimal, u.id = id ∧ safe redact u

variable {minimal : List SourceUnit} {first : SelectionOutput}

theorem offered_of_skipReason
    (h : ∀ item ∈ first, ∃ u ∈ minimal, u.id = item.unitId ∧ skipReason redact path u = none) :
    Offered redact path minimal first := by
  intro item hitem
  obtain ⟨u, hu, hid, hnone⟩ := h item hitem
  have hmem : u ∈ (batches redact path minimal).1.flatMap (·.units) := by
    rw [batches, (batchLoop_splits _ _).1]
    simp [hu, hnone]
  obtain ⟨batch, hbatch, hmem⟩ := mem_flatMap.mp hmem
  exact ⟨batch, hbatch, u, hmem, hid⟩

theorem Offered.picked (h : Offered redact path minimal first) :
    Picked redact minimal (first.map (·.unitId)) := by
  intro id hid
  obtain ⟨item, hitem, rfl⟩ := mem_map.mp hid
  obtain ⟨batch, hbatch, u, hu, hid⟩ := h item hitem
  have hmem := mem_flatMap.mpr ⟨batch, hbatch, hu⟩
  rw [batches, (batchLoop_splits _ _).1] at hmem
  obtain ⟨hmem, hskip⟩ := mem_filter.mp hmem
  refine ⟨u, hmem, hid, ?_⟩
  exact decide_eq_true (skipReason_none_iff.mp (of_decide_eq_true hskip)).1

end Offered

/-! ## Every minimal unit is in one group -/

section Grouping

variable {redact : Text → Text} {path : Text} {full minimal : List SourceUnit}
variable {selected assigned : List Text} {groups : Groups} {k k' : Text} {u v : SourceUnit}

/-- The unit is in the group of this owner. -/
def InGroup (groups : Groups) (k : Text) (u : SourceUnit) : Prop :=
  ∃ us, (k, us) ∈ groups ∧ u ∈ us

variable {owner : Text}

theorem inGroup_push :
    InGroup (groups.push owner v) k u ↔ (k = owner ∧ u = v) ∨ InGroup groups k u := by
  unfold Groups.push
  induction groups with
  | nil => simp [upsert, InGroup]
  | cons g groups ih =>
    obtain ⟨k', us⟩ := g
    rw [upsert]
    split_ifs with hlt heq
    · simp only [InGroup, mem_cons, Prod.mk.injEq]
      constructor
      · rintro ⟨ws, ⟨rfl, rfl⟩ | hmem, hu⟩
        · exact .inl ⟨rfl, mem_singleton.mp hu⟩
        · exact .inr ⟨ws, hmem, hu⟩
      · rintro (⟨rfl, rfl⟩ | ⟨ws, hmem, hu⟩)
        · exact ⟨[u], .inl ⟨rfl, rfl⟩, mem_singleton.mpr rfl⟩
        · exact ⟨ws, .inr hmem, hu⟩
    · subst heq
      simp only [InGroup, mem_cons, Prod.mk.injEq]
      constructor
      · rintro ⟨ws, ⟨rfl, rfl⟩ | hmem, hu⟩
        · rcases mem_append.mp hu with hu | hu
          · exact .inr ⟨us, .inl ⟨rfl, rfl⟩, hu⟩
          · exact .inl ⟨rfl, mem_singleton.mp hu⟩
        · exact .inr ⟨ws, .inr hmem, hu⟩
      · rintro (⟨rfl, rfl⟩ | ⟨ws, ⟨rfl, rfl⟩ | hmem, hu⟩)
        · exact ⟨us ++ [u], .inl ⟨rfl, rfl⟩, mem_append_right _ (mem_singleton.mpr rfl)⟩
        · exact ⟨ws ++ [v], .inl ⟨rfl, rfl⟩, mem_append_left _ hu⟩
        · exact ⟨ws, .inr hmem, hu⟩
    · have hcons : ∀ gs : Groups, InGroup ((k', us) :: gs) k u ↔
          (k = k' ∧ u ∈ us) ∨ InGroup gs k u := by
        intro gs
        simp only [InGroup, mem_cons, Prod.mk.injEq]
        constructor
        · rintro ⟨ws, ⟨rfl, rfl⟩ | hmem, hu⟩
          · exact .inl ⟨rfl, hu⟩
          · exact .inr ⟨ws, hmem, hu⟩
        · rintro (⟨rfl, hu⟩ | ⟨ws, hmem, hu⟩)
          · exact ⟨us, .inl ⟨rfl, rfl⟩, hu⟩
          · exact ⟨ws, .inr hmem, hu⟩
      rw [hcons, hcons]
      tauto

theorem inGroup_pushAll (members : List SourceUnit) :
    InGroup (members.foldl (fun groups u => groups.push owner u) groups) k u ↔
      (k = owner ∧ u ∈ members) ∨ InGroup groups k u := by
  induction members generalizing groups with
  | nil => simp
  | cons m members ih =>
    rw [foldl_cons, ih, inGroup_push, mem_cons]
    tauto

/-- Each unit is in one group. -/
structure Grouped (full minimal : List SourceUnit) (groups : Groups) : Prop where
  sorted : (groups.map (·.1)).Pairwise (· < ·)
  minimal : ∀ {k u}, InGroup groups k u → u ∈ minimal
  unique : ∀ {k k' u}, InGroup groups k u → InGroup groups k' u → k = k'
  owner : ∀ {k u}, InGroup groups k u → k = "virtual-root".toList ∨
    ∃ p ∈ full, p.id = k ∧ contains p u ∧ p.id ≠ u.id

theorem Grouped.push (h : Grouped full minimal groups) (hu : u ∈ minimal)
    (hfresh : ∀ k, ¬ InGroup groups k u)
    (howner : owner = "virtual-root".toList ∨
      ∃ p ∈ full, p.id = owner ∧ contains p u ∧ p.id ≠ u.id) :
    Grouped full minimal (groups.push owner u) := by
  refine ⟨keys_upsert h.sorted, ?_, ?_, ?_⟩
  · intro k v hv
    rcases inGroup_push.mp hv with ⟨_, rfl⟩ | hv
    · exact hu
    · exact h.minimal hv
  · intro k k' v hv hv'
    rcases inGroup_push.mp hv with ⟨rfl, rfl⟩ | hold <;>
      rcases inGroup_push.mp hv' with ⟨rfl, hsame⟩ | hold'
    · rfl
    · exact absurd hold' (hfresh k')
    · exact absurd (hsame ▸ hold) (hfresh k)
    · exact h.unique hold hold'
  · intro k v hv
    rcases inGroup_push.mp hv with ⟨rfl, rfl⟩ | hv
    · exact howner
    · exact h.owner hv

/-- New, different units go in one by one. -/
theorem Grouped.pushAll {members : List SourceUnit} (h : Grouped full minimal groups)
    (hmembers : ∀ u ∈ members, u ∈ minimal) (hnodup : members.Nodup)
    (hfresh : ∀ u ∈ members, ∀ k, ¬ InGroup groups k u)
    (howner : ∀ u ∈ members, owner = "virtual-root".toList ∨
      ∃ p ∈ full, p.id = owner ∧ contains p u ∧ p.id ≠ u.id) :
    Grouped full minimal (members.foldl (fun groups u => groups.push owner u) groups) := by
  induction members generalizing groups with
  | nil => exact h
  | cons m members ih =>
    obtain ⟨hnot, hnodup⟩ := nodup_cons.mp hnodup
    refine ih (h.push (hmembers m mem_cons_self) (hfresh m mem_cons_self)
      (howner m mem_cons_self)) (fun u hu => hmembers u (mem_cons_of_mem m hu)) hnodup
      ?_ (fun u hu => howner u (mem_cons_of_mem m hu))
    intro u hu k hin
    rcases inGroup_push.mp hin with ⟨_, rfl⟩ | hin
    · exact hnot hu
    · exact hfresh u (mem_cons_of_mem m hu) k hin

/-- The groups have exactly the assigned units. -/
structure Assigned (full minimal : List SourceUnit) (a : Assignment) : Prop where
  grouped : Grouped full minimal a.groups
  exact_ : ∀ u ∈ minimal, u.id ∈ a.assigned ↔ ∃ k, InGroup a.groups k u

theorem assignParent_assigned (hc : Candidates full minimal) {a : Assignment} {parent : SourceUnit}
    (hparent : parent ∈ full) (h : Assigned full minimal a) :
    Assigned full minimal (assignParent redact path minimal selected a parent) := by
  unfold assignParent
  generalize hmembers : (minimal.filter fun u =>
    decide (u.id ∉ a.assigned) && decide (parent.id ≠ u.id) && contains parent u) = members
  have hmem : ∀ u, u ∈ members ↔
      u ∈ minimal ∧ u.id ∉ a.assigned ∧ parent.id ≠ u.id ∧ contains parent u := by
    intro u
    rw [← hmembers, mem_filter]
    simp only [Bool.and_eq_true, decide_eq_true_eq, and_assoc]
  have hnodup : members.Nodup := by
    rw [← hmembers]
    exact (List.Nodup.of_map _ hc.ids).filter _
  simp only
  split_ifs with hskip hfits
  · exact h
  · refine ⟨h.grouped.pushAll (fun u hu => ((hmem u).mp hu).1) hnodup ?_ ?_, ?_⟩
    · intro u hu k hin
      obtain ⟨hmin, hfree, _⟩ := (hmem u).mp hu
      exact hfree ((h.exact_ u hmin).mpr ⟨k, hin⟩)
    · intro u hu
      obtain ⟨_, _, hne, hcontains⟩ := (hmem u).mp hu
      exact .inr ⟨parent, hparent, rfl, hcontains, hne⟩
    · intro u hu
      rw [mem_append, h.exact_ u hu]
      simp only [inGroup_pushAll]
      constructor
      · rintro (⟨k, hin⟩ | hid)
        · exact ⟨k, .inr hin⟩
        · obtain ⟨m, hm, hmid⟩ := mem_map.mp hid
          have heq : m = u := hc.eq_of_id ((hmem m).mp hm).1 hu hmid
          exact ⟨parent.id, .inl ⟨rfl, heq ▸ hm⟩⟩
      · rintro ⟨k, ⟨_, hm⟩ | hin⟩
        · exact .inr (mem_map_of_mem hm)
        · exact .inl ⟨k, hin⟩
  · exact h

theorem parentAssignment_assigned (hc : Candidates full minimal) :
    Assigned full minimal (parentAssignment redact path full minimal selected) := by
  unfold parentAssignment
  have hparents : ∀ p ∈ full.insertionSort (fun a b => extent b ≤ extent a), p ∈ full :=
    fun _ hp => (perm_insertionSort _ _).mem_iff.mp hp
  have hempty : Assigned full minimal ⟨[], []⟩ := by
    refine ⟨⟨List.Pairwise.nil, ?_, ?_, ?_⟩, ?_⟩
    · rintro k u ⟨us, hmem, _⟩
      cases hmem
    · rintro k k' u ⟨us, hmem, _⟩
      cases hmem
    · rintro k u ⟨us, hmem, _⟩
      cases hmem
    · intro u _
      constructor
      · exact nofun
      · rintro ⟨k, us, hmem, _⟩
        cases hmem
  revert hparents hempty
  generalize (⟨[], []⟩ : Assignment) = a
  induction full.insertionSort (fun a b => extent b ≤ extent a) generalizing a with
  | nil => exact fun _ h => h
  | cons p ps ih =>
    intro hparents h
    exact ih _ (fun q hq => hparents q (mem_cons_of_mem p hq))
      (assignParent_assigned hc (hparents p mem_cons_self) h)

theorem ownerOf_owner (u : SourceUnit) : ownerOf full u = "virtual-root".toList ∨
    ∃ p ∈ full, p.id = ownerOf full u ∧ contains p u ∧ p.id ≠ u.id := by
  unfold ownerOf
  simp only
  split
  next p hhead =>
    have hmem := (perm_insertionSort _ _).mem_iff.mp (mem_of_head? hhead)
    obtain ⟨hfull, hcond⟩ := mem_filter.mp hmem
    simp only [Bool.and_eq_true, decide_eq_true_eq] at hcond
    exact .inr ⟨p, hfull, rfl, hcond.2, hcond.1⟩
  · exact .inl rfl

/-- The units that no parent has taken go in one by one. -/
theorem rest_grouped {rest : List SourceUnit}
    (h : Grouped full minimal groups) (hrest : ∀ u ∈ rest, u ∈ minimal) (hnodup : rest.Nodup)
    (hfresh : ∀ u ∈ rest, u.id ∉ assigned → ∀ k, ¬ InGroup groups k u) :
    Grouped full minimal (rest.foldl (fun groups u =>
        if u.id ∈ assigned then groups else groups.push (ownerOf full u) u) groups) ∧
      ∀ u, (u ∈ rest ∧ u.id ∉ assigned ∨ ∃ k, InGroup groups k u) → ∃ k, InGroup
        (rest.foldl (fun groups u =>
          if u.id ∈ assigned then groups else groups.push (ownerOf full u) u) groups) k u := by
  induction rest generalizing groups with
  | nil =>
    refine ⟨h, ?_⟩
    rintro u (⟨hu, _⟩ | hin)
    · cases hu
    · exact hin
  | cons v rest ih =>
    obtain ⟨hnot, hnodup⟩ := nodup_cons.mp hnodup
    rw [foldl_cons]
    have hmem : ∀ u ∈ rest, u ∈ minimal := fun u hu => hrest u (mem_cons_of_mem v hu)
    split_ifs with hv
    · obtain ⟨hgrouped, hall⟩ := ih h hmem hnodup
        (fun u hu => hfresh u (mem_cons_of_mem v hu))
      refine ⟨hgrouped, ?_⟩
      rintro u (⟨hu, hfree⟩ | hin)
      · rcases mem_cons.mp hu with rfl | hu
        · exact absurd hv hfree
        · exact hall u (.inl ⟨hu, hfree⟩)
      · exact hall u (.inr hin)
    · have hpush := h.push (hrest v mem_cons_self) (hfresh v mem_cons_self hv)
        (ownerOf_owner v)
      obtain ⟨hgrouped, hall⟩ := ih hpush hmem hnodup (by
        intro u hu hfree k hin
        rcases inGroup_push.mp hin with ⟨_, rfl⟩ | hin
        · exact hnot hu
        · exact hfresh u (mem_cons_of_mem v hu) hfree k hin)
      refine ⟨hgrouped, ?_⟩
      rintro u (⟨hu, hfree⟩ | ⟨k, hin⟩)
      · rcases mem_cons.mp hu with rfl | hu
        · exact hall u (.inr ⟨_, inGroup_push.mpr (.inl ⟨rfl, rfl⟩)⟩)
        · exact hall u (.inl ⟨hu, hfree⟩)
      · exact hall u (.inr ⟨k, inGroup_push.mpr (.inr hin)⟩)

variable (redact path selected) in
/-- **EVERY MINIMAL UNIT IS IN ONE GROUP**. -/
theorem reviewGroups_grouped (hc : Candidates full minimal) :
    Grouped full minimal (reviewGroups redact path full minimal selected) ∧
      ∀ u ∈ minimal, ∃ k, InGroup (reviewGroups redact path full minimal selected) k u := by
  have hassigned : Assigned full minimal (parentAssignment redact path full minimal selected) :=
    parentAssignment_assigned hc
  obtain ⟨hgrouped, hexact⟩ := hassigned
  obtain ⟨hall, hin⟩ := rest_grouped hgrouped (fun _ hu => hu) (List.Nodup.of_map _ hc.ids)
    (fun u hu hfree k hin => hfree ((hexact u hu).mpr ⟨k, hin⟩))
  refine ⟨hall, fun u hu => hin u ?_⟩
  by_cases hid : u.id ∈ (parentAssignment redact path full minimal selected).assigned
  · exact .inr ((hexact u hu).mp hid)
  · exact .inl ⟨hu, hid⟩

/-- A group is known by its owner. -/
theorem Grouped.group_unique {us us' : List SourceUnit} (h : Grouped full minimal groups)
    (hmem : (k, us) ∈ groups) (hmem' : (k, us') ∈ groups) : us = us' := by
  have hnodup : (groups.map (·.1)).Nodup := h.sorted.imp fun hlt => ne_of_lt hlt
  exact (Prod.mk.inj (inj_on_of_nodup_map hnodup hmem hmem' rfl)).2

end Grouping

/-! ## Scopes and chunks -/

section Scopes

variable {redact : Text → Text} {path : Text} {units : List SourceUnit}
variable {selected : List Text} {k id : Text} {scope : ReviewScope} {c : Chunking} {u : SourceUnit}

theorem mem_groupFirst : id ∈ groupFirst selected units ↔ id ∈ selected ∧ ∃ u ∈ units, u.id = id := by
  unfold groupFirst
  rw [mem_map]
  constructor
  · rintro ⟨u, hu, rfl⟩
    obtain ⟨hu, hsel⟩ := mem_filter.mp hu
    exact ⟨of_decide_eq_true hsel, u, hu, rfl⟩
  · rintro ⟨hsel, u, hu, rfl⟩
    exact ⟨u, mem_filter.mpr ⟨hu, decide_eq_true hsel⟩, rfl⟩

variable {unresolved : Bool} {i : Nat} {parent : Option SourceUnit}

theorem mem_firstSelected : id ∈ (makeScope k i units selected unresolved parent).firstSelected ↔
      id ∈ selected ∧ ∃ u ∈ units, u.id = id :=
  mem_groupFirst

theorem mem_addable (h : id ∈ (makeScope k i units selected unresolved parent).addable) :
    id ∉ selected ∧ parent.map (·.id) ≠ some id ∧ ∃ u ∈ units, u.id = id := by
  obtain ⟨u, hu, rfl⟩ := mem_map.mp h
  obtain ⟨hu, hcond⟩ := mem_filter.mp hu
  obtain ⟨hsel, hparent⟩ := Bool.and_eq_true_iff.mp hcond
  exact ⟨of_decide_eq_true hsel, of_decide_eq_true hparent, u, hu, rfl⟩

theorem mem_close_of_mem (h : scope ∈ c.scopes) : scope ∈ c.close selected k := by
  unfold Chunking.close
  simp only
  split_ifs
  · exact h
  · exact mem_append_left _ h

/-- Closing a scope keeps the selected units in it. -/
theorem close_covers (hu : u ∈ c.current) (hsel : u.id ∈ selected) :
    ∃ scope ∈ c.close selected k, u.id ∈ scope.firstSelected := by
  have hfirst : u.id ∈ (chunkScope selected k c.index c.current).firstSelected :=
    mem_firstSelected.mpr ⟨hsel, u, hu, rfl⟩
  refine ⟨chunkScope selected k c.index c.current, ?_, hfirst⟩
  unfold Chunking.close
  rw [if_neg]
  · exact mem_append_right _ (mem_singleton.mpr rfl)
  · rintro (hnil | hnil)
    · exact absurd hu (hnil ▸ not_mem_nil)
    · exact absurd hfirst (hnil ▸ not_mem_nil)

theorem mem_close (h : scope ∈ c.close selected k) :
    scope ∈ c.scopes ∨ scope = chunkScope selected k c.index c.current := by
  unfold Chunking.close at h
  simp only at h
  split_ifs at h
  · exact .inl h
  · exact (mem_append.mp h).imp id mem_singleton.mp

/-- A unit fits the open scope, or the next one alone. -/
def ChunkFits (redact : Text → Text) (path : Text) (selected : List Text) (ownerId : Text)
    (before : List SourceUnit) (u : SourceUnit) : Prop :=
  let c := chunks redact path selected ownerId before
  fits redact path (chunkScope selected ownerId c.index (c.current ++ [u])) ∨
    fits redact path (chunkScope selected ownerId c.nextIndex [u])

theorem chunks_concat : chunks redact path selected k (units ++ [u]) =
      (chunks redact path selected k units).push redact path selected k u := by
  simp only [chunks, foldl_append, foldl_cons, foldl_nil]

theorem push_omitted : (c.push redact path selected k u).omitted = [] ↔
    c.omitted = [] ∧ (u.id ∈ selected →
      fits redact path (chunkScope selected k c.index (c.current ++ [u])) ∨
      fits redact path (chunkScope selected k c.nextIndex [u])) := by
  unfold Chunking.push
  split_ifs with hopen halone hsel
  · simp [hopen]
  · simp [halone]
  · simp [hopen, halone, hsel]
  · simp [hsel]

/-- Nothing is omitted iff every unit fits. -/
theorem chunks_omitted : (chunks redact path selected k units).omitted = [] ↔
    ∀ before u after, units = before ++ u :: after → u.id ∈ selected →
      ChunkFits redact path selected k before u := by
  induction units using List.reverseRecOn with
  | nil =>
    refine ⟨fun _ before u after h => absurd h.symm (by simp), fun _ => rfl⟩
  | append_singleton units v ih =>
    rw [chunks_concat, push_omitted, ih]
    constructor
    · rintro ⟨hbefore, hlast⟩ before u after heq hsel
      rcases eq_nil_or_concat' after with rfl | ⟨after', w, rfl⟩
      · obtain ⟨rfl, hlasteq⟩ := append_inj' heq rfl
        obtain rfl := (List.cons.inj hlasteq).1
        exact hlast hsel
      · rw [← cons_append, ← append_assoc] at heq
        exact hbefore before u after' (append_inj' heq rfl).1 hsel
    · intro h
      refine ⟨fun before u after heq hsel => h before u (after ++ [v]) ?_ hsel,
        fun hsel => h units v [] rfl hsel⟩
      rw [heq, append_assoc, cons_append]

/-- Every selected unit is omitted or in a scope. -/
theorem chunks_covers (hu : u ∈ units) (hsel : u.id ∈ selected) :
    u.id ∈ (chunks redact path selected k units).omitted ∨
      ∃ scope ∈ (chunks redact path selected k units).close selected k,
        u.id ∈ scope.firstSelected := by
  -- before the last scope is closed a unit may also be in the open one
  have hopen : ∀ u ∈ units, u.id ∈ selected → u.id ∈ (chunks redact path selected k units).omitted ∨
      (∃ scope ∈ (chunks redact path selected k units).scopes, u.id ∈ scope.firstSelected) ∨
      u ∈ (chunks redact path selected k units).current := by
    clear hu
    induction units using List.reverseRecOn with
    | nil => exact nofun
    | append_singleton units v ih =>
      intro u hu hsel
      rw [chunks_concat]
      generalize chunks redact path selected k units = c at ih
      have hclosed : u ∈ units → u.id ∈ c.omitted ∨
          ∃ scope ∈ c.close selected k, u.id ∈ scope.firstSelected := by
        intro hu
        rcases ih u hu hsel with hom | ⟨scope, hscope, hfirst⟩ | hcur
        · exact .inl hom
        · exact .inr ⟨scope, mem_close_of_mem hscope, hfirst⟩
        · exact .inr (close_covers hcur hsel)
      unfold Chunking.push
      rcases mem_append.mp hu with hu | hu
      · split_ifs with hfits halone hv
        · rcases ih u hu hsel with hom | hscope | hcur
          · exact .inl hom
          · exact .inr (.inl hscope)
          · exact .inr (.inr (mem_append_left _ hcur))
        · exact (hclosed hu).imp id .inl
        · exact (hclosed hu).imp (mem_append_left _) .inl
        · exact (hclosed hu).imp id .inl
      · obtain rfl := mem_singleton.mp hu
        split_ifs with hfits halone
        · exact .inr (.inr (mem_append_right _ hu))
        · exact .inr (.inr hu)
        · exact .inl (mem_append_right _ (mem_singleton.mpr rfl))
  rcases hopen u hu hsel with hom | ⟨scope, hscope, hfirst⟩ | hcur
  · exact .inl hom
  · exact .inr ⟨scope, mem_close_of_mem hscope, hfirst⟩
  · exact .inr (close_covers hcur hsel)

/-- Every scope of the chunks is of some of the units. -/
theorem chunks_scopes (h : scope ∈ (chunks redact path selected k units).close selected k) :
    ∃ i us, scope = chunkScope selected k i us ∧ ∀ u ∈ us, u ∈ units := by
  have hopen : (∀ scope ∈ (chunks redact path selected k units).scopes,
        ∃ i us, scope = chunkScope selected k i us ∧ ∀ u ∈ us, u ∈ units) ∧
      ∀ u ∈ (chunks redact path selected k units).current, u ∈ units := by
    clear h
    induction units using List.reverseRecOn with
    | nil => exact ⟨nofun, nofun⟩
    | append_singleton units v ih =>
      rw [chunks_concat]
      generalize chunks redact path selected k units = c at ih
      obtain ⟨hscopes, hcurrent⟩ := ih
      have hold : ∀ scope ∈ c.scopes,
          ∃ i us, scope = chunkScope selected k i us ∧ ∀ u ∈ us, u ∈ units ++ [v] := by
        intro scope hscope
        obtain ⟨i, us, heq, hus⟩ := hscopes scope hscope
        exact ⟨i, us, heq, fun u hu => mem_append_left _ (hus u hu)⟩
      have hcur : ∀ u ∈ c.current, u ∈ units ++ [v] :=
        fun u hu => mem_append_left _ (hcurrent u hu)
      have hclosed : ∀ scope ∈ c.close selected k,
          ∃ i us, scope = chunkScope selected k i us ∧ ∀ u ∈ us, u ∈ units ++ [v] := by
        intro scope hscope
        rcases mem_close hscope with hscope | rfl
        · exact hold scope hscope
        · exact ⟨c.index, c.current, rfl, hcur⟩
      unfold Chunking.push
      split_ifs with hfits halone
      · refine ⟨hold, fun u hu => ?_⟩
        rcases mem_append.mp hu with hu | hu
        · exact hcur u hu
        · exact mem_append_right _ hu
      · exact ⟨hclosed, fun u hu => mem_append_right _ hu⟩
      · exact ⟨hclosed, nofun⟩
      · exact ⟨hclosed, nofun⟩
  rcases mem_close h with h | rfl
  · exact hopen.1 scope h
  · exact ⟨_, _, rfl, hopen.2⟩

end Scopes

/-! ## The scopes of a plan -/

section Plan

variable {redact : Text → Text} {path : Text} {full minimal : List SourceUnit}
variable {selected : List Text} {id k : Text} {scope : ReviewScope} {us : List SourceUnit}

section

variable (redact : Text → Text) (path : Text) (full minimal : List SourceUnit)
  (selected : List Text) (group : Text × List SourceUnit)

/-- The scopes that come of one group. -/
def groupScopes : List ReviewScope :=
  match groupReview redact path full minimal selected group.1 group.2 with
  | .whole scope => [scope]
  | .chunked units => (chunks redact path selected group.1 units).close selected group.1
  | _ => []

/-- The ids of one group that no review is made for. -/
def groupPassthrough : List Text :=
  match groupReview redact path full minimal selected group.1 group.2 with
  | .passthrough => groupFirst selected group.2
  | _ => []

end

theorem planGroup_scopes (s : PlanState) (group : Text × List SourceUnit) :
    (planGroup redact path full minimal selected s group).scopes =
      s.scopes ++ groupScopes redact path full minimal selected group := by
  unfold planGroup groupScopes
  cases groupReview redact path full minimal selected group.1 group.2 with
  | none | passthrough => exact (append_nil _).symm
  | whole scope | chunked units => rfl

theorem planGroup_passthrough (s : PlanState) (group : Text × List SourceUnit) :
    (planGroup redact path full minimal selected s group).passthrough =
      s.passthrough ++ groupPassthrough redact path full minimal selected group := by
  unfold planGroup groupPassthrough
  cases groupReview redact path full minimal selected group.1 group.2 with
  | none => exact (append_nil _).symm
  | passthrough => rfl
  | whole scope | chunked units => exact (append_nil _).symm

theorem plan_scopes (s : PlanState) (groups : Groups) :
    (groups.foldl (planGroup redact path full minimal selected) s).scopes =
      s.scopes ++ groups.flatMap (groupScopes redact path full minimal selected) := by
  induction groups generalizing s with
  | nil => exact (append_nil _).symm
  | cons g groups ih =>
    rw [foldl_cons, ih, planGroup_scopes, flatMap_cons, append_assoc]

theorem plan_passthrough (s : PlanState) (groups : Groups) :
    (groups.foldl (planGroup redact path full minimal selected) s).passthrough =
      s.passthrough ++ groups.flatMap (groupPassthrough redact path full minimal selected) := by
  induction groups generalizing s with
  | nil => exact (append_nil _).symm
  | cons g groups ih =>
    rw [foldl_cons, ih, planGroup_passthrough, flatMap_cons, append_assoc]

/-- A scope with a parent is all of its group. -/
structure WholeScope (redact : Text → Text) (path : Text) (full minimal : List SourceUnit)
    (selected : List Text) (k : Text) (us : List SourceUnit) (scope : ReviewScope)
    (p : SourceUnit) : Prop where
  unit : p ∈ full
  owner : p.id = k
  only : groupScopes redact path full minimal selected (k, us) = [scope]
  selects : ∃ u ∈ us, u.id ∈ selected
  complete : ∀ u ∈ minimal, contains p u → ∃ v ∈ us, v.id = u.id
  first : ∀ u ∈ us, u.id ∈ selected → safe redact u → u.id ∈ scope.firstSelected

/-- What every scope of a group has. -/
structure ScopeOf (redact : Text → Text) (path : Text) (full minimal : List SourceUnit)
    (selected : List Text) (k : Text) (us : List SourceUnit) (scope : ReviewScope) : Prop where
  skipped : scope.skippedUnitIds = []
  first : ∀ id ∈ scope.firstSelected, id ∈ selected
  addable : ∀ id ∈ scope.addable, id ∉ selected ∧ ∃ u ∈ us, u.id = id
  parent : ∀ id, scope.parentUnitId = some id →
    ∃ p, p.id = id ∧ WholeScope redact path full minimal selected k us scope p

theorem groupFirst_exists (h : groupFirst selected us ≠ []) : ∃ u ∈ us, u.id ∈ selected := by
  obtain ⟨id, hid⟩ := exists_mem_of_ne_nil _ h
  obtain ⟨hsel, u, hu, rfl⟩ := mem_groupFirst.mp hid
  exact ⟨u, hu, hsel⟩

variable {units : List SourceUnit} {first : SelectionOutput}

theorem groupReview_chunked
    (h : groupReview redact path full minimal selected k us = .chunked units) :
    units = us.filter (safe redact) := by
  unfold groupReview at h
  simp only at h
  split_ifs at h
  split at h
  · split_ifs at h
    exact (GroupReview.chunked.inj h).symm
  · exact (GroupReview.chunked.inj h).symm

theorem groupReview_whole (h : groupReview redact path full minimal selected k us = .whole scope) :
    ∃ p ∈ full, p.id = k ∧ (∃ u ∈ us, u.id ∈ selected) ∧
      (∀ u ∈ minimal, contains p u → ∃ v ∈ us, v.id = u.id) ∧
      scope = makeScope k 0 (us.filter (safe redact) ++ [p]) selected false (some p) := by
  unfold groupReview at h
  simp only at h
  split_ifs at h with hnone
  split at h
  next p hp =>
    split_ifs at h with hcond
    obtain ⟨hfind, _⟩ := Option.filter_eq_some_iff.mp hp
    have howner := List.find?_some hfind
    refine ⟨p, mem_of_find?_eq_some hfind, of_decide_eq_true howner,
      groupFirst_exists hnone, ?_, (GroupReview.whole.inj h).symm⟩
    intro u hu hcontains
    have hany := all_eq_true.mp (Bool.and_eq_true_iff.mp hcond).1 u
      (mem_filter.mpr ⟨hu, hcontains⟩)
    obtain ⟨v, hv, heq⟩ := any_eq_true.mp hany
    exact ⟨v, hv, of_decide_eq_true heq⟩
  · cases h

theorem groupScopes_scopeOf (h : scope ∈ groupScopes redact path full minimal selected (k, us)) :
    ScopeOf redact path full minimal selected k us scope := by
  cases hreview : groupReview redact path full minimal selected k us with
  | none =>
    simp only [groupScopes, hreview, not_mem_nil] at h
  | passthrough =>
    simp only [groupScopes, hreview, not_mem_nil] at h
  | whole whole =>
    have honly : groupScopes redact path full minimal selected (k, us) = [whole] := by
      simp only [groupScopes, hreview]
    obtain rfl := mem_singleton.mp (honly ▸ h)
    obtain ⟨p, hfull, howner, hselects, hcomplete, rfl⟩ := groupReview_whole hreview
    refine ⟨rfl, fun id hid => (mem_firstSelected.mp hid).1, ?_, ?_⟩
    · intro id hid
      obtain ⟨hsel, hne, u, hu, rfl⟩ := mem_addable hid
      refine ⟨hsel, u, ?_, rfl⟩
      rcases mem_append.mp hu with hu | hu
      · exact mem_of_mem_filter hu
      · rw [mem_singleton.mp hu] at hne
        exact absurd rfl hne
    · intro id hid
      refine ⟨p, Option.some.inj hid, hfull, howner, honly, hselects, hcomplete, ?_⟩
      intro u hu hsel hsafe
      exact mem_firstSelected.mpr
        ⟨hsel, u, mem_append_left _ (mem_filter.mpr ⟨hu, hsafe⟩), rfl⟩
  | chunked units =>
    simp only [groupScopes, hreview] at h
    obtain ⟨i, ws, rfl, hws⟩ := chunks_scopes h
    refine ⟨rfl, fun id hid => (mem_firstSelected.mp hid).1, ?_, nofun⟩
    intro id hid
    obtain ⟨hsel, _, u, hu, rfl⟩ := mem_addable hid
    have hunit := groupReview_chunked hreview ▸ hws u hu
    exact ⟨hsel, u, mem_of_mem_filter hunit, rfl⟩

/-! ## What the plan omits -/

/-- Every selected unit of a group in chunks fits one. -/
def GroupFits (redact : Text → Text) (path : Text) (full minimal : List SourceUnit)
    (selected : List Text) (group : Text × List SourceUnit) : Prop :=
  ∀ units, groupReview redact path full minimal selected group.1 group.2 = .chunked units →
    ∀ before u after, units = before ++ u :: after → u.id ∈ selected →
      ChunkFits redact path selected group.1 before u

/-- Every selected unit to review fits an input. -/
def EachFits (redact : Text → Text) (path : Text) (full minimal : List SourceUnit)
    (first : SelectionOutput) : Prop :=
  ∀ group ∈ reviewGroups redact path full minimal (first.map (·.unitId)),
    GroupFits redact path full minimal (first.map (·.unitId)) group

theorem chunkScope_startsWith {i : Nat} :
    startsWith (String.ofList ("review:".toList ++ k ++ [':'])) (chunkScope selected k i units).id := by
  rw [startsWith, String.toList_ofList]
  refine isPrefixOf_iff_prefix.mpr ?_
  show ("review:".toList ++ k ++ [':']) <+: "review:".toList ++ k ++ ':' :: _ ++ ':' :: _
  rw [append_assoc ("review:".toList ++ k)]
  exact prefix_append_right_inj _ |>.mpr ⟨_, rfl⟩

theorem planGroup_omitted (s : PlanState)
    (hsafe : ∀ u ∈ us, u.id ∈ selected → safe redact u) :
    (planGroup redact path full minimal selected s (k, us)).omitted = [] ↔
      s.omitted = [] ∧ GroupFits redact path full minimal selected (k, us) := by
  unfold planGroup GroupFits
  cases hreview : groupReview redact path full minimal selected k us with
  | none | passthrough | whole scope => simp
  | chunked units =>
    have hunits := groupReview_chunked hreview
    simp only [append_eq_nil_iff, GroupReview.chunked.injEq, forall_eq', and_assoc, chunks_omitted]
    refine and_congr_right fun _ => and_iff_left_of_imp fun hfits => ?_
    -- nothing omitted means that every selected unit is in a scope of the group
    rw [filter_eq_nil_iff]
    intro id hid hnot
    obtain ⟨hsel, u, hu, rfl⟩ := mem_groupFirst.mp hid
    have hmem : u ∈ units := hunits ▸ mem_filter.mpr ⟨hu, hsafe u hu hsel⟩
    refine of_decide_eq_true hnot ?_
    rcases (chunks_covers hmem hsel : u.id ∈ (chunks redact path selected k units).omitted ∨ _)
      with hom | ⟨scope, hscope, hfirst⟩
    · rw [chunks_omitted.mpr hfits] at hom
      cases hom
    · obtain ⟨i, ws, rfl, _⟩ := chunks_scopes hscope
      exact mem_flatMap.mpr ⟨_, mem_filter.mpr
        ⟨mem_append_right _ hscope, chunkScope_startsWith⟩, hfirst⟩

theorem plan_omitted (s : PlanState) (groups : Groups)
    (hsafe : ∀ g ∈ groups, ∀ u ∈ g.2, u.id ∈ selected → safe redact u) :
    (groups.foldl (planGroup redact path full minimal selected) s).omitted = [] ↔
      s.omitted = [] ∧ ∀ g ∈ groups, GroupFits redact path full minimal selected g := by
  induction groups generalizing s with
  | nil => simp
  | cons g groups ih =>
    rw [foldl_cons, ih _ fun g' hg => hsafe g' (mem_cons_of_mem g hg),
      planGroup_omitted s (hsafe g mem_cons_self), and_assoc, forall_mem_cons]

/-- A selected id is in a scope or passed through. -/
theorem GroupFits.covers {u : SourceUnit}
    (hfits : GroupFits redact path full minimal selected (k, us)) (hu : u ∈ us)
    (hsel : u.id ∈ selected) (hsafe : safe redact u) :
    (∃ scope ∈ groupScopes redact path full minimal selected (k, us), u.id ∈ scope.firstSelected) ∨
    u.id ∈ groupPassthrough redact path full minimal selected (k, us) := by
  have hfirst : u.id ∈ groupFirst selected us := mem_groupFirst.mpr ⟨hsel, u, hu, rfl⟩
  cases hreview : groupReview redact path full minimal selected k us with
  | none =>
    exfalso
    unfold groupReview at hreview
    simp only at hreview
    split_ifs at hreview with hnone
    · exact absurd hfirst (hnone ▸ not_mem_nil)
    · split at hreview
      · split_ifs at hreview
      · cases hreview
  | passthrough =>
    refine .inr ?_
    simp only [groupPassthrough, hreview]
    exact hfirst
  | whole scope =>
    refine .inl ⟨scope, ?_, ?_⟩
    · simp only [groupScopes, hreview, mem_singleton]
    · obtain ⟨p, _, _, _, _, rfl⟩ := groupReview_whole hreview
      exact mem_firstSelected.mpr
        ⟨hsel, u, mem_append_left _ (mem_filter.mpr ⟨hu, hsafe⟩), rfl⟩
  | chunked units =>
    have hmem : u ∈ units := groupReview_chunked hreview ▸ mem_filter.mpr ⟨hu, hsafe⟩
    simp only [groupScopes, hreview]
    rcases (chunks_covers hmem hsel : u.id ∈ (chunks redact path selected k units).omitted ∨ _)
      with hom | hscope
    · rw [chunks_omitted.mpr (hfits units hreview)] at hom
      cases hom
    · exact .inl hscope

theorem sortDedup_nil {ids : List Text} : sortDedup ids = [] ↔ ids = [] := by
  unfold sortDedup
  rw [dedup_eq_nil]
  constructor
  · intro h
    exact length_eq_zero_iff.mp ((length_insertionSort _ _).symm.trans (length_eq_zero_iff.mpr h))
  · rintro rfl
    rfl

/-- **WHAT THE PLAN OMITS** is what fits no review input. -/
theorem omittedSelected_nil_iff (hc : Candidates full minimal)
    (hpicked : Picked redact minimal (first.map (·.unitId))) :
    (buildPlan redact path full minimal first).omittedSelected = [] ↔
      EachFits redact path full minimal first := by
  unfold buildPlan EachFits
  generalize first.map (·.unitId) = selected at hpicked
  obtain ⟨hgrouped, hall⟩ := reviewGroups_grouped redact path selected hc
  have hsafe : ∀ u ∈ minimal, u.id ∈ selected → safe redact u := by
    intro u hu hsel
    obtain ⟨v, hv, hid, hsafe⟩ := hpicked u.id hsel
    exact hc.eq_of_id hv hu hid ▸ hsafe
  have hgroupSafe : ∀ g ∈ reviewGroups redact path full minimal selected, ∀ u ∈ g.2,
      u.id ∈ selected → safe redact u :=
    fun g hg u hu hsel => hsafe u (hgrouped.minimal ⟨g.2, hg, hu⟩) hsel
  have hplan : (List.foldl (planGroup redact path full minimal selected) ⟨[], [], []⟩
      (reviewGroups redact path full minimal selected)).omitted = [] ↔ _ :=
    plan_omitted ⟨[], [], []⟩ _ hgroupSafe
  simp only
  split_ifs with hnil
  · refine iff_of_true rfl fun g _ units _ before u after _ hsel => ?_
    exact absurd hsel (hnil ▸ not_mem_nil)
  · rw [sortDedup_nil, append_eq_nil_iff, hplan, and_iff_right rfl]
    refine and_iff_left_of_imp fun hfits => ?_
    -- every selected unit is in a group, and every group that fits accounts for it
    rw [filter_eq_nil_iff]
    intro id hid hleft
    obtain ⟨u, hu, rfl, husafe⟩ := hpicked id hid
    obtain ⟨k, us, hgroup, huin⟩ := hall u hu
    simp only [Bool.and_eq_true, decide_eq_true_eq, plan_scopes, plan_passthrough] at hleft
    rcases (hfits (k, us) hgroup).covers huin hid husafe with ⟨scope, hscope, hfirst⟩ | hpass
    · exact hleft.1.1 (mem_flatMap.mpr ⟨scope, mem_flatMap.mpr ⟨(k, us), hgroup, hscope⟩, hfirst⟩)
    · exact hleft.2 (mem_flatMap.mpr ⟨(k, us), hgroup, hpass⟩)

/-- Every scope of the plan is of one group. -/
theorem buildPlan_scope (h : scope ∈ (buildPlan redact path full minimal first).scopes) :
    ∃ k us, (k, us) ∈ reviewGroups redact path full minimal (first.map (·.unitId)) ∧
      scope ∈ groupScopes redact path full minimal (first.map (·.unitId)) (k, us) := by
  unfold buildPlan at h
  simp only at h
  split_ifs at h with hnil
  · cases h
  · simp only [plan_scopes] at h
    obtain ⟨⟨k, us⟩, hgroup, hscope⟩ := mem_flatMap.mp h
    exact ⟨k, us, hgroup, hscope⟩

end Plan

end MemoryReview
