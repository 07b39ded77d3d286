import McpVault.ReviewPlanProofs

/-! # What a note's extraction publishes

`Reduced` says what is true after each scope of `reduce_plan`: where every id of the selection
comes from (`Origin`), which reviews were accepted, and that an id outside all scopes is still
there.  From the origins the published units are disjoint and none was omitted by a review; from
the last point an id that the plan omits is still selected (`omitted_selected`). -/

namespace MemoryReview

open List
open LogicalPath (byteLen byteLen_append)
open PlainText (Text)
open MemoryUnits SortedMap
open MemoryPacks (jsonString jsonStrings jsonArray jsonObject escapeChar)
open Outline (Span)

/-! ## The selection as a map -/

section Selection

variable {s : Selected} {id : Text} {item : UnitSelection}

/-- The ids that are selected. -/
def Selected.ids (s : Selected) : List Text := s.map (·.1)

/-- Entries stand under their own id, in ascending order. -/
structure Selected.Keyed (s : Selected) : Prop where
  own : ∀ e ∈ s, e.2.unitId = e.1
  sorted : s.ids.Pairwise (· < ·)

theorem mem_ids_insert : id ∈ (s.insert item).ids ↔ id = item.unitId ∨ id ∈ s.ids :=
  mem_keys_upsert

variable {ids : List Text}

theorem mem_ids_removeAll : id ∈ (s.removeAll ids).ids ↔ id ∈ s.ids ∧ id ∉ ids := by
  unfold Selected.ids Selected.removeAll
  simp only [mem_map, mem_filter, decide_eq_true_eq]
  constructor
  · rintro ⟨e, ⟨he, hnot⟩, rfl⟩
    exact ⟨⟨e, he, rfl⟩, hnot⟩
  · rintro ⟨⟨e, he, rfl⟩, hnot⟩
    exact ⟨e, ⟨he, hnot⟩, rfl⟩

theorem mem_ids_insertAll (items : List UnitSelection) :
    id ∈ (items.foldl Selected.insert s).ids ↔ id ∈ items.map (·.unitId) ∨ id ∈ s.ids := by
  induction items generalizing s with
  | nil => simp
  | cons item items ih =>
    rw [foldl_cons, ih, mem_ids_insert, map_cons, mem_cons]
    tauto

theorem Selected.Keyed.insert (h : s.Keyed) : (s.insert item).Keyed where
  own := forall_upsert rfl (fun _ _ => rfl) h.own
  sorted := keys_upsert h.sorted

theorem Selected.Keyed.removeAll (h : s.Keyed) : (s.removeAll ids).Keyed where
  own := fun e he => h.own e (mem_of_mem_filter he)
  sorted := h.sorted.sublist (filter_sublist.map _)

theorem Selected.Keyed.insertAll (items : List UnitSelection) (h : s.Keyed) :
    (items.foldl Selected.insert s).Keyed := by
  induction items generalizing s with
  | nil => exact h
  | cons item items ih => exact ih h.insert

end Selection

/-! ## One review -/

section Review

variable {minimalIds : List Text} {scope : ReviewScope} {review : ValidatedReview}
variable {s : Selected} {id : Text}

/-- What an accepted review satisfies. -/
structure Accepted (minimalIds : List Text) (scope : ReviewScope) (review : ValidatedReview) :
    Prop where
  alone : review.replaceParent.isSome → review.additions = []
  omits : ∀ id ∈ review.omit_, id ∈ scope.firstSelected
  adds : ∀ a ∈ review.additions, a.unitId ∈ scope.addable ∧ a.unitId ∈ minimalIds
  parent : ∀ p, review.replaceParent = some p → scope.parentUnitId = some p.unitId

theorem accepted_of_reviewError (h : reviewError minimalIds scope review = none) :
    Accepted minimalIds scope review := by
  unfold reviewError at h
  split_ifs at h with hcover halone hknown hparent
  push Not at hknown
  refine ⟨?_, ?_, ?_, ?_⟩
  · intro hsome
    by_contra hne
    exact halone ⟨hsome, fun hall => hne hall.2.2⟩
  · intro id hid
    by_contra hnot
    exact hknown.2.1 (any_eq_true.mpr ⟨id, hid, decide_eq_true hnot⟩)
  · intro a ha
    by_contra hnot
    refine hknown.2.2 (any_eq_true.mpr ⟨a, ha, ?_⟩)
    simp only [Bool.or_eq_true, decide_eq_true_eq]
    exact not_and_or.mp hnot
  · intro p hp
    by_contra hne
    refine hparent ?_
    rw [hp]
    exact decide_eq_true hne

theorem mem_applyReview : id ∈ (applyReview scope review s).ids ↔
    (∃ p, review.replaceParent = some p ∧ p.unitId = id) ∨
    (id ∈ review.additions.map (·.unitId) ∨ id ∈ s.ids ∧ id ∉ review.omit_) ∧
      (review.replaceParent.isSome → id ∉ scope.firstSelected) := by
  unfold applyReview
  cases review.replaceParent with
  | none =>
    simp only [mem_ids_insertAll, mem_ids_removeAll]
    simp
  | some p =>
    simp only [mem_ids_insert, mem_ids_removeAll, mem_ids_insertAll]
    simp [eq_comm]

theorem Selected.Keyed.applyReview (h : s.Keyed) :
    (MemoryReview.applyReview scope review s).Keyed := by
  unfold MemoryReview.applyReview
  cases review.replaceParent with
  | none => exact h.removeAll.insertAll _
  | some p => exact (h.removeAll.insertAll _).removeAll.insert

end Review

/-! ## All reviews -/

section Reduce

variable {firstIds minimalIds covered covered' : List Text} {id : Text} {unknown : String}
variable {allowed : Text → Bool} {r r' : Reduction} {scope : ReviewScope} {review : ValidatedReview}
variable {done rest : List (ReviewScope × ValidatedReview)}

theorem takeIds_ok {ids : List Text} (h : takeIds allowed unknown covered ids = .ok covered') :
    ∀ id, id ∈ covered' ↔ id ∈ covered ∨ id ∈ ids := by
  induction ids generalizing covered with
  | nil =>
    rw [← Except.ok.inj h]
    simp
  | cons x ids ih =>
    rw [takeIds] at h
    split_ifs at h with hallowed hseen
    intro id
    rw [ih h, mem_cons, mem_cons]
    tauto

/-- Where a selected id comes from after reviews. -/
inductive Origin (firstIds minimalIds : List Text) (done : List (ReviewScope × ValidatedReview))
    (id : Text) : Prop
  | kept (hfirst : id ∈ firstIds) (hkept : ∀ x ∈ done, id ∉ x.2.omit_)
      (hstays : ∀ x ∈ done, x.2.replaceParent.isSome → id ∉ x.1.firstSelected)
  | added (x : ReviewScope × ValidatedReview) (hx : x ∈ done) (hadds : x.2.additions ≠ [])
      (haddable : id ∈ x.1.addable) (hminimal : id ∈ minimalIds)
  | parent (x : ReviewScope × ValidatedReview) (hx : x ∈ done) (hsome : x.2.replaceParent.isSome)
      (hparent : x.1.parentUnitId = some id)

/-- What is true after the reviews of some scopes. -/
structure Reduced (firstIds minimalIds : List Text) (done : List (ReviewScope × ValidatedReview))
    (r : Reduction) : Prop where
  keyed : r.selected.Keyed
  origin : ∀ id ∈ r.selected.ids, Origin firstIds minimalIds done id
  accepted : ∀ x ∈ done, Accepted minimalIds x.1 x.2
  seen : ∀ x ∈ done, x.1.id ∈ r.seenScopes
  once : (done.map (·.1.id)).Nodup
  stays : ∀ id ∈ firstIds,
    (∀ x ∈ done, id ∉ x.1.firstSelected ∧ id ∉ x.1.skippedUnitIds) → id ∈ r.selected.ids
  covers : ∀ x ∈ done, ∀ id, id ∈ x.1.firstSelected ∨ id ∈ x.1.skippedUnitIds → id ∈ r.covered

/-- What an accepted step of the reduction does. -/
theorem reduceScope_ok (h : reduceScope firstIds minimalIds r scope review = .ok r') :
    scope.id ∉ r.seenScopes ∧ Accepted minimalIds scope review ∧
      r'.selected = applyReview scope review (r.selected.removeAll scope.skippedUnitIds) ∧
      r'.seenScopes = scope.id :: r.seenScopes ∧
      ∀ id, id ∈ r'.covered ↔
        (id ∈ r.covered ∨ id ∈ scope.firstSelected) ∨ id ∈ scope.skippedUnitIds := by
  unfold reduceScope at h
  split_ifs at h with hseen
  simp only [bind, Except.bind] at h
  split at h
  · cases h
  next c₁ hfirst =>
    split at h
    · cases h
    next c₂ hskip =>
      split at h
      · cases h
      next hnone =>
        obtain rfl := Except.ok.inj h
        refine ⟨hseen, accepted_of_reviewError hnone, rfl, rfl, fun id => ?_⟩
        rw [takeIds_ok hskip, takeIds_ok hfirst]

theorem Origin.step {x : ReviewScope × ValidatedReview} (h : Origin firstIds minimalIds done id)
    (homit : id ∉ x.2.omit_) (hstay : x.2.replaceParent.isSome → id ∉ x.1.firstSelected) :
    Origin firstIds minimalIds (done ++ [x]) id := by
  cases h with
  | kept hfirst hkept hstays =>
    refine .kept hfirst ?_ ?_
    · intro y hy
      rcases mem_append.mp hy with hy | hy
      · exact hkept y hy
      · exact mem_singleton.mp hy ▸ homit
    · intro y hy
      rcases mem_append.mp hy with hy | hy
      · exact hstays y hy
      · exact mem_singleton.mp hy ▸ hstay
  | added y hy hadds haddable hminimal =>
    exact .added y (mem_append_left _ hy) hadds haddable hminimal
  | parent y hy hsome hparent => exact .parent y (mem_append_left _ hy) hsome hparent

/-- One accepted step keeps it. -/
theorem Reduced.step (hr : Reduced firstIds minimalIds done r)
    (h : reduceScope firstIds minimalIds r scope review = .ok r') :
    Reduced firstIds minimalIds (done ++ [(scope, review)]) r' := by
  obtain ⟨hseen, hacc, hsel, hscopes, hcov⟩ := reduceScope_ok h
  have hlast : (scope, review) ∈ done ++ [(scope, review)] :=
    mem_append_right _ (mem_singleton.mpr rfl)
  have hcases : ∀ x ∈ done ++ [(scope, review)], x ∈ done ∨ x = (scope, review) :=
    fun x hx => (mem_append.mp hx).imp_right mem_singleton.mp
  refine ⟨?_, ?_, ?_, ?_, ?_, ?_, ?_⟩
  · rw [hsel]
    exact hr.keyed.removeAll.applyReview
  · intro id hid
    rw [hsel, mem_applyReview] at hid
    rcases hid with ⟨p, hp, rfl⟩ | ⟨hadd | ⟨hold, homit⟩, hstay⟩
    · exact .parent _ hlast (hp ▸ rfl) (hacc.parent p hp)
    · obtain ⟨a, ha, rfl⟩ := mem_map.mp hadd
      obtain ⟨haddable, hminimal⟩ := hacc.adds a ha
      exact .added _ hlast (ne_nil_of_mem ha) haddable hminimal
    · exact (hr.origin id (mem_ids_removeAll.mp hold).1).step homit hstay
  · intro x hx
    rcases hcases x hx with hx | rfl
    · exact hr.accepted x hx
    · exact hacc
  · intro x hx
    rw [hscopes]
    rcases hcases x hx with hx | rfl
    · exact mem_cons_of_mem _ (hr.seen x hx)
    · exact mem_cons_self
  · rw [map_append, map_singleton, nodup_append]
    refine ⟨hr.once, nodup_singleton _, ?_⟩
    intro a ha b hb hab
    obtain ⟨x, hx, rfl⟩ := mem_map.mp ha
    rw [mem_singleton.mp hb] at hab
    exact hseen (hab ▸ hr.seen x hx)
  · intro id hid hout
    obtain ⟨hnotFirst, hnotSkip⟩ := hout _ hlast
    have hold := hr.stays id hid fun x hx => hout x (mem_append_left _ hx)
    rw [hsel, mem_applyReview]
    exact .inr ⟨.inr ⟨mem_ids_removeAll.mpr ⟨hold, hnotSkip⟩,
      fun homit => hnotFirst (hacc.omits id homit)⟩, fun _ => hnotFirst⟩
  · intro x hx id hid
    rw [hcov]
    rcases hcases x hx with hx | rfl
    · exact .inl (.inl (hr.covers x hx id hid))
    · exact hid.imp .inr fun h => h

/-- So does the whole run. -/
theorem Reduced.run (hr : Reduced firstIds minimalIds done r)
    (h : reduceScopes firstIds minimalIds r rest = .ok r') :
    Reduced firstIds minimalIds (done ++ rest) r' := by
  induction rest generalizing done r with
  | nil =>
    rw [append_nil, ← Except.ok.inj h]
    exact hr
  | cons x rest ih =>
    simp only [reduceScopes, bind, Except.bind] at h
    split at h
    · cases h
    next r₁ hstep =>
      rw [append_cons]
      exact ih (hr.step hstep) h

theorem reduced_start (first : SelectionOutput) :
    Reduced (first.map (·.unitId)) minimalIds [] ⟨first.foldl Selected.insert [], [], []⟩ := by
  have hids : ∀ id, id ∈ (first.foldl Selected.insert []).ids ↔ id ∈ first.map (·.unitId) := by
    intro id
    rw [mem_ids_insertAll]
    exact or_iff_left nofun
  have hnil : Selected.Keyed [] := ⟨nofun, List.Pairwise.nil⟩
  refine ⟨hnil.insertAll _, ?_, ?_, ?_, nodup_nil, ?_, ?_⟩
  · intro id hid
    exact .kept ((hids id).mp hid) nofun nofun
  · exact nofun
  · exact nofun
  · exact fun id hid _ => (hids id).mpr hid
  · exact nofun

end Reduce

/-! ## The published units -/

section Published

variable {full minimal : List SourceUnit}
variable {first : SelectionOutput} {plan : ReviewPlan} {reviews : List ValidatedReview}
variable {out : List (SourceUnit × UnitSelection)} {r : Reduction}

theorem resolve_ok {item : UnitSelection} {x : SourceUnit × UnitSelection}
    (h : resolve full minimal item = .ok x) :
    x.2 = item ∧ x.1.id = item.unitId ∧ x.1 ∈ full ++ minimal := by
  unfold resolve at h
  split at h
  next u hfind =>
    obtain rfl := Except.ok.inj h
    have hid := List.find?_some hfind
    exact ⟨rfl, of_decide_eq_true hid, mem_of_find?_eq_some hfind⟩
  · cases h

theorem mapM_resolve {items : List UnitSelection} {xs : List (SourceUnit × UnitSelection)}
    (h : items.mapM (resolve full minimal) = .ok xs) :
    xs.map (·.1.id) = items.map (·.unitId) ∧ ∀ x ∈ xs, x.1 ∈ full ++ minimal := by
  induction items generalizing xs with
  | nil =>
    obtain rfl := Except.ok.inj h
    exact ⟨rfl, nofun⟩
  | cons item items ih =>
    simp only [mapM_cons, bind, Except.bind] at h
    split at h
    · cases h
    next y hy =>
      split at h
      · cases h
      next ys hys =>
        obtain rfl := Except.ok.inj h
        obtain ⟨hids, hmem⟩ := ih hys
        obtain ⟨_, hid, hunit⟩ := resolve_ok hy
        refine ⟨?_, forall_mem_cons.mpr ⟨hunit, hmem⟩⟩
        rw [map_cons, map_cons, hid, hids]

/-- A reduction returns the selection after all reviews. -/
theorem reducePlan_ok (h : reducePlan full minimal first plan reviews = .ok out) :
    ∃ r, Reduced (first.map (·.unitId)) (minimal.map (·.id)) (plan.scopes.zip reviews) r ∧
      plan.scopes.length = reviews.length ∧
      coverage (first.map (·.unitId)) r.covered plan.omittedSelected plan.passthroughSelected ∧
      (out.map (·.1.id)).Perm r.selected.ids ∧ ∀ x ∈ out, x.1 ∈ full ++ minimal := by
  unfold reducePlan at h
  split_ifs at h with hlen
  simp only [bind, Except.bind] at h
  split at h
  · cases h
  next r hrun =>
    split_ifs at h with hcov
    split at h
    · cases h
    next xs hxs =>
      obtain rfl := Except.ok.inj h
      have hreduced := (reduced_start first).run hrun
      obtain ⟨hids, hmem⟩ := mapM_resolve hxs
      refine ⟨r, hreduced, not_not.mp hlen, by simpa using hcov, ?_, ?_⟩
      · have hown : r.selected.map ((·.unitId) ∘ (·.2)) = r.selected.ids :=
          map_congr_left fun e he => hreduced.keyed.own e he
        have hsorted := (perm_insertionSort publishedBefore xs).map (·.1.id)
        have houtput := (perm_insertionSort (fun a b => a.unitId ≤ b.unitId)
          (r.selected.map (·.2))).map (·.unitId)
        rw [map_map, hown] at houtput
        rw [hids] at hsorted
        exact hsorted.trans houtput
      · exact fun x hx => hmem x ((perm_insertionSort _ _).mem_iff.mp hx)

/-- What a note's extraction should publish. -/
structure Published (full minimal : List SourceUnit) (plan : ReviewPlan)
    (reviews : List ValidatedReview) (out : List (SourceUnit × UnitSelection)) : Prop where
  disjoint : out.Pairwise fun x y => x.1.span.Apart y.1.span
  units : ∀ x ∈ out, x.1 ∈ full ∨ x.1 ∈ minimal
  reviewed : ∀ x ∈ out, ∀ review ∈ reviews, x.1.id ∉ review.omit_
  planned : ∀ x ∈ out, x.1.id ∉ plan.omittedSelected

/-- An omitted id is selected when all reviews are done. -/
theorem omitted_selected {id : Text}
    (hr : Reduced (first.map (·.unitId)) (minimal.map (·.id)) (plan.scopes.zip reviews) r)
    (hcov : coverage (first.map (·.unitId)) r.covered plan.omittedSelected
      plan.passthroughSelected) (hid : id ∈ plan.omittedSelected) : id ∈ r.selected.ids := by
  simp only [coverage, Bool.and_eq_true, all_eq_true, decide_eq_true_eq] at hcov
  obtain ⟨⟨⟨⟨⟨⟨_, hfirst⟩, _⟩, hdisjoint⟩, _⟩, _⟩, _⟩ := hcov
  refine hr.stays id (hfirst id hid) fun x hx => ⟨fun hmem => ?_, fun hmem => ?_⟩
  · exact hdisjoint id (hr.covers x hx id (.inl hmem)) hid
  · exact hdisjoint id (hr.covers x hx id (.inr hmem)) hid

end Published

/-! ## Disjointness

Minimal units are disjoint and a parent is around or apart from each.  So it has to be shown that
the parents of two accepted replacements are not inside each other, and that nothing inside one
stays. -/

section Disjoint

variable {redact : Text → Text} {path : Text} {full minimal : List SourceUnit}
variable {first : SelectionOutput} {reviews : List ValidatedReview} {r : Reduction}
variable {x : ReviewScope × ValidatedReview} {id : Text}

/-- The scopes of the plan with their reviews. -/
def reviewedScopes (redact : Text → Text) (path : Text) (full minimal : List SourceUnit)
    (first : SelectionOutput) (reviews : List ValidatedReview) :
    List (ReviewScope × ValidatedReview) :=
  (buildPlan redact path full minimal first).scopes.zip reviews

/-- A replaced parent with its group. -/
structure Replaced (redact : Text → Text) (path : Text) (full minimal : List SourceUnit)
    (first : SelectionOutput) (x : ReviewScope × ValidatedReview) (us : List SourceUnit)
    (p : SourceUnit) : Prop where
  some : x.2.replaceParent.isSome
  group : (p.id, us) ∈ reviewGroups redact path full minimal (first.map (·.unitId))
  whole : WholeScope redact path full minimal (first.map (·.unitId)) p.id us x.1 p

theorem scope_group (hx : x ∈ reviewedScopes redact path full minimal first reviews) :
    ∃ k us, (k, us) ∈ reviewGroups redact path full minimal (first.map (·.unitId)) ∧
      x.1 ∈ groupScopes redact path full minimal (first.map (·.unitId)) (k, us) :=
  buildPlan_scope (of_mem_zip hx).1

theorem exists_replaced (hx : x ∈ reviewedScopes redact path full minimal first reviews)
    (hsome : x.2.replaceParent.isSome) (hparent : x.1.parentUnitId = some id) :
    ∃ us p, p.id = id ∧ Replaced redact path full minimal first x us p := by
  obtain ⟨k, us, hgroup, hscope⟩ := scope_group hx
  obtain ⟨p, hid, hwhole⟩ := (groupScopes_scopeOf hscope).parent id hparent
  have howner := hwhole.owner
  subst howner
  exact ⟨us, p, hid, hsome, hgroup, hwhole⟩

variable {us : List SourceUnit} {p u : SourceUnit}

/-- What the parent stands for is in the parent. -/
theorem Replaced.inGroup (hc : Candidates full minimal)
    (h : Replaced redact path full minimal first x us p) (hu : u ∈ minimal)
    (hin : u.span.Within p.span) :
    InGroup (reviewGroups redact path full minimal (first.map (·.unitId))) p.id u := by
  obtain ⟨v, hv, hid⟩ := h.whole.complete u hu (contains_iff.mpr hin)
  have hgrouped := (reviewGroups_grouped redact path (first.map (·.unitId)) hc).1
  have hmin := hgrouped.minimal ⟨us, h.group, hv⟩
  exact ⟨us, h.group, hc.eq_of_id hmin hu hid ▸ hv⟩

/-- A selected unit is in no replaced parent. -/
theorem Replaced.apart (hc : Candidates full minimal)
    (hpicked : Picked redact minimal (first.map (·.unitId)))
    (hr : Reduced (first.map (·.unitId)) (minimal.map (·.id))
      (reviewedScopes redact path full minimal first reviews) r)
    (h : Replaced redact path full minimal first x us p)
    (hx : x ∈ reviewedScopes redact path full minimal first reviews) (hu : u ∈ minimal)
    (hfrom : u.id ∈ first.map (·.unitId) ∧ u.id ∉ x.1.firstSelected ∨
      ∃ y ∈ reviewedScopes redact path full minimal first reviews,
        y.2.additions ≠ [] ∧ u.id ∈ y.1.addable) : u.span.Apart p.span := by
  refine (hc.around u hu p h.whole.unit).resolve_left fun hin => ?_
  have hgrouped := (reviewGroups_grouped redact path (first.map (·.unitId)) hc).1
  obtain ⟨us', hgroup', hmem⟩ := h.inGroup hc hu hin
  obtain rfl := hgrouped.group_unique h.group hgroup'
  rcases hfrom with ⟨hfirst, hnot⟩ | ⟨y, hy, hadds, haddable⟩
  · -- the scope of the parent has every selected unit of its group
    obtain ⟨v, hv, hid, hsafe⟩ := hpicked u.id hfirst
    exact hnot (h.whole.first u hmem hfirst (hc.eq_of_id hv hu hid ▸ hsafe))
  · -- the addition was made in the scope of the parent, which has no additions
    obtain ⟨k, ws, hgroup, hscope⟩ := scope_group hy
    obtain ⟨_, w, hw, hid⟩ := (groupScopes_scopeOf hscope).addable u.id haddable
    have hwu : w = u := hc.eq_of_id (hgrouped.minimal ⟨ws, hgroup, hw⟩) hu hid
    have hk : k = p.id := hgrouped.unique ⟨ws, hgroup, hwu ▸ hw⟩ ⟨us, h.group, hmem⟩
    subst hk
    obtain rfl := hgrouped.group_unique h.group hgroup
    rw [h.whole.only] at hscope
    have hxy : y = x := inj_on_of_nodup_map hr.once hy hx
      (congrArg ReviewScope.id (mem_singleton.mp hscope))
    exact hadds (hxy ▸ (hr.accepted x hx).alone h.some)

/-- Of two replaced parents none is inside the other. -/
theorem Replaced.not_within {y : ReviewScope × ValidatedReview} {ws : List SourceUnit}
    {q : SourceUnit} (hc : Candidates full minimal)
    (hp : Replaced redact path full minimal first x us p)
    (hq : Replaced redact path full minimal first y ws q) (hne : p.id ≠ q.id) :
    ¬ p.span.Within q.span := by
  intro hin
  have hgrouped := (reviewGroups_grouped redact path (first.map (·.unitId)) hc).1
  obtain ⟨u, hu, _⟩ := hp.whole.selects
  have hup : InGroup (reviewGroups redact path full minimal (first.map (·.unitId))) p.id u :=
    ⟨us, hp.group, hu⟩
  have humin := hgrouped.minimal hup
  rcases hgrouped.owner hup with hroot | ⟨p', hp', hid, hcontains, _⟩
  · exact hc.not_root hp.whole.unit hroot
  · have hspan : p'.span = p.span := hc.span_of_id (mem_append_left _ hp')
      (mem_append_left _ hp.whole.unit) hid
    have hwithin : u.span.Within q.span := (hspan ▸ contains_iff.mp hcontains).trans hin
    exact hne (hgrouped.unique hup (hq.inGroup hc humin hwithin))

/-- Selected: minimal, or a replaced parent. -/
theorem Origin.cases (hpicked : Picked redact minimal (first.map (·.unitId)))
    (h : Origin (first.map (·.unitId)) (minimal.map (·.id))
      (reviewedScopes redact path full minimal first reviews) id) :
    (∃ u ∈ minimal, u.id = id ∧
      ∀ x ∈ reviewedScopes redact path full minimal first reviews, x.2.replaceParent.isSome →
        u.id ∈ first.map (·.unitId) ∧ u.id ∉ x.1.firstSelected ∨
        ∃ y ∈ reviewedScopes redact path full minimal first reviews,
          y.2.additions ≠ [] ∧ u.id ∈ y.1.addable) ∨
    ∃ x ∈ reviewedScopes redact path full minimal first reviews, ∃ us p,
      p.id = id ∧ Replaced redact path full minimal first x us p := by
  cases h with
  | kept hfirst hkept hstays =>
    obtain ⟨u, hu, rfl, _⟩ := hpicked id hfirst
    exact .inl ⟨u, hu, rfl, fun x hx hsome => .inl ⟨hfirst, hstays x hx hsome⟩⟩
  | added y hy hadds haddable hminimal =>
    obtain ⟨u, hu, rfl⟩ := mem_map.mp hminimal
    exact .inl ⟨u, hu, rfl, fun _ _ _ => .inr ⟨y, hy, hadds, haddable⟩⟩
  | parent x hx hsome hparent => exact .inr ⟨x, hx, exists_replaced hx hsome hparent⟩

section

variable (hc : Candidates full minimal) (hpicked : Picked redact minimal (first.map (·.unitId)))
  (hr : Reduced (first.map (·.unitId)) (minimal.map (·.id))
    (reviewedScopes redact path full minimal first reviews) r)

include hc hpicked hr

/-- **SELECTED UNITS ARE DISJOINT**. -/
theorem Reduced.apart {v : SourceUnit} (hu : u ∈ full ++ minimal) (hv : v ∈ full ++ minimal)
    (huid : u.id ∈ r.selected.ids) (hvid : v.id ∈ r.selected.ids) (hne : u.id ≠ v.id) :
    u.span.Apart v.span := by
  rcases (hr.origin u.id huid).cases hpicked with
    ⟨a, ha, hau, hfroma⟩ | ⟨x, hx, us, p, hpu, hp⟩ <;>
  rcases (hr.origin v.id hvid).cases hpicked with
    ⟨b, hb, hbv, hfromb⟩ | ⟨y, hy, ws, q, hqv, hq⟩
  · rw [hc.span_of_id hu (mem_append_right _ ha) hau.symm,
      hc.span_of_id hv (mem_append_right _ hb) hbv.symm]
    exact hc.apart a ha b hb (hau ▸ hbv ▸ hne)
  · rw [hc.span_of_id hu (mem_append_right _ ha) hau.symm,
      hc.span_of_id hv (mem_append_left _ hq.whole.unit) hqv.symm]
    exact hq.apart hc hpicked hr hy ha (hfroma y hy hq.some)
  · rw [hc.span_of_id hu (mem_append_left _ hp.whole.unit) hpu.symm,
      hc.span_of_id hv (mem_append_right _ hb) hbv.symm]
    exact (hp.apart hc hpicked hr hx hb (hfromb x hx hp.some)).symm
  · rw [hc.span_of_id hu (mem_append_left _ hp.whole.unit) hpu.symm,
      hc.span_of_id hv (mem_append_left _ hq.whole.unit) hqv.symm]
    have hne' : p.id ≠ q.id := hpu ▸ hqv ▸ hne
    rcases hc.nested p hp.whole.unit q hq.whole.unit with hin | hin | hapart
    · exact absurd hin (hp.not_within hc hq hne')
    · exact absurd hin (hq.not_within hc hp hne'.symm)
    · exact hapart

/-- A selected unit was not omitted by a review. -/
theorem Reduced.not_omitted (hx : x ∈ reviewedScopes redact path full minimal first reviews)
    (hid : id ∈ r.selected.ids) : id ∉ x.2.omit_ := by
  intro homit
  obtain ⟨k, us, _, hscope⟩ := scope_group hx
  have hfirst := (groupScopes_scopeOf hscope).first id ((hr.accepted x hx).omits id homit)
  cases hr.origin id hid with
  | kept _ hkept _ => exact hkept x hx homit
  | added y hy _ haddable _ =>
    obtain ⟨k', ws, _, hscope'⟩ := scope_group hy
    exact ((groupScopes_scopeOf hscope').addable id haddable).1 hfirst
  | parent y hy hsome hparent =>
    -- a parent is not minimal, and what a review omits is
    obtain ⟨ws, p, rfl, hp⟩ := exists_replaced hy hsome hparent
    obtain ⟨v, hv, hvid, _⟩ := hpicked p.id hfirst
    have hgrouped := (reviewGroups_grouped redact path (first.map (·.unitId)) hc).1
    obtain ⟨u, hu, _⟩ := hp.whole.selects
    have hup : InGroup (reviewGroups redact path full minimal (first.map (·.unitId))) p.id u :=
      ⟨ws, hp.group, hu⟩
    rcases hgrouped.owner hup with hroot | ⟨p', hp', hid', hcontains, hne⟩
    · exact hc.not_root hp.whole.unit hroot
    · exact hc.parent_not_minimal hp' (hgrouped.minimal hup) (contains_iff.mp hcontains)
        hne.symm hv (hvid.trans hid'.symm)

end

end Disjoint

/-! ## The main result -/

section Main

/-- **WHAT IS PUBLISHED**: disjoint units that nothing omitted, exactly if every unit reviewed
    in chunks fits. -/
theorem published_iff_fits (md : Markdown) (redact : Text → Text) (source path : Text)
    (first : SelectionOutput) (reviews : List ValidatedReview)
    (out : List (SourceUnit × UnitSelection))
    (hoffered : Offered redact path (minimalSelectionUnits md source) first)
    (hout : reducePlan (sourceUnits md source) (minimalSelectionUnits md source) first
      (buildPlan redact path (sourceUnits md source) (minimalSelectionUnits md source) first)
      reviews = .ok out) :
    Published (sourceUnits md source) (minimalSelectionUnits md source)
        (buildPlan redact path (sourceUnits md source) (minimalSelectionUnits md source) first)
        reviews out ↔
      EachFits redact path (sourceUnits md source) (minimalSelectionUnits md source) first := by
  have hc := candidates_of_source md source
  have hpicked := hoffered.picked
  obtain ⟨r, hr, hlen, hcov, hids, hunits⟩ := reducePlan_ok hout
  have hsel : ∀ x ∈ out, x.1.id ∈ r.selected.ids :=
    fun x hx => hids.mem_iff.mp (mem_map_of_mem hx)
  rw [← omittedSelected_nil_iff hc hpicked]
  constructor
  · intro hpub
    by_contra hne
    obtain ⟨id, hid⟩ := exists_mem_of_ne_nil _ hne
    have hin := hids.mem_iff.mpr (omitted_selected hr hcov hid)
    obtain ⟨x, hx, rfl⟩ := mem_map.mp hin
    exact hpub.planned x hx hid
  · intro hnil
    have hnodup : (out.map (·.1.id)).Nodup :=
      hids.nodup_iff.mpr (hr.keyed.sorted.imp fun hlt => ne_of_lt hlt)
    refine ⟨?_, fun x hx => mem_append.mp (hunits x hx), ?_, ?_⟩
    · refine (pairwise_map.mp hnodup).imp_of_mem fun {x y} hx hy hne => ?_
      exact hr.apart hc hpicked (hunits x hx) (hunits y hy) (hsel x hx) (hsel y hy) hne
    · intro x hx review hreview
      obtain ⟨y, hy, rfl⟩ : ∃ y ∈ reviewedScopes redact path (sourceUnits md source)
          (minimalSelectionUnits md source) first reviews, y.2 = review := by
        rw [← mem_map]
        show review ∈ (List.zip _ reviews).map Prod.snd
        rw [map_snd_zip (hlen.ge)]
        exact hreview
      exact hr.not_omitted hc hpicked hy (hsel x hx)
    · intro x _ hmem
      rw [hnil] at hmem
      cases hmem

end Main

/-! ## A parent that replaces its sections, and a scope of sections without a parent -/

def nestedNote : Text := "# A\na\n## B\nb\n# C\nc\n# D\nd\n".toList

def nestedMarkdown : Markdown :=
  .only nestedNote ⟨none, [⟨1, 1, "A".toList⟩, ⟨2, 3, "B".toList⟩, ⟨1, 5, "C".toList⟩,
    ⟨1, 7, "D".toList⟩], [(1, 1), (3, 3), (5, 5), (7, 7)]⟩
    (by decide) (by decide) (by decide +kernel) rfl

/-- The reviews take the outer section instead of the first, and `D` instead of `C`. -/
def nestedFirst : SelectionOutput := [⟨"u:6:13".toList, none, []⟩, ⟨"u:13:19".toList, none, []⟩]

def nestedPlan : ReviewPlan :=
  buildPlan id "a.md".toList (sourceUnits nestedMarkdown nestedNote)
    (minimalSelectionUnits nestedMarkdown nestedNote) nestedFirst

def nestedReviews : List ValidatedReview :=
  [⟨[], [], some ⟨"u:0:13".toList, none, []⟩, []⟩,
    ⟨[], [⟨"u:19:25".toList, none, []⟩], none, ["u:13:19".toList]⟩]

def nestedDecision (scope : ReviewScope) (review : ValidatedReview) : ReviewDecision :=
  ⟨scope.id, review.keep, review.additions, review.replaceParent, review.omit_⟩

theorem nested_offered : Offered id "a.md".toList (minimalSelectionUnits nestedMarkdown nestedNote)
    nestedFirst :=
  offered_of_skipReason (by decide +kernel)

theorem nested_fits : EachFits id "a.md".toList (sourceUnits nestedMarkdown nestedNote)
    (minimalSelectionUnits nestedMarkdown nestedNote) nestedFirst :=
  (omittedSelected_nil_iff (candidates_of_source _ _) nested_offered.picked).mp (by decide +kernel)

theorem published_iff_fits_nested :
    nestedPlan.scopes.map (·.parentUnitId) = [some "u:0:13".toList, none] ∧
    List.zipWith (fun scope review => validate scope [nestedDecision scope review])
      nestedPlan.scopes nestedReviews = nestedReviews.map .ok ∧
    ∃ out, out.map (·.1.id) = ["u:0:13".toList, "u:19:25".toList] ∧
      Published (sourceUnits nestedMarkdown nestedNote)
        (minimalSelectionUnits nestedMarkdown nestedNote) nestedPlan nestedReviews out := by
  refine ⟨by decide +kernel, by decide +kernel, ?_⟩
  have hids : (reducePlan (sourceUnits nestedMarkdown nestedNote)
      (minimalSelectionUnits nestedMarkdown nestedNote) nestedFirst nestedPlan
      nestedReviews).map (fun out => out.map (·.1.id)) =
      .ok ["u:0:13".toList, "u:19:25".toList] := by
    decide +kernel
  cases hout : reducePlan (sourceUnits nestedMarkdown nestedNote)
      (minimalSelectionUnits nestedMarkdown nestedNote) nestedFirst nestedPlan nestedReviews with
  | error e =>
    rw [hout] at hids
    cases hids
  | ok out =>
    rw [hout] at hids
    exact ⟨out, Except.ok.inj hids,
      (published_iff_fits nestedMarkdown id nestedNote "a.md".toList nestedFirst nestedReviews
        out nested_offered hout).mpr nested_fits⟩

/-! ## A section that is omitted and published

The text is long, so its sizes are worked out from its parts. -/

/-- Two sections, the first of them with a long line. -/
def longNote (filler : Text) : Text := "# A\n".toList ++ (filler ++ "\n# B\nb\n".toList)

def longOutline : Document :=
  ⟨none, [⟨1, 1, "A".toList⟩, ⟨1, 3, "B".toList⟩], [(1, 1), (3, 3)]⟩

def longUnit (filler : Text) : SourceUnit where
  id := unitId 0 (filler.length + 5)
  headings := ["A".toList]
  body := ⟨0, filler.length + 5, 1, 2, "# A\n".toList ++ (filler ++ ['\n'])⟩
  context := []

def shortUnit (filler : Text) : SourceUnit where
  id := unitId (filler.length + 5) (filler.length + 11)
  headings := ["B".toList]
  body := ⟨filler.length + 5, filler.length + 11, 3, 4, "# B\nb\n".toList⟩
  context := []

section Long
variable {filler : Text} (hplain : ∀ c ∈ filler, c = 'x')
include hplain

theorem lineStartsFrom_plain (rest : Text) : ∀ offset, lineStartsFrom offset (filler ++ rest) =
      lineStartsFrom (offset + filler.length) rest := by
  induction filler with
  | nil => exact fun _ => rfl
  | cons c filler ih =>
    intro offset
    obtain ⟨rfl, hrest⟩ := forall_mem_cons.mp hplain
    show lineStartsFrom (offset + 1) (filler ++ rest) = _
    rw [ih hrest, length_cons]
    congr 1
    omega

theorem byteLen_plain : byteLen filler = filler.length := by
  induction filler with
  | nil => rfl
  | cons c filler ih =>
    obtain ⟨rfl, hrest⟩ := forall_mem_cons.mp hplain
    rw [byteLen_cons, ih hrest, Nat.add_comm]
    rfl

theorem longNote_lineStarts : lineStarts (longNote filler) =
    [0, 4, filler.length + 5, filler.length + 9, filler.length + 11] := by
  show 0 :: 4 :: lineStartsFrom 4 (filler ++ _) = _
  rw [lineStartsFrom_plain hplain, Nat.add_comm 4]
  rfl

theorem longNote_byteLen : byteLen (longNote filler) = filler.length + 11 := by
  unfold longNote
  rw [byteLen_append, byteLen_append, byteLen_plain hplain]
  show 4 + (filler.length + 7) = _
  omega

theorem longNote_inside : ∀ h ∈ longOutline.headings,
    lineOffset (lineStarts (longNote filler)) (byteLen (longNote filler)) h.startLine <
      byteLen (longNote filler) := by
  rw [longNote_lineStarts hplain, longNote_byteLen hplain]
  intro h hh
  rcases mem_cons.mp hh with rfl | hh
  · exact Nat.succ_pos _
  · obtain rfl := mem_singleton.mp hh
    show filler.length + 5 < filler.length + 11
    omega

/-- The parser, as far as it matters here. -/
def longMarkdown : Markdown :=
  .only (longNote filler) longOutline (by decide) (by decide) (longNote_inside hplain) rfl

theorem longMarkdown_parse : (longMarkdown hplain).parse (longNote filler) = longOutline :=
  if_pos rfl

theorem longNote_headings : documentHeadings (longMarkdown hplain) (longNote filler) =
    [⟨⟨1, 0⟩, "A".toList⟩, ⟨⟨1, filler.length + 5⟩, "B".toList⟩] := by
  unfold documentHeadings
  rw [longMarkdown_parse, longNote_lineStarts hplain]
  rfl

theorem longNote_slices :
    slice (longNote filler) 0 (filler.length + 5) = "# A\n".toList ++ (filler ++ ['\n']) ∧
    slice (longNote filler) (filler.length + 5) (filler.length + 11) = "# B\nb\n".toList := by
  have hlen : byteLen ("# A\n".toList ++ (filler ++ ['\n'])) = filler.length + 5 := by
    rw [byteLen_append, byteLen_append, byteLen_plain hplain]
    show 4 + (filler.length + 1) = _
    omega
  have hsplit : longNote filler =
      ("# A\n".toList ++ (filler ++ ['\n'])) ++ ("# B\nb\n".toList ++ []) := by
    simp [longNote]
  rw [hsplit]
  exact ⟨slice_append [] _ _ rfl ((Nat.zero_add _).trans hlen),
    slice_append _ _ [] hlen (by rw [hlen]; rfl)⟩

theorem longNote_units : sourceUnits (longMarkdown hplain) (longNote filler) =
    [longUnit filler, shortUnit filler] := by
  have hstart : contentStart (longMarkdown hplain) (longNote filler) = 0 := by
    unfold contentStart
    rw [longMarkdown_parse]
    rfl
  have hend : introEnd (longMarkdown hplain) (longNote filler) = 0 := by
    unfold introEnd headingMarks
    rw [longNote_headings]
    rfl
  have hintro : hasIntro (longMarkdown hplain) (longNote filler) = false := by
    unfold hasIntro
    rw [hstart, hend]
    rfl
  obtain ⟨hlong, hshort⟩ := longNote_slices hplain
  unfold sourceUnits
  rw [longNote_headings]
  simp only [sectionUnits, hintro, longNote_byteLen hplain, longNote_lineStarts hplain]
  simp [makeUnit, sourceSpan, Outline.sectionEnd, hlong, hshort, longUnit, shortUnit]

theorem longNote_minimal : minimalSelectionUnits (longMarkdown hplain) (longNote filler) =
    [longUnit filler, shortUnit filler] := by
  unfold minimalSelectionUnits
  rw [longNote_units]
  have hfirst : ∀ u ∈ [longUnit filler, shortUnit filler],
      firstChildStart [longUnit filler, shortUnit filler] u = none := by
    simp [firstChildStart, containsLater, longUnit, shortUnit]
  have hleaf : ∀ u ∈ [longUnit filler, shortUnit filler],
      minimalUnit (longMarkdown hplain) (longNote filler) [longUnit filler, shortUnit filler] u =
        some u := by
    intro u hu
    unfold minimalUnit
    rw [hfirst u hu]
    simp
  rw [filterMap_congr hleaf]
  simp

theorem plain_escaped : filler.flatMap escapeChar = filler := by
  induction filler with
  | nil => rfl
  | cons c filler ih =>
    obtain ⟨rfl, hrest⟩ := forall_mem_cons.mp hplain
    rw [flatMap_cons, ih hrest]
    rfl

theorem longUnit_content : byteLen (jsonString (longUnit filler).body.text) = filler.length + 9 := by
  show byteLen (jsonString ("# A\n".toList ++ (filler ++ ['\n']))) = _
  unfold jsonString
  rw [flatMap_append, flatMap_append, plain_escaped hplain, byteLen_append,
    byteLen_cons, byteLen_append, byteLen_append, byteLen_plain hplain]
  show 1 + (5 + (filler.length + 2)) + 1 = _
  omega

variable (hlen : filler.length = 61200)

include hlen

omit hplain in
theorem longUnit_id : (longUnit filler).id = unitId 0 61205 := by
  show unitId 0 (filler.length + 5) = _
  rw [hlen]

theorem longUnit_json : byteLen (unitJson (longUnit filler)) = 61277 := by
  unfold unitJson jsonObject
  simp only [map_cons, intercalate_cons_cons,
    byteLen_append, byteLen_cons, longUnit_content hplain]
  simp only [longUnit, hlen]
  decide +kernel

theorem longUnit_offered : skipReason id "a.md".toList (longUnit filler) = none := by
  have htext : byteLen (longUnit filler).completeText = 61205 := by
    show byteLen ("# A\n".toList ++ (filler ++ ['\n'])) = _
    rw [byteLen_append, byteLen_append, byteLen_plain hplain, hlen]
    decide
  have hinput : byteLen (selectionInput [longUnit filler] "a.md".toList) = 61310 := by
    unfold selectionInput jsonObject jsonArray
    simp only [map_cons, map_nil, intercalate_cons_cons, intercalate_singleton,
      byteLen_append, byteLen_cons, longUnit_json hplain hlen]
    decide +kernel
  unfold skipReason safe
  rw [htext, hinput]
  simp

/-- Alone the unit is over the review's limit. -/
theorem longUnit_not_fits : fits id "a.md".toList (chunkScope [(longUnit filler).id] "virtual-root".toList 0
      [longUnit filler]) = false := by
  have hid := longUnit_id hlen
  have hselected : [longUnit filler].filter (fun u => decide (u.id ∈ [unitId 0 61205])) =
      [longUnit filler] := by
    simp [hid]
  have hothers : [longUnit filler].filter (fun u => decide (u.id ∉ [unitId 0 61205]) &&
      decide ((none : Option SourceUnit).map (·.id) ≠ some u.id)) = [] := by
    simp [hid]
  have hjson : byteLen (scopeJson "a.md".toList (chunkScope [(longUnit filler).id]
      "virtual-root".toList 0 [longUnit filler])) = 61540 := by
    unfold scopeJson chunkScope makeScope jsonObject
    rw [hid, hselected, hothers]
    simp only [map_cons, map_nil, intercalate_cons_cons, intercalate_singleton,
      byteLen_append, byteLen_cons, jsonArray, longUnit_json hplain hlen, hid]
    decide +kernel
  have herror : input id "a.md".toList (chunkScope [(longUnit filler).id]
      "virtual-root".toList 0 [longUnit filler]) =
      .error (.invalidInput "memory_selection_review_scope_too_large") := by
    unfold input
    rw [hjson, if_neg, if_pos]
    · exact .inr (by decide)
    · rw [Bool.not_eq_true]
      exact any_eq_false.mpr fun u _ => by simp [safe]
  unfold fits
  rw [herror]
  exact Bool.and_false _

omit hplain in
theorem shortUnit_fits : fits id "a.md".toList (chunkScope [(longUnit filler).id] "virtual-root".toList 0
      [shortUnit filler]) := by
  rw [longUnit_id hlen]
  unfold shortUnit
  rw [hlen]
  decide +kernel

end Long

section Pair

variable {redact : Text → Text} {path k : Text} {a b : SourceUnit} {item : UnitSelection}

section Plan

variable (hne : a.id ≠ b.id) (hab : contains a b = false) (hba : contains b a = false)
  (hroot : a.id ≠ k ∧ b.id ≠ k)
  (hsafe : safe redact a ∧ safe redact b)
  (hlong : fits redact path (chunkScope [a.id] k 0 [a]) = false)
  (hshort : fits redact path (chunkScope [a.id] k 0 [b]))

include hab hba in
/-- Two sections are a group without a parent. -/
theorem pair_groups {selected : List Text} :
    reviewGroups redact path [a, b] [a, b] selected = [("virtual-root".toList, [a, b])] := by
  have hparents : parentAssignment redact path [a, b] [a, b] selected = ⟨[], []⟩ := by
    unfold parentAssignment
    simp only [insertionSort_cons, insertionSort_nil, List.orderedInsert]
    split_ifs <;> simp [assignParent, hab, hba]
  have hroot : ∀ u, u = a ∨ u = b → ownerOf [a, b] u = "virtual-root".toList := by
    rintro u (rfl | rfl)
    · simp [ownerOf, hba]
    · simp [ownerOf, hab]
  unfold reviewGroups
  rw [hparents]
  simp [hroot, Groups.push, upsert]

include hroot hsafe in
theorem pair_review : groupReview redact path [a, b] [a, b] [a.id] k [a, b] = .chunked [a, b] := by
  have hparent : [a, b].find? (fun u => decide (u.id = k)) = none := by
    simp [hroot.1, hroot.2]
  have hunits : [a, b].filter (safe redact) = [a, b] := by
    simp [hsafe.1, hsafe.2]
  have hfirst : groupFirst [a.id] [a, b] ≠ [] := by
    simp [groupFirst]
  unfold groupReview
  simp only [hparent, hunits]
  rw [if_neg hfirst, if_neg (fun h => absurd h.1 (by simp))]
  rfl

include hlong hshort in
theorem pair_chunks : chunks redact path [a.id] k [a, b] = ⟨[], [b], 0, [a.id]⟩ := by
  have ha : Chunking.push redact path [a.id] k ⟨[], [], 0, []⟩ a = ⟨[], [], 0, [a.id]⟩ := by
    unfold Chunking.push Chunking.nextIndex Chunking.close
    simp [hlong]
  have hb : Chunking.push redact path [a.id] k ⟨[], [], 0, [a.id]⟩ b = ⟨[], [b], 0, [a.id]⟩ := by
    unfold Chunking.push
    simp [hshort]
  rw [chunks, foldl_cons, ha, foldl_cons, hb, foldl_nil]

include hne hroot hsafe hlong hshort

/-- What fits no review input is omitted. -/
theorem pair_plan : planGroup redact path [a, b] [a, b] [a.id] ⟨[], [], []⟩
    (k, [a, b]) = ⟨[], [a.id, a.id], []⟩ := by
  have hfirst : groupFirst [a.id] [a, b] = [a.id] := by
    simp [groupFirst, hne.symm]
  have hnone : (chunkScope [a.id] k 0 [b]).firstSelected = [] := by
    show groupFirst [a.id] [b] = []
    simp [groupFirst, hne.symm]
  unfold planGroup
  simp only [pair_review hroot hsafe, pair_chunks hlong hshort, hfirst, Chunking.close, hnone]
  rfl

include hab hba

theorem pair_buildPlan (hk : k = "virtual-root".toList) (hitem : item.unitId = a.id) :
    buildPlan redact path [a, b] [a, b] [item] = ⟨[], [a.id],
      [⟨a.id, "review_input_unavailable_or_too_large".toList⟩], []⟩ := by
  have hplan := pair_plan hne hroot hsafe hlong hshort
  rw [hk] at hplan
  unfold buildPlan
  simp only [map_cons, map_nil, hitem, pair_groups hab hba, foldl_cons, foldl_nil, hplan]
  have hleft : sortDedup ([a.id, a.id] ++ [a.id].filter fun id =>
      decide (id ∉ ([] : List ReviewScope).flatMap (·.firstSelected)) &&
        decide (id ∉ [a.id, a.id]) && decide (id ∉ ([] : List Text))) = [a.id] := by
    simp [sortDedup]
  rw [hleft]
  rfl

end Plan

/-- With no scope, only the omitted unit comes out. -/
theorem pair_reducePlan (hitem : item.unitId = a.id) {omissions : List ReviewOmission} :
    reducePlan [a, b] [a, b] [item] ⟨[], [a.id], omissions, []⟩ [] = .ok [(a, item)] := by
  have hresolve : resolve [a, b] [a, b] item = .ok (a, item) := by
    simp [resolve, hitem]
  have hcov : coverage [a.id] [] [a.id] [] := by
    simp [coverage]
  simp [reducePlan, reduceScopes, hitem, hcov, Selected.insert, upsert, hresolve, bind, Except.bind,
    pure, Except.pure]

end Pair

/-- It makes a section too long for a review. -/
def longLine : Text := List.replicate 61200 'x'

theorem longLine_plain : ∀ c ∈ longLine, c = 'x' := fun _ hc => eq_of_mem_replicate hc

def longItem : UnitSelection := ⟨(longUnit longLine).id, none, []⟩

theorem oversized_published : Offered id "a.md".toList
      (minimalSelectionUnits (longMarkdown longLine_plain) (longNote longLine)) [longItem] ∧
    (buildPlan id "a.md".toList (sourceUnits (longMarkdown longLine_plain) (longNote longLine))
      (minimalSelectionUnits (longMarkdown longLine_plain) (longNote longLine))
      [longItem]).omittedSelected = [(longUnit longLine).id] ∧
    reducePlan (sourceUnits (longMarkdown longLine_plain) (longNote longLine))
      (minimalSelectionUnits (longMarkdown longLine_plain) (longNote longLine)) [longItem]
      (buildPlan id "a.md".toList (sourceUnits (longMarkdown longLine_plain) (longNote longLine))
        (minimalSelectionUnits (longMarkdown longLine_plain) (longNote longLine)) [longItem]) [] =
      .ok [(longUnit longLine, longItem)] ∧
    ¬ Published (sourceUnits (longMarkdown longLine_plain) (longNote longLine))
      (minimalSelectionUnits (longMarkdown longLine_plain) (longNote longLine))
      (buildPlan id "a.md".toList (sourceUnits (longMarkdown longLine_plain) (longNote longLine))
        (minimalSelectionUnits (longMarkdown longLine_plain) (longNote longLine)) [longItem]) []
      [(longUnit longLine, longItem)] := by
  have hlen : longLine.length = 61200 := length_replicate
  rw [longNote_units, longNote_minimal]
  have hne : (longUnit longLine).id ≠ (shortUnit longLine).id := by
    intro heq
    have hstart := (unitId_injective heq).1
    rw [hlen] at hstart
    exact absurd hstart (by decide)
  have hab : contains (longUnit longLine) (shortUnit longLine) = false := by
    simp [contains, longUnit, shortUnit]
  have hba : contains (shortUnit longLine) (longUnit longLine) = false := by
    simp [contains, longUnit, shortUnit]
  have hroot : ∀ i j, unitId i j ≠ "virtual-root".toList := by
    intro i j heq
    exact absurd (List.cons.inj heq).1 (by decide)
  have hitem : longItem.unitId = (longUnit longLine).id := rfl
  have hsafe : ∀ u, safe id u := fun _ => decide_eq_true rfl
  have hplan := pair_buildPlan hne hab hba ⟨hroot _ _, hroot _ _⟩ ⟨hsafe _, hsafe _⟩
    (longUnit_not_fits longLine_plain hlen) (shortUnit_fits hlen) rfl hitem
  refine ⟨?_, ?_, ?_, ?_⟩
  · refine offered_of_skipReason fun item hmem => ?_
    obtain rfl := mem_singleton.mp hmem
    exact ⟨longUnit longLine, mem_cons_self, rfl, longUnit_offered longLine_plain hlen⟩
  · rw [hplan]
  · rw [hplan]
    exact pair_reducePlan rfl
  · intro hpub
    rw [hplan] at hpub
    exact hpub.planned _ (mem_singleton.mpr rfl) (mem_singleton.mpr rfl)

end MemoryReview
