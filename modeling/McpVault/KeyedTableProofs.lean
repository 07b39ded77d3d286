import Mathlib

/-! # Keyed tables — rows in the order of insertion, one for each key

The key of a row is apart from its data, so `modify` is total and only `insert` can fail.  Every
operation has one equation about `get`, and the list of rows matters only where a query reads
them in order. -/

namespace KeyedTable

open List

/-- The rows of a table, with its primary key. -/
structure Keyed (κ δ : Type) where
  rows : List (κ × δ)
  keyed : (rows.map Prod.fst).Nodup

variable {κ δ : Type}

/-- A new key after the others. -/
theorem nodup_concat {rows : List (κ × δ)} {k : κ} (d : δ) (h : (rows.map Prod.fst).Nodup)
    (hk : k ∉ rows.map Prod.fst) : ((rows ++ [(k, d)]).map Prod.fst).Nodup := by
  rw [map_append]
  refine nodup_append.mpr ⟨h, nodup_singleton k, ?_⟩
  intro a ha b hb hab
  obtain rfl : b = k := mem_singleton.mp hb
  exact hk (hab ▸ ha)

/-- No row. -/
def Keyed.empty : Keyed κ δ := ⟨[], nodup_nil⟩

/-- `UPDATE`: every row is rewritten under its own key. -/
def Keyed.modify (t : Keyed κ δ) (f : κ → δ → δ) : Keyed κ δ where
  rows := t.rows.map fun r => (r.1, f r.1 r.2)
  keyed := by
    rw [map_map]
    exact t.keyed

/-- `UPDATE … SET f WHERE w`. -/
def Keyed.update (t : Keyed κ δ) (w : κ → δ → Bool) (f : δ → δ) : Keyed κ δ :=
  t.modify fun k d => if w k d then f d else d

/-- `SELECT … WHERE w`, in the order of insertion. -/
def Keyed.select (t : Keyed κ δ) (w : κ → δ → Bool) : List (κ × δ) :=
  t.rows.filter fun r => w r.1 r.2

variable [DecidableEq κ]

/-- The row of a key. -/
def Keyed.get (t : Keyed κ δ) (k : κ) : Option δ :=
  (t.rows.find? fun r => decide (r.1 = k)).map Prod.snd

/-- `UPDATE … WHERE key = k`. -/
def Keyed.set (t : Keyed κ δ) (k : κ) (f : δ → δ) : Keyed κ δ :=
  t.update (fun k' _ => decide (k' = k)) f

/-- `INSERT`: none if the key is taken. -/
def Keyed.insert (t : Keyed κ δ) (k : κ) (d : δ) : Option (Keyed κ δ) :=
  if h : k ∈ t.rows.map Prod.fst then none
  else some ⟨t.rows ++ [(k, d)], nodup_concat d t.keyed h⟩

/-! ## The row of a key -/

variable {t t' : Keyed κ δ} {k k' : κ} {d d' : δ}

theorem Keyed.get_eq_some_iff : t.get k = some d ↔ (k, d) ∈ t.rows := by
  unfold Keyed.get
  constructor
  · intro h
    obtain ⟨⟨k', d'⟩, hfind, rfl⟩ := Option.map_eq_some_iff.mp h
    have hk : k' = k := by simpa using List.find?_some hfind
    rw [← hk]
    exact mem_of_find?_eq_some hfind
  · intro h
    obtain ⟨r, hfind⟩ : ∃ r, t.rows.find? (fun r => decide (r.1 = k)) = some r :=
      Option.isSome_iff_exists.mp
        (List.find?_isSome.mpr ⟨(k, d), h, decide_eq_true rfl⟩)
    have hk : r.1 = k := by simpa using List.find?_some hfind
    have hr : r = (k, d) :=
      inj_on_of_nodup_map t.keyed (mem_of_find?_eq_some hfind) h hk
    rw [hfind, hr]
    rfl

theorem Keyed.get_eq_none_iff : t.get k = none ↔ k ∉ t.rows.map Prod.fst := by
  rw [Option.eq_none_iff_forall_ne_some]
  constructor
  · intro h hk
    obtain ⟨⟨k', d⟩, hr, rfl⟩ := mem_map.mp hk
    exact h d (Keyed.get_eq_some_iff.mpr hr)
  · intro h d hd
    exact h (mem_map.mpr ⟨(k, d), Keyed.get_eq_some_iff.mp hd, rfl⟩)

@[simp] theorem Keyed.get_empty : (Keyed.empty : Keyed κ δ).get k = none := rfl

theorem Keyed.get_of_empty {t : Keyed κ δ} {d : δ} (h : t = .empty) (hd : t.get k = some d) :
    False := by
  rw [h] at hd
  cases hd

/-- Two tables with the same rows are the same. -/
theorem Keyed.ext_rows {κ δ : Type} {t t' : Keyed κ δ} (h : t.rows = t'.rows) : t = t' := by
  cases t
  cases t'
  cases h
  rfl

/-! ## What a statement does to the row of a key -/

@[simp] theorem Keyed.get_modify (f : κ → δ → δ) : (t.modify f).get k = (t.get k).map (f k) := by
  cases h : t.get k with
  | none =>
    rw [Keyed.get_eq_none_iff] at h
    refine Keyed.get_eq_none_iff.mpr ?_
    unfold Keyed.modify
    rw [map_map]
    exact h
  | some d =>
    refine Keyed.get_eq_some_iff.mpr ?_
    exact mem_map.mpr ⟨(k, d), Keyed.get_eq_some_iff.mp h, rfl⟩

@[simp] theorem Keyed.get_update (w : κ → δ → Bool) (f : δ → δ) :
    (t.update w f).get k = (t.get k).map fun d => if w k d then f d else d :=
  Keyed.get_modify _

theorem Keyed.get_set (f : δ → δ) :
    (t.set k' f).get k = if k = k' then (t.get k).map f else t.get k := by
  unfold Keyed.set
  by_cases hk : k = k'
  · simp [hk]
  · simp [hk]

theorem Keyed.get_set_ne (f : δ → δ) (h : k ≠ k') : (t.set k' f).get k = t.get k := by
  rw [Keyed.get_set, if_neg h]

/-- Two changes of one row. -/
theorem Keyed.set_set (f g : δ → δ) : (t.set k f).set k g = t.set k (g ∘ f) := by
  refine Keyed.ext_rows ?_
  show ((t.rows.map _).map _) = t.rows.map _
  rw [map_map]
  refine map_congr_left fun r _ => ?_
  by_cases hk : r.1 = k
  · simp [hk]
  · simp [hk]

theorem Keyed.insert_eq_some_iff :
    t.insert k d = some t' ↔ t.get k = none ∧ t'.rows = t.rows ++ [(k, d)] := by
  unfold Keyed.insert
  by_cases hk : k ∈ t.rows.map Prod.fst
  · rw [dif_pos hk]
    constructor
    · exact nofun
    · rintro ⟨hnone, -⟩
      exact absurd hk (Keyed.get_eq_none_iff.mp hnone)
  · rw [dif_neg hk]
    constructor
    · intro h
      cases h
      exact ⟨Keyed.get_eq_none_iff.mpr hk, rfl⟩
    · rintro ⟨-, hrows⟩
      exact congrArg some (Keyed.ext_rows hrows.symm)

theorem Keyed.insert_rows (h : t.insert k d = some t') : t'.rows = t.rows ++ [(k, d)] :=
  (Keyed.insert_eq_some_iff.mp h).2

theorem Keyed.get_none_of_insert (h : t.insert k d = some t') : t.get k = none :=
  (Keyed.insert_eq_some_iff.mp h).1

theorem Keyed.get_insert (h : t.insert k' d' = some t') :
    t'.get k = if k = k' then some d' else t.get k := by
  have hrows := Keyed.insert_rows h
  by_cases hk : k = k'
  · rw [if_pos hk, Keyed.get_eq_some_iff, hrows, hk]
    exact mem_append_right _ (mem_singleton.mpr rfl)
  · rw [if_neg hk]
    refine Option.ext fun d => ?_
    rw [Keyed.get_eq_some_iff, Keyed.get_eq_some_iff, hrows, mem_append]
    constructor
    · rintro (hold | hnew)
      · exact hold
      · exact absurd (congrArg Prod.fst (mem_singleton.mp hnew)) hk
    · exact fun hold => .inl hold

/-- Changing what was just inserted. -/
theorem Keyed.insert_set (h : t.insert k d = some t') (f : δ → δ) :
    t.insert k (f d) = some (t'.set k f) := by
  obtain ⟨hnone, hrows⟩ := Keyed.insert_eq_some_iff.mp h
  refine Keyed.insert_eq_some_iff.mpr ⟨hnone, ?_⟩
  show (t'.rows.map fun r => (r.1, if decide (r.1 = k) then f r.2 else r.2)) = _
  rw [hrows, map_append]
  congr 1
  · -- no older row has the key
    refine (map_congr_left ?_).trans (map_id _)
    rintro ⟨k', d'⟩ hr
    have hne : k' ≠ k := by
      rintro rfl
      exact Keyed.get_eq_none_iff.mp hnone (mem_map_of_mem hr)
    simp [hne]
  · simp

/-- A row that was there is there after an insertion. -/
theorem Keyed.get_insert_of_some (h : t.insert k' d' = some t') (hd : t.get k = some d) :
    t'.get k = some d := by
  rw [Keyed.get_insert h]
  by_cases hk : k = k'
  · rw [hk, Keyed.get_none_of_insert h] at hd
    cases hd
  · rw [if_neg hk]
    exact hd

/-- A row after an insertion is the new one or was there. -/
theorem Keyed.get_of_insert (h : t.insert k' d' = some t') (hd : t'.get k = some d) :
    k = k' ∧ d = d' ∨ t.get k = some d := by
  rw [Keyed.get_insert h] at hd
  by_cases hk : k = k'
  · rw [if_pos hk] at hd
    exact .inl ⟨hk, (Option.some.inj hd).symm⟩
  · rw [if_neg hk] at hd
    exact .inr hd

/-- A key whose row is kept is still there. -/
theorem Keyed.isSome_kept (h : ∀ d, t.get k = some d → t'.get k = some d)
    (hsome : (t.get k).isSome) : (t'.get k).isSome := by
  obtain ⟨d, hd⟩ := Option.isSome_iff_exists.mp hsome
  rw [h d hd]
  rfl

/-! ## Tables that only grow -/

/-- `t'` has the rows of `t`, then new ones. -/
def Keyed.Appends {κ δ : Type} (t t' : Keyed κ δ) (P : κ → δ → Prop) : Prop :=
  ∃ new, t'.rows = t.rows ++ new ∧ ∀ r ∈ new, P r.1 r.2

theorem Keyed.Appends.refl {κ δ : Type} (t : Keyed κ δ) (P : κ → δ → Prop) : t.Appends t P :=
  ⟨[], (append_nil _).symm, nofun⟩

theorem Keyed.Appends.mono {κ δ : Type} {t t' : Keyed κ δ} {P Q : κ → δ → Prop}
    (h : t.Appends t' P) (hPQ : ∀ k d, P k d → Q k d) : t.Appends t' Q := by
  obtain ⟨new, hrows, hnew⟩ := h
  exact ⟨new, hrows, fun r hr => hPQ r.1 r.2 (hnew r hr)⟩

theorem Keyed.Appends.trans {κ δ : Type} {t t' t'' : Keyed κ δ} {P : κ → δ → Prop}
    (h : t.Appends t' P) (h' : t'.Appends t'' P) : t.Appends t'' P := by
  obtain ⟨new, hrows, hnew⟩ := h
  obtain ⟨new', hrows', hnew'⟩ := h'
  refine ⟨new ++ new', by rw [hrows', hrows, append_assoc], ?_⟩
  intro r hr
  rcases mem_append.mp hr with hr | hr
  · exact hnew r hr
  · exact hnew' r hr

variable {P : κ → δ → Prop}

theorem Keyed.Appends.of_insert (h : t.insert k d = some t') (hP : P k d) : t.Appends t' P := by
  refine ⟨[(k, d)], Keyed.insert_rows h, ?_⟩
  intro r hr
  obtain rfl := mem_singleton.mp hr
  exact hP

theorem Keyed.Appends.get_kept (h : t.Appends t' P) (hd : t.get k = some d) :
    t'.get k = some d := by
  obtain ⟨new, hrows, -⟩ := h
  rw [Keyed.get_eq_some_iff, hrows]
  exact mem_append_left new (Keyed.get_eq_some_iff.mp hd)

/-- A row is an old one or a new one. -/
theorem Keyed.Appends.get_cases (h : t.Appends t' P) (hd : t'.get k = some d) :
    t.get k = some d ∨ P k d := by
  obtain ⟨new, hrows, hnew⟩ := h
  rw [Keyed.get_eq_some_iff, hrows] at hd
  rcases mem_append.mp hd with hd | hd
  · exact .inl (Keyed.get_eq_some_iff.mpr hd)
  · exact .inr (hnew (k, d) hd)

/-! ## Queries -/

theorem Keyed.mem_select {w : κ → δ → Bool} :
    (k, d) ∈ t.select w ↔ t.get k = some d ∧ w k d := by
  unfold Keyed.select
  rw [mem_filter, Keyed.get_eq_some_iff]

theorem Keyed.rows_modify {κ δ : Type} (t : Keyed κ δ) (f : κ → δ → δ) :
    (t.modify f).rows = t.rows.map fun r => (r.1, f r.1 r.2) := rfl

theorem Keyed.modify_id {κ δ : Type} (t : Keyed κ δ) : (t.modify fun _ d => d) = t :=
  Keyed.ext_rows (map_id' t.rows)

theorem Keyed.modify_modify {κ δ : Type} (t : Keyed κ δ) (f g : κ → δ → δ) :
    (t.modify f).modify g = t.modify fun k d => g k (f k d) := by
  refine Keyed.ext_rows ?_
  rw [rows_modify, rows_modify, rows_modify, map_map]
  rfl

theorem Keyed.update_eq {κ δ : Type} (t : Keyed κ δ) (w : κ → δ → Bool) (f : δ → δ) :
    t.update w f = t.modify fun k d => if w k d then f d else d := rfl

theorem Keyed.set_eq (t : Keyed κ δ) (k : κ) (f : δ → δ) :
    t.set k f = t.modify fun k' d => if k' = k then f d else d := by
  unfold Keyed.set Keyed.update
  simp only [decide_eq_true_eq]

/-- A join that is named by the key has no name twice. -/
theorem Keyed.nodup_join {κ δ β : Type} (t : Keyed κ δ) {f : κ × δ → Option β} {name : β → κ}
    (h : ∀ r b, f r = some b → name b = r.1) : ((t.rows.filterMap f).map name).Nodup := by
  have hsub : ((t.rows.filterMap f).map name).Sublist (t.rows.map Prod.fst) := by
    induction t.rows with
    | nil => exact List.Sublist.slnil
    | cons r rows ih =>
      cases hr : f r with
      | none =>
        rw [filterMap_cons_none hr]
        exact ih.cons r.1
      | some b =>
        rw [filterMap_cons_some hr, map_cons, h r b hr]
        exact ih.cons_cons r.1
  exact hsub.nodup t.keyed

/-! ## A limit before a filter

A query that cuts its rows at a limit and filters what is left returns less than the first rows
that pass the filter, unless these stand in front of all others. -/

section Limit

variable {α : Type} {p : α → Bool} {xs : List α}

/-- What passes stands in front. -/
def Foremost (p : α → Bool) (xs : List α) : Prop :=
  xs.Pairwise fun a b => p b → p a

theorem filter_take_of_foremost (h : Foremost p xs) (limit : Nat) :
    (xs.take limit).filter p = (xs.filter p).take limit := by
  induction xs generalizing limit with
  | nil => simp
  | cons x xs ih =>
    obtain ⟨hx, hxs⟩ := pairwise_cons.mp h
    cases limit with
    | zero => rfl
    | succ limit =>
      rw [take_succ_cons]
      cases hp : p x with
      | true =>
        rw [filter_cons_of_pos hp, filter_cons_of_pos hp, take_succ_cons, ih hxs limit]
      | false =>
        -- nothing behind passes either
        have hnone : ∀ y ∈ xs, p y ≠ true := by
          intro y hy hpy
          rw [hx y hy hpy] at hp
          cases hp
        have hne : ¬ p x := by simp [hp]
        rw [filter_cons_of_neg hne, filter_cons_of_neg hne,
          filter_eq_nil_iff.mpr hnone, take_nil, filter_eq_nil_iff]
        intro y hy
        exact hnone y (mem_of_mem_take hy)

theorem foremost_of_filter_eq_nil (h : xs.filter p = []) : Foremost p xs := by
  refine pairwise_of_forall_mem_list fun a _ b hb hpb => ?_
  exact absurd hpb (filter_eq_nil_iff.mp h b hb)

/-- Lists are equal if a telling column is. -/
theorem eq_of_map_eq {β γ : Type} {f : β → γ} {ys zs : List β}
    (hinj : ∀ y ∈ ys, ∀ z ∈ zs, f y = f z → y = z) (h : ys.map f = zs.map f) : ys = zs := by
  induction ys generalizing zs with
  | nil => exact (map_eq_nil_iff.mp h.symm).symm
  | cons y ys ih =>
    obtain ⟨z, zs, rfl, hz, hzs⟩ := map_eq_cons_iff.mp h.symm
    have hyz := hinj y mem_cons_self z mem_cons_self hz.symm
    rw [hyz, ih ?_ hzs.symm]
    intro y' hy' z' hz'
    exact hinj y' (mem_cons_of_mem y hy') z' (mem_cons_of_mem z hz')

/-- **A LIMIT BEFORE A FILTER** loses nothing exactly when the at most `n` passing rows stand in
    front. -/
theorem limit_before_filter_iff (hnodup : xs.Nodup) {n : Nat} :
    ((∀ limit, 1 ≤ limit → limit ≤ n → (xs.take limit).filter p = (xs.filter p).take limit) ∧
        ∀ x ∈ xs, p x → x ∈ xs.take n) ↔
      Foremost p xs ∧ (xs.filter p).length ≤ n := by
  constructor
  · rintro ⟨hlimit, hmem⟩
    induction xs generalizing n with
    | nil => exact ⟨List.Pairwise.nil, Nat.zero_le n⟩
    | cons x xs ih =>
      obtain ⟨hnot, hnodup⟩ := nodup_cons.mp hnodup
      cases n with
      | zero =>
        have hnil : (x :: xs).filter p = [] :=
          filter_eq_nil_iff.mpr fun y hy hpy => nomatch hmem y hy hpy
        exact ⟨foremost_of_filter_eq_nil hnil, by rw [hnil]; exact Nat.zero_le 0⟩
      | succ n =>
        cases hp : p x with
        | true =>
          have hrest : Foremost p xs ∧ (xs.filter p).length ≤ n := by
            refine ih hnodup ?_ ?_
            · intro limit _ hle
              have h := hlimit (limit + 1) (Nat.succ_pos _) (Nat.succ_le_succ hle)
              rw [take_succ_cons, filter_cons_of_pos hp, filter_cons_of_pos hp] at h
              exact tail_eq_of_cons_eq h
            · intro y hy hpy
              have h := hmem y (mem_cons_of_mem x hy) hpy
              rcases mem_cons.mp h with rfl | h
              · exact absurd hy hnot
              · exact h
          refine ⟨pairwise_cons.mpr ⟨fun _ _ _ => hp, hrest.1⟩, ?_⟩
          rw [filter_cons_of_pos hp, length_cons]
          exact Nat.succ_le_succ hrest.2
        | false =>
          have hne : ¬ p x := by simp [hp]
          have h := hlimit 1 (Nat.le_refl 1) (Nat.succ_pos n)
          rw [take_succ_cons, take_zero, filter_cons_of_neg hne, filter_nil] at h
          have hnil : (x :: xs).filter p = [] :=
            (take_eq_nil_iff.mp h.symm).resolve_left (Nat.succ_ne_zero 0)
          exact ⟨foremost_of_filter_eq_nil hnil, by rw [hnil]; exact Nat.zero_le _⟩
  · rintro ⟨hfront, hlength⟩
    refine ⟨fun limit _ _ => filter_take_of_foremost hfront limit, ?_⟩
    intro x hx hpx
    have h := filter_take_of_foremost hfront n
    rw [take_of_length_le hlength] at h
    have hin : x ∈ (xs.take n).filter p := h ▸ mem_filter.mpr ⟨hx, hpx⟩
    exact mem_of_mem_filter hin

end Limit

-- from here on a statement is known by its equations only
attribute [irreducible] Keyed.modify Keyed.update Keyed.set Keyed.insert Keyed.get

end KeyedTable
