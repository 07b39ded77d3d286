import Mathlib

/-! # Tables — rows, unique keys, and guarded statements

A table carries the proof that its constraints hold.  `UPDATE … WHERE` is a map over the rows and
`INSERT` an append; both fail as a whole when the result would break a constraint.  A row whose
key is `none` is outside a unique index. -/

namespace SqlTable

open List

variable {ρ κ : Type}

/-- The rows after `UPDATE … SET f WHERE w`. -/
def updateRows (w : ρ → Bool) (f : ρ → ρ) (rows : List ρ) : List ρ :=
  rows.map fun r => if w r then f r else r

/-- A unique index: no two indexed rows share their key. -/
def Unique (key : ρ → Option κ) (rows : List ρ) : Prop :=
  (rows.filterMap key).Nodup

instance [DecidableEq κ] (key : ρ → Option κ) (rows : List ρ) : Decidable (Unique key rows) :=
  inferInstanceAs (Decidable (rows.filterMap key).Nodup)

/-- The rows of a table, with its constraints. -/
structure Table (Ok : List ρ → Prop) where
  rows : List ρ
  ok : Ok rows

variable {Ok : List ρ → Prop} [DecidablePred Ok]

/-- The new table, or a constraint violation. -/
def Table.store (rows : List ρ) : Option (Table Ok) :=
  if h : Ok rows then some ⟨rows, h⟩ else none

/-- `INSERT`. -/
def Table.insert (t : Table Ok) (r : ρ) : Option (Table Ok) :=
  Table.store (t.rows ++ [r])

/-- `UPDATE … SET f WHERE w`. -/
def Table.update (t : Table Ok) (w : ρ → Bool) (f : ρ → ρ) : Option (Table Ok) :=
  Table.store (updateRows w f t.rows)

/-- The number of rows an `UPDATE … WHERE w` reports. -/
def Table.rowsAffected (t : Table Ok) (w : ρ → Bool) : Nat :=
  t.rows.countP w

/-! ## What a statement leaves behind -/

variable {rows : List ρ} {t t' : Table Ok}

theorem Table.store_eq_some (h : Table.store rows = some t) : t.rows = rows := by
  unfold Table.store at h
  by_cases hok : Ok rows
  · rw [dif_pos hok] at h
    cases h
    rfl
  · rw [dif_neg hok] at h
    cases h

theorem Table.store_of_ok (h : Ok rows) :
    Table.store rows = some (⟨rows, h⟩ : Table Ok) := dif_pos h

theorem Table.insert_rows {r : ρ} (h : t.insert r = some t') : t'.rows = t.rows ++ [r] :=
  Table.store_eq_some h

/-- Several `INSERT`s, up to the first that fails. -/
def Table.insertAll (t : Table Ok) (rows : List ρ) : Option (Table Ok) :=
  rows.foldlM Table.insert t

theorem Table.insertAll_rows (h : t.insertAll rows = some t') : t'.rows = t.rows ++ rows := by
  induction rows generalizing t with
  | nil =>
    cases h
    exact (append_nil _).symm
  | cons r rows ih =>
    obtain ⟨next, hinsert, hrest⟩ := Option.bind_eq_some_iff.mp h
    rw [ih hrest, Table.insert_rows hinsert, append_assoc, singleton_append]

/-- Rows that are allowed together are taken one by one. -/
theorem Table.insertAll_of_ok (hbefore : ∀ xs ys, Ok (xs ++ ys) → Ok xs)
    (h : Ok (t.rows ++ rows)) : ∃ t', t.insertAll rows = some t' := by
  induction rows generalizing t with
  | nil => exact ⟨t, rfl⟩
  | cons r rows ih =>
    have hsplit : t.rows ++ r :: rows = t.rows ++ [r] ++ rows := by
      rw [append_assoc, singleton_append]
    rw [hsplit] at h
    rw [Table.insertAll, foldlM_cons, Table.insert, Table.store_of_ok (hbefore _ _ h)]
    exact ih h

theorem Table.update_rows {w : ρ → Bool} {f : ρ → ρ} (h : t.update w f = some t') :
    t'.rows = updateRows w f t.rows :=
  Table.store_eq_some h

section Rows

variable {rows : List ρ} {w : ρ → Bool} {f : ρ → ρ} {r : ρ}

theorem mem_updateRows : r ∈ updateRows w f rows ↔
      ∃ q ∈ rows, (w q ∧ r = f q) ∨ (w q = false ∧ r = q) := by
  unfold updateRows
  rw [mem_map]
  constructor
  · rintro ⟨q, hq, rfl⟩
    refine ⟨q, hq, ?_⟩
    cases hw : w q with
    | true => exact .inl ⟨rfl, rfl⟩
    | false => exact .inr ⟨rfl, rfl⟩
  · rintro ⟨q, hq, ⟨hw, rfl⟩ | ⟨hw, rfl⟩⟩
    · exact ⟨q, hq, by rw [if_pos hw]⟩
    · exact ⟨r, hq, by rw [hw]; rfl⟩

/-- A row property that selected rows keep survives. -/
theorem forall_updateRows {P : ρ → Prop} (h : ∀ r ∈ rows, P r)
    (hf : ∀ r ∈ rows, w r → P r → P (f r)) : ∀ r ∈ updateRows w f rows, P r := by
  intro r hr
  obtain ⟨q, hq, ⟨hw, rfl⟩ | ⟨_, rfl⟩⟩ := mem_updateRows.mp hr
  · exact hf q hq hw (h q hq)
  · exact h r hq

/-- An update that selects no row changes nothing. -/
theorem updateRows_of_none (h : ∀ r ∈ rows, w r = false) : updateRows w f rows = rows := by
  conv => rhs; rw [← map_id rows]
  refine map_congr_left fun q hq => ?_
  rw [h q hq]
  rfl

variable {k : κ} {q : ρ} {key : ρ → Option κ}

/-- Updating leaves some of the keys, in order. -/
theorem filterMap_updateRows_sublist
    (hf : ∀ r ∈ rows, w r → key (f r) = key r ∨ key (f r) = none) :
    ((updateRows w f rows).filterMap key).Sublist (rows.filterMap key) := by
  induction rows with
  | nil => exact List.Sublist.slnil
  | cons q qs ih =>
    have ih' := ih fun r hr => hf r (mem_cons_of_mem q hr)
    have hhead : key (if w q then f q else q) = key q ∨
        key (if w q then f q else q) = none := by
      cases hw : w q with
      | true => exact hf q mem_cons_self hw
      | false => exact .inl rfl
    show (((if w q then f q else q) :: updateRows w f qs).filterMap key).Sublist _
    rcases hhead with hkey | hkey
    · cases hq : key q with
      | none =>
        rw [filterMap_cons_none (hkey.trans hq), filterMap_cons_none hq]
        exact ih'
      | some k =>
        rw [filterMap_cons_some (hkey.trans hq), filterMap_cons_some hq]
        exact ih'.cons_cons k
    · rw [filterMap_cons_none hkey]
      cases hq : key q with
      | none =>
        rw [filterMap_cons_none hq]
        exact ih'
      | some k =>
        rw [filterMap_cons_some hq]
        exact ih'.cons k

theorem Unique.sublist {fewer : List ρ} (h : Unique key rows) (hsub : fewer.Sublist rows) :
    Unique key fewer :=
  List.Nodup.sublist (hsub.filterMap key) h

theorem Unique.updateRows (h : Unique key rows)
    (hf : ∀ r ∈ rows, w r → key (f r) = key r ∨ key (f r) = none) :
    Unique key (updateRows w f rows) :=
  List.Nodup.sublist (filterMap_updateRows_sublist hf) h

/-- In a unique index a key has one row. -/
theorem Unique.eq_of_key (h : Unique key rows) (hr : r ∈ rows) (hq : q ∈ rows)
    (hkr : key r = some k) (hkq : key q = some k) : r = q := by
  induction rows with
  | nil => cases hr
  | cons p ps ih =>
    have htail : Unique key ps :=
      List.Nodup.sublist ((sublist_cons_self p ps).filterMap key) h
    have hfresh : ∀ x ∈ ps, key x = some k → key p ≠ some k := by
      intro x hx hkx hkp
      have hnd : ((p :: ps).filterMap key).Nodup := h
      rw [filterMap_cons_some hkp] at hnd
      exact (nodup_cons.mp hnd).1 (mem_filterMap.mpr ⟨x, hx, hkx⟩)
    rcases mem_cons.mp hr with rfl | hr'
    · rcases mem_cons.mp hq with rfl | hq'
      · rfl
      · exact absurd hkr (hfresh q hq' hkq)
    · rcases mem_cons.mp hq with rfl | hq'
      · exact absurd hkq (hfresh r hr' hkr)
      · exact ih htail hr' hq'

/-- The keys of later rows are new. -/
theorem Unique.fresh_of_append {later : List ρ} (h : Unique key (rows ++ later))
    (hmem : q ∈ later) (hq : key q = some k) : ∀ r ∈ rows, key r ≠ some k := by
  intro r hr hk
  have hnd : ((rows ++ later).filterMap key).Nodup := h
  rw [filterMap_append, nodup_append] at hnd
  exact hnd.2.2 k (mem_filterMap.mpr ⟨r, hr, hk⟩) k
    (mem_filterMap.mpr ⟨q, hmem, hq⟩) rfl

theorem updateRows_append (later : List ρ) :
    updateRows w f (rows ++ later) = updateRows w f rows ++ updateRows w f later :=
  map_append

/-- A clause on a key selects its row. -/
theorem Unique.countP_eq_one (h : Unique key rows) (hr : r ∈ rows) (hw : w r)
    (hkey : ∀ q, w q → key q = some k) : rows.countP w = 1 := by
  induction rows with
  | nil => cases hr
  | cons p ps ih =>
    have htail : Unique key ps :=
      List.Nodup.sublist ((sublist_cons_self p ps).filterMap key) h
    cases hp : w p with
    | true =>
      have hnone : ps.countP w = 0 := by
        refine countP_eq_zero.mpr fun q hq hwq => ?_
        have hnd : ((p :: ps).filterMap key).Nodup := h
        rw [filterMap_cons_some (hkey p hp)] at hnd
        exact (nodup_cons.mp hnd).1
          (mem_filterMap.mpr ⟨q, hq, hkey q hwq⟩)
      rw [countP_cons_of_pos hp, hnone]
    | false =>
      rcases mem_cons.mp hr with rfl | hr'
      · rw [hw] at hp
        cases hp
      · rw [countP_cons_of_neg (by rw [hp]; exact Bool.false_ne_true)]
        exact ih htail hr'

/-- A single row may take any key that no other row has. -/
theorem Unique.replace (h : Unique key rows) (hone : rows.countP w = 1)
    (hfresh : ∀ r ∈ rows, w r → ∀ k, key (f r) = some k →
      ∀ q ∈ rows, w q = false → key q ≠ some k) : Unique key (SqlTable.updateRows w f rows) := by
  induction rows with
  | nil => cases hone
  | cons p ps ih =>
    have htail : Unique key ps :=
      List.Nodup.sublist ((sublist_cons_self p ps).filterMap key) h
    show ((SqlTable.updateRows w f (p :: ps)).filterMap key).Nodup
    cases hp : w p with
    | true =>
      rw [countP_cons_of_pos hp] at hone
      have hrest : ∀ q ∈ ps, w q = false := by
        intro q hq
        have := countP_eq_zero.mp (Nat.succ.inj hone) q hq
        simpa using this
      have hrows : SqlTable.updateRows w f (p :: ps) = f p :: ps := by
        show (if w p then f p else p) :: SqlTable.updateRows w f ps = _
        rw [if_pos hp, updateRows_of_none hrest]
      rw [hrows]
      cases hk : key (f p) with
      | none =>
        rw [filterMap_cons_none hk]
        exact htail
      | some k =>
        rw [filterMap_cons_some hk, nodup_cons]
        refine ⟨fun hmem => ?_, htail⟩
        obtain ⟨q, hq, hkq⟩ := mem_filterMap.mp hmem
        exact hfresh p mem_cons_self hp k hk q (mem_cons_of_mem p hq)
          (hrest q hq) hkq
    | false =>
      rw [countP_cons_of_neg (by rw [hp]; exact Bool.false_ne_true)] at hone
      have ih' := ih htail hone fun r hr hw k hk q hq =>
        hfresh r (mem_cons_of_mem p hr) hw k hk q (mem_cons_of_mem p hq)
      have hrows : SqlTable.updateRows w f (p :: ps) = p :: SqlTable.updateRows w f ps := by
        show (if w p then f p else p) :: SqlTable.updateRows w f ps = _
        rw [hp]
        rfl
      rw [hrows]
      cases hk : key p with
      | none =>
        rw [filterMap_cons_none hk]
        exact ih'
      | some k =>
        rw [filterMap_cons_some hk, nodup_cons]
        refine ⟨fun hmem => ?_, ih'⟩
        obtain ⟨q, hq, hkq⟩ := mem_filterMap.mp hmem
        obtain ⟨r, hr, ⟨hw, rfl⟩ | ⟨_, rfl⟩⟩ := mem_updateRows.mp hq
        · exact hfresh r (mem_cons_of_mem p hr) hw k hkq p mem_cons_self hp hk
        · have hnd : ((p :: ps).filterMap key).Nodup := h
          rw [filterMap_cons_some hk] at hnd
          exact (nodup_cons.mp hnd).1 (mem_filterMap.mpr ⟨q, hr, hkq⟩)

/-- A row with a new key may be added. -/
theorem Unique.concat (h : Unique key rows)
    (hfresh : ∀ k, key q = some k → ∀ r ∈ rows, key r ≠ some k) : Unique key (rows ++ [q]) := by
  show ((rows ++ [q]).filterMap key).Nodup
  rw [filterMap_append, nodup_append]
  refine ⟨h, ?_, ?_⟩
  · cases hk : key q with
    | none | some k => simp [hk]
  · intro a ha b hb hab
    obtain ⟨r, hr, hkr⟩ := mem_filterMap.mp ha
    obtain ⟨q', hq', hkq⟩ := mem_filterMap.mp hb
    rw [mem_singleton.mp hq'] at hkq
    exact hfresh b hkq r hr (hab ▸ hkr)

/-- Ending a property makes the rows with it fewer. -/
theorem countP_updateRows_lt {p : ρ → Bool} (hf : ∀ q ∈ rows, w q → p (f q) = false)
    (hr : r ∈ rows) (hw : w r) (hp : p r) :
    (updateRows w f rows).countP p < rows.countP p := by
  obtain ⟨l, t, rfl⟩ := append_of_mem hr
  have hle : ∀ qs : List ρ, (∀ q ∈ qs, w q → p (f q) = false) →
      (updateRows w f qs).countP p ≤ qs.countP p := by
    intro qs hqs
    unfold updateRows
    rw [countP_map]
    refine countP_mono_left fun q hq hpq => ?_
    cases hwq : w q with
    | true => simp [hwq, hqs q hq hwq] at hpq
    | false => simpa [hwq] using hpq
  have hl := hle l fun q hq => hf q (mem_append_left _ hq)
  have ht := hle t fun q hq =>
    hf q (mem_append_right _ (mem_cons_of_mem r hq))
  have hhead : p (if w r then f r else r) = false := by
    rw [if_pos hw]
    exact hf r hr hw
  have hsplit : updateRows w f (l ++ r :: t) =
      updateRows w f l ++ (if w r then f r else r) :: updateRows w f t := by
    unfold updateRows
    rw [map_append, map_cons]
  rw [hsplit, countP_append, countP_append, countP_cons_of_pos hp,
    countP_cons_of_neg (by rw [hhead]; exact Bool.false_ne_true)]
  omega

end Rows

end SqlTable
