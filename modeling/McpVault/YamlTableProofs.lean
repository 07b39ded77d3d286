import McpVault.YamlBlockProofs

/-! # Mappings with fixed keys

A writer has a fixed list of keys, some of whose values may be absent.  What it writes is the
part that is present, and a lookup of a key there is a lookup in the table (`find_present`). -/

namespace YamlBlock

open List
open PlainText (Text)

abbrev Table (α : Type) := List (String × Option α)

section Tables

variable {α β : Type} {t : Table α} {key : String}

/-- The keys that have a value, with it. -/
def present (t : Table α) : List (Text × α) :=
  t.filterMap fun f => f.2.map fun v => (f.1.toList, v)

def valueOf (t : Table α) (key : String) : Option α := (t.lookup key).join

/-- The table with every value changed. -/
def mapTable (g : α → β) (t : Table α) : Table β := t.map fun f => (f.1, f.2.map g)

theorem present_cons (f : String × Option α) (t : Table α) :
    present (f :: t) = f.2.toList.map (fun v => (f.1.toList, v)) ++ present t := by
  obtain ⟨k, o⟩ := f
  cases o with
  | none | some v => rfl

theorem mem_present {e : Text × α} (h : e ∈ present t) :
    ∃ f ∈ t, f.2 = some e.2 ∧ f.1.toList = e.1 := by
  obtain ⟨f, hf, hmap⟩ := mem_filterMap.mp h
  obtain ⟨v, hv, rfl⟩ := Option.map_eq_some_iff.mp hmap
  exact ⟨f, hf, hv, rfl⟩

theorem present_keys : ((present t).map (·.1)).Sublist (t.map (·.1.toList)) := by
  induction t with
  | nil => exact List.Sublist.slnil
  | cons f t ih =>
    obtain ⟨k, o⟩ := f
    cases o with
    | none => exact ih.cons k.toList
    | some v => exact ih.cons_cons k.toList

theorem present_flatMap (w : Text → α → List β) :
    (present t).flatMap (fun e => w e.1 e.2) = t.flatMap fun f => f.2.elim [] (w f.1.toList) := by
  induction t with
  | nil => rfl
  | cons f t ih =>
    rw [present_cons, flatMap_append, ih]
    obtain ⟨k, o⟩ := f
    cases o with
    | none => rfl
    | some v => exact congrArg (· ++ _) (append_nil _)

theorem present_map (g : α → β) :
    (present t).map (fun e => (e.1, g e.2)) = present (mapTable g t) := by
  induction t with
  | nil => rfl
  | cons f t ih =>
    show _ = present ((f.1, f.2.map g) :: mapTable g t)
    rw [present_cons, map_append, ih]
    obtain ⟨k, o⟩ := f
    cases o with
    | none | some v => rfl

/-- A key is found with its value in the table. -/
theorem find_present (hkeys : (t.map (·.1)).Nodup) :
    (present t).find? (fun e => e.1 = key.toList) = (valueOf t key).map fun v => (key.toList, v) := by
  induction t with
  | nil => rfl
  | cons f t ih =>
    obtain ⟨k, o⟩ := f
    obtain ⟨hfresh, hkeys⟩ := nodup_cons.mp hkeys
    rw [present_cons, List.find?_append, ih hkeys]
    unfold valueOf
    rw [lookup_cons]
    rcases Decidable.eq_or_ne key k with rfl | hne
    · -- an absent value is not found further on
      have hnone : t.lookup key = none := by
        refine lookup_eq_none_iff.mpr fun f hf => bne_iff_ne.mpr ?_
        intro heq
        exact hfresh (mem_map.mpr ⟨f, hf, heq.symm⟩)
      rw [beq_self_eq_true, hnone]
      cases o with
      | none => rfl
      | some v => simp
    · have hother : k.toList ≠ key.toList := fun heq => hne (String.toList_inj.mp heq).symm
      rw [beq_eq_false_iff_ne.mpr hne]
      cases o with
      | none => rfl
      | some v => simp [hother]

end Tables

section Documents

variable {t : Table Entry} {keys : List String}

theorem keys_nodup {α : Type} {t : Table α} (hkeys : (t.map (·.1)).Nodup) :
    ((present t).map (·.1)).Nodup := by
  refine present_keys.nodup ?_
  have hmap : t.map (·.1.toList) = (t.map (·.1)).map String.toList := by
    rw [map_map]
    rfl
  rw [hmap]
  exact hkeys.map fun a b => String.toList_inj.mp

theorem record_good {t : Table Field} (hne : present t ≠ []) (hkeys : (t.map (·.1)).Nodup)
    (hgood : ∀ k ∈ t.map (·.1), KeyGood k.toList) (hvalues : ∀ f ∈ t, ∀ v ∈ f.2, v.Good) :
    Record.Good (present t) where
  ne_nil := hne
  keys := keys_nodup hkeys
  fields := by
    intro e he
    obtain ⟨f, hf, hv, hk⟩ := mem_present he
    exact ⟨hk ▸ hgood f.1 (mem_map_of_mem hf), hvalues f hf e.2 hv⟩

theorem document_wellFormed (hne : present t ≠ []) (hkeys : (t.map (·.1)).Nodup)
    (hgood : ∀ k ∈ t.map (·.1), KeyGood k.toList) (hvalues : ∀ f ∈ t, ∀ v ∈ f.2, v.Good) :
    Document.WellFormed (present t) where
  ne_nil := hne
  keys := keys_nodup hkeys
  entries := by
    intro e he
    obtain ⟨f, hf, hv, hk⟩ := mem_present he
    exact ⟨hk ▸ hgood f.1 (mem_map_of_mem hf), hvalues f hf e.2 hv⟩

end Documents

/-! ## Documents that folding keeps -/

section Folding

variable {f : Text → Text} {v : Field} {r : Record} {d : Document}

theorem Field.mapText_scalars {lead item key : Text} (h : v.mapText f = v) :
    ∀ l ∈ v.lines lead item key, ∀ s ∈ l.scalar, f s = s := by
  intro l hl s hs
  cases v with
  | scalar c =>
    obtain rfl := mem_singleton.mp hl
    cases c with
    | quoted t =>
      obtain rfl := Option.some.inj hs
      exact Scalar.quoted.inj (Field.scalar.inj h)
    | int n | real t | bool b => cases hs
  | strings ss =>
    rcases mem_cons.mp hl with rfl | hl
    · cases hs
    · obtain ⟨t, ht, rfl⟩ := mem_map.mp hl
      obtain rfl := Option.some.inj hs
      have hall : ss.map f = ss.map id := (Field.strings.inj h).trans (map_id ss).symm
      exact map_inj_left.mp hall t ht

theorem map_snd_fixed {α : Type} {g : α → α} {xs : List (Text × α)}
    (h : xs.map (fun e => (e.1, g e.2)) = xs) : ∀ e ∈ xs, g e.2 = e.2 := by
  intro e he
  have hall : xs.map (fun e => (e.1, g e.2)) = xs.map id := h.trans (map_id xs).symm
  exact (Prod.mk.inj (map_inj_left.mp hall e he)).2

theorem Record.mapText_scalars (h : r.mapText f = r) : ∀ l ∈ r.lines, ∀ s ∈ l.scalar, f s = s := by
  have hfields := map_snd_fixed h
  intro l hl
  cases r with
  | nil => cases hl
  | cons g rest =>
    rcases mem_append.mp hl with hl | hl
    · exact Field.mapText_scalars (hfields g mem_cons_self) l hl
    · obtain ⟨g', hg', hl⟩ := mem_flatMap.mp hl
      exact Field.mapText_scalars (hfields g' (mem_cons_of_mem g hg')) l hl

/-- Folding changes nothing: one line per scalar. -/
theorem Document.oneLine_of_fold (h : d.mapText fold = d) : d.OneLine := by
  intro l hl s hs
  refine fold_eq_iff.mp ?_
  obtain ⟨e, he, hl⟩ := mem_flatMap.mp hl
  have hvalue := map_snd_fixed h e he
  cases hcase : e.2 with
  | field v =>
    rw [hcase] at hl hvalue
    exact Field.mapText_scalars (Entry.field.inj hvalue) l hl s hs
  | records rs =>
    rw [hcase] at hl hvalue
    rcases mem_cons.mp hl with rfl | hl
    · cases hs
    · obtain ⟨r, hr, hl⟩ := mem_flatMap.mp hl
      have hall : rs.map (Record.mapText fold) = rs.map id :=
        (Entry.records.inj hvalue).trans (map_id rs).symm
      exact Record.mapText_scalars (map_inj_left.mp hall r hr) l hl s hs

end Folding

end YamlBlock
