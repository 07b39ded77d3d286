import Mathlib

/-! # Pages and cursors

A listing is answered page by page.  A page comes with the cursor of the next one, or with none
at the end.  `Follows` is a client that asks for the next page as long as there is a cursor, and
`Reachable` has the cursors that such a client comes to.  Pages that are cut from one fixed list
at an offset give the list, as long as no offset is refused on the way. -/

namespace Pagination

open List

variable {κ α ε : Type}

structure Page (κ α : Type) where
  items : List α
  next : Option κ

/-- Asking on until there is no cursor gives these. -/
inductive Follows (request : Option κ → Except ε (Page κ α)) : Option κ → List α → Prop
  | last {cursor : Option κ} {page : Page κ α} (h : request cursor = .ok page)
      (hnext : page.next = none) : Follows request cursor page.items
  | more {cursor : Option κ} {page : Page κ α} {c : κ} {rest : List α}
      (h : request cursor = .ok page) (hnext : page.next = some c)
      (hrest : Follows request (some c) rest) : Follows request cursor (page.items ++ rest)

/-- The cursors that come up from the first request on. -/
inductive Reachable (request : Option κ → Except ε (Page κ α)) : Option κ → Prop
  | first : Reachable request none
  | more {cursor : Option κ} {page : Page κ α} {c : κ} (hcursor : Reachable request cursor)
      (h : request cursor = .ok page) (hnext : page.next = some c) : Reachable request (some c)

/-- A page of a list, unless beyond `most`. -/
def offsetPage (list : List α) (limit most : Nat) (refusal : ε) (encode : Nat → κ)
    (offset : Nat) : Except ε (Page κ α) :=
  if most < offset then .error refusal
  else
    let items := (list.drop offset).take limit
    .ok ⟨items, if items.length = limit then some (encode (offset + items.length)) else none⟩

section Offsets

variable {list : List α} {limit most : Nat} {refusal : ε} {encode : Nat → κ}
  {request : Option κ → Except ε (Page κ α)} {page : Page κ α} {out : List α}

theorem offsetPage_ok (hlimit : 0 < limit) {offset : Nat}
    (h : offsetPage list limit most refusal encode offset = .ok page) :
    offset ≤ most ∧ page.items = (list.drop offset).take limit ∧
      (page.next = none ∧ list.length < offset + limit ∨
        page.next = some (encode (offset + limit)) ∧ offset + limit ≤ list.length) := by
  rw [offsetPage] at h
  split_ifs at h with hmost
  cases h
  refine ⟨Nat.le_of_not_lt hmost, rfl, ?_⟩
  have hlength : ((list.drop offset).take limit).length = min limit (list.length - offset) := by
    rw [length_take, length_drop]
  by_cases hfull : ((list.drop offset).take limit).length = limit
  · refine .inr ⟨?_, by omega⟩
    show (if _ then _ else _) = _
    rw [if_pos hfull, hfull]
  · exact .inl ⟨if_neg hfull, by omega⟩

/-- The answers are the pages of a list. -/
structure Serves (request : Option κ → Except ε (Page κ α)) (list : List α) (limit most : Nat)
    (refusal : ε) (encode : Nat → κ) : Prop where
  positive : 0 < limit
  first : request none = offsetPage list limit most refusal encode 0
  later : ∀ offset ≤ most + limit,
    request (some (encode offset)) = offsetPage list limit most refusal encode offset

variable (h : Serves request list limit most refusal encode)

include h

variable {cursor : Option κ}

/-- A client at the end has got the rest. -/
theorem Serves.follows_from (hfollows : Follows request cursor out) :
    ∀ pages : Nat, request cursor = offsetPage list limit most refusal encode (pages * limit) →
      pages * limit ≤ list.length →
        out = list.drop (pages * limit) ∧ list.length / limit * limit ≤ most := by
  induction hfollows with
  | @last cursor page hpage hnext =>
    intro pages hrequest hle
    obtain ⟨hmost, hitems, ⟨-, hend⟩ | ⟨hmore, -⟩⟩ :=
      offsetPage_ok h.positive (hrequest.symm.trans hpage)
    · have hlast : list.length / limit = pages := by
        refine Nat.div_eq_of_lt_le hle ?_
        rw [Nat.add_mul, Nat.one_mul]
        exact hend
      refine ⟨?_, hlast ▸ hmost⟩
      rw [hitems, take_of_length_le]
      rw [length_drop]
      omega
    · rw [hnext] at hmore
      cases hmore
  | @more cursor page c rest hpage hnext hrest ih =>
    intro pages hrequest hle
    obtain ⟨hmost, hitems, ⟨hmore, -⟩ | ⟨hmore, hfull⟩⟩ :=
      offsetPage_ok h.positive (hrequest.symm.trans hpage)
    · rw [hnext] at hmore
      cases hmore
    · rw [hnext] at hmore
      cases hmore
      have hoffset : pages * limit + limit = (pages + 1) * limit := by
        rw [Nat.add_mul, Nat.one_mul]
      obtain ⟨hout, hlast⟩ := ih (pages + 1)
        (by rw [← hoffset]; exact h.later _ (Nat.add_le_add_right hmost _)) (hoffset ▸ hfull)
      refine ⟨?_, hlast⟩
      rw [hout, hitems, ← hoffset, ← drop_drop, take_append_drop]

/-- No refused offset: a client comes to the end. -/
theorem Serves.follows_of (hmost : list.length / limit * limit ≤ most) :
    ∀ (left pages : Nat) (cursor : Option κ), list.length - pages * limit ≤ left →
      request cursor = offsetPage list limit most refusal encode (pages * limit) →
        pages * limit ≤ list.length → ∃ out, Follows request cursor out := by
  intro left
  induction left with
  | zero =>
    intro pages cursor hleft hrequest hle
    have heq : list.length = pages * limit := by omega
    have hdrop : (list.drop (pages * limit)).take limit = [] := by
      rw [drop_eq_nil_of_le (Nat.le_of_eq heq), take_nil]
    refine ⟨[], Follows.last (?_ : request cursor = .ok ⟨[], none⟩) rfl⟩
    rw [hrequest, offsetPage, if_neg, hdrop]
    · exact congrArg (fun n => Except.ok (⟨[], n⟩ : Page κ α))
        (if_neg (Nat.ne_of_lt h.positive))
    · rw [heq, Nat.mul_div_cancel _ h.positive] at hmost
      omega
  | succ left ih =>
    intro pages cursor hleft hrequest hle
    have hpages : pages * limit ≤ most :=
      Nat.le_trans (Nat.mul_le_mul_right _ ((Nat.le_div_iff_mul_le h.positive).mpr hle)) hmost
    obtain ⟨page, hpage⟩ : ∃ page, request cursor = .ok page := by
      rw [hrequest, offsetPage, if_neg (Nat.not_lt.mpr hpages)]
      exact ⟨_, rfl⟩
    obtain ⟨-, -, ⟨hnext, -⟩ | ⟨hnext, hfull⟩⟩ :=
      offsetPage_ok h.positive (hrequest.symm.trans hpage)
    · exact ⟨_, Follows.last hpage hnext⟩
    · have hoffset : pages * limit + limit = (pages + 1) * limit := by
        rw [Nat.add_mul, Nat.one_mul]
      have hpositive := h.positive
      obtain ⟨rest, hrest⟩ := ih (pages + 1) (some (encode (pages * limit + limit))) (by omega)
        (by rw [← hoffset]; exact h.later _ (Nat.add_le_add_right hpages _)) (hoffset ▸ hfull)
      exact ⟨_, Follows.more hpage hnext hrest⟩

/-- All is got iff the last offset is not refused. -/
theorem Serves.follows_iff :
    Follows request none out ↔ out = list ∧ list.length / limit * limit ≤ most := by
  have hzero : request none = offsetPage list limit most refusal encode (0 * limit) := by
    rw [Nat.zero_mul]
    exact h.first
  have hsound : ∀ {out}, Follows request none out →
      out = list ∧ list.length / limit * limit ≤ most := by
    intro out hfollows
    have hfrom := h.follows_from hfollows 0 hzero (by rw [Nat.zero_mul]; exact Nat.zero_le _)
    rwa [Nat.zero_mul] at hfrom
  constructor
  · exact hsound
  · rintro ⟨rfl, hmost⟩
    obtain ⟨out, hout⟩ := h.follows_of hmost _ 0 none (Nat.le_refl _) hzero
      (by rw [Nat.zero_mul]; exact Nat.zero_le _)
    exact (hsound hout).1 ▸ hout

theorem Serves.offset_of_reachable (hcursor : Reachable request cursor) :
    ∃ offset, request cursor = offsetPage list limit most refusal encode offset := by
  induction hcursor with
  | first => exact ⟨0, h.first⟩
  | more _ hpage hnext ih =>
    obtain ⟨offset, hrequest⟩ := ih
    obtain ⟨hmost, -, ⟨hmore, -⟩ | ⟨hmore, -⟩⟩ :=
      offsetPage_ok h.positive (hrequest.symm.trans hpage)
    · rw [hnext] at hmore
      cases hmore
    · rw [hnext] at hmore
      cases hmore
      exact ⟨_, h.later _ (Nat.add_le_add_right hmost _)⟩

/-- What comes up on any page is of the list. -/
theorem Serves.mem_of_reachable (hcursor : Reachable request cursor)
    (hpage : request cursor = .ok page) : ∀ x ∈ page.items, x ∈ list := by
  obtain ⟨offset, hrequest⟩ := h.offset_of_reachable hcursor
  obtain ⟨-, hitems, -⟩ := offsetPage_ok h.positive (hrequest.symm.trans hpage)
  intro x hx
  rw [hitems] at hx
  exact mem_of_mem_drop (mem_of_mem_take hx)

end Offsets

end Pagination
