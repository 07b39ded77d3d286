import Mathlib

/-! # Texts, and the numbers in them -/

namespace PlainText

open List

/-- A text, as its characters. -/
abbrev Text := List Char

/-- `char::is_control`: the category `Cc`. -/
def isControl (c : Char) : Bool :=
  decide (c.toNat ≤ 0x1f ∨ 0x7f ≤ c.toNat ∧ c.toNat ≤ 0x9f)

/-- `str::starts_with`. -/
def startsWith (start : String) (t : Text) : Bool := start.toList.isPrefixOf t

/-- A number may have a plus sign. -/
def dropPlus : Text → Text
  | '+' :: rest => rest
  | text => text

/-- `str::parse` for the unsigned numbers below `bound`. -/
def parseUnsigned (bound : Nat) (text : Text) : Option Nat :=
  if dropPlus text = [] ∨ (dropPlus text).all Char.isDigit = false then none
  else if Nat.ofDigitChars 10 (dropPlus text) 0 < bound then
    some (Nat.ofDigitChars 10 (dropPlus text) 0)
  else none

/-- A number is read from its digits. -/
theorem parseUnsigned_toDigits {n bound : Nat} (h : n < bound) :
    parseUnsigned bound (Nat.toDigits 10 n) = some n := by
  have hdigits : ∀ c ∈ Nat.toDigits 10 n, c.isDigit :=
    fun c hc => Nat.isDigit_of_mem_toDigits (by decide) (by decide) hc
  have hplain : dropPlus (Nat.toDigits 10 n) = Nat.toDigits 10 n := by
    unfold dropPlus
    split
    next rest heq =>
      have hplus := hdigits '+' (heq ▸ mem_cons_self)
      exact absurd hplus (by decide)
    next => rfl
  rw [parseUnsigned, hplain, if_neg, Nat.ofDigitChars_ten_toDigits, if_pos h]
  rintro (hnil | hfalse)
  · exact Nat.toDigits_ne_nil hnil
  · rw [all_eq_true.mpr hdigits] at hfalse
    cases hfalse

section Separators

variable {α : Type} {p : α → Bool} {a b x y : List α}

theorem takeWhile_append_stop (ha : ∀ c ∈ a, p c) (hx : ∀ c ∈ x.head?, p c = false) :
    (a ++ x).takeWhile p = a := by
  rw [takeWhile_append_of_pos ha]
  cases x with
  | nil => simp
  | cons c x => simp [hx c rfl]

/-- What precedes the first stop is determined. -/
theorem append_stop_inj (ha : ∀ c ∈ a, p c) (hb : ∀ c ∈ b, p c)
    (hx : ∀ c ∈ x.head?, p c = false) (hy : ∀ c ∈ y.head?, p c = false)
    (h : a ++ x = b ++ y) : a = b ∧ x = y := by
  have hsame := congrArg (List.takeWhile p) h
  rw [takeWhile_append_stop ha hx, takeWhile_append_stop hb hy] at hsame
  exact ⟨hsame, append_cancel_left (hsame ▸ h)⟩

theorem append_cons_inj [DecidableEq α] {sep : α} (ha : sep ∉ a) (hb : sep ∉ b)
    (h : a ++ sep :: x = b ++ sep :: y) : a = b ∧ x = y := by
  have hfree : ∀ {w : List α}, sep ∉ w → ∀ c ∈ w, decide (c ≠ sep) :=
    fun hw c hc => decide_eq_true fun heq => hw (heq ▸ hc)
  have hstop : ∀ {w : List α}, ∀ c ∈ (sep :: w).head?, decide (c ≠ sep) = false := by simp
  obtain ⟨hsame, htail⟩ := append_stop_inj (hfree ha) (hfree hb) hstop hstop h
  exact ⟨hsame, (List.cons.inj htail).2⟩

end Separators

end PlainText
