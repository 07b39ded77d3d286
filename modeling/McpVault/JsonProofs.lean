import Mathlib

/-! # JSON values

Texts and doubles are parameters.  Equality is decidable, and what stands in a value is smaller
than it. -/

namespace JsonValue

open List

/-- A number is kept as an integer or as a double. -/
inductive Number (ρ : Type) where
  | integer (i : Int)
  | double (q : ρ)
  deriving DecidableEq

/-- Members are in the order of their keys. -/
inductive Json (τ ρ : Type) where
  | null
  | boolean (b : Bool)
  | number (n : Number ρ)
  | string (s : τ)
  | array (items : List (Json τ ρ))
  | object (members : List (τ × Json τ ρ))

namespace Json

variable {τ ρ : Type} [DecidableEq τ]

def get (key : τ) : Json τ ρ → Option (Json τ ρ)
  | .object members => members.lookup key
  | _ => none

def asObject : Json τ ρ → Option (List (τ × Json τ ρ))
  | .object members => some members
  | _ => none

def asArray : Json τ ρ → Option (List (Json τ ρ))
  | .array items => some items
  | _ => none

def asStr : Json τ ρ → Option τ
  | .string s => some s
  | _ => none

def asU64 : Json τ ρ → Option Nat
  | .number (.integer (.ofNat n)) => some n
  | _ => none

section Members

variable (v : Json τ ρ) (key : τ)

def getObject : Option (List (τ × Json τ ρ)) := (v.get key).bind asObject

def getArray : Option (List (Json τ ρ)) := (v.get key).bind asArray

def getStr : Option τ := (v.get key).bind asStr

def getU64 : Option Nat := (v.get key).bind asU64

end Members

section Equality

variable [DecidableEq ρ]

mutual

/-- Values are compared member by member. -/
def beq : Json τ ρ → Json τ ρ → Bool
  | .null, .null => true
  | .boolean a, .boolean b => a == b
  | .number a, .number b => a == b
  | .string a, .string b => a == b
  | .array a, .array b => beqItems a b
  | .object a, .object b => beqMembers a b
  | _, _ => false

def beqItems : List (Json τ ρ) → List (Json τ ρ) → Bool
  | [], [] => true
  | a :: as, b :: bs => beq a b && beqItems as bs
  | _, _ => false

def beqMembers : List (τ × Json τ ρ) → List (τ × Json τ ρ) → Bool
  | [], [] => true
  | (j, a) :: as, (k, b) :: bs => j == k && beq a b && beqMembers as bs
  | _, _ => false

end

mutual

theorem beq_iff : ∀ a b : Json τ ρ, beq a b = true ↔ a = b
  | .null, b | .boolean _, b | .number _, b | .string _, b => by cases b <;> simp [beq]
  | .array as, b => by cases b <;> simp [beq, beqItems_iff as]
  | .object as, b => by cases b <;> simp [beq, beqMembers_iff as]

theorem beqItems_iff : ∀ as bs : List (Json τ ρ), beqItems as bs = true ↔ as = bs
  | [], bs => by cases bs <;> simp [beqItems]
  | a :: as, bs => by cases bs <;> simp [beqItems, beq_iff a, beqItems_iff as]

theorem beqMembers_iff : ∀ as bs : List (τ × Json τ ρ), beqMembers as bs = true ↔ as = bs
  | [], bs => by cases bs <;> simp [beqMembers]
  | (j, a) :: as, bs => by
    cases bs <;> simp [beqMembers, beq_iff a, beqMembers_iff as, Prod.ext_iff]

end

instance : DecidableEq (Json τ ρ) := fun a b => decidable_of_iff _ (beq_iff a b)

end Equality

variable [SizeOf τ] [SizeOf ρ] {v c : Json τ ρ}

/-- A member is smaller than its object. -/
theorem sizeOf_get {key : τ} (h : v.get key = some c) : sizeOf c < sizeOf v := by
  cases v with
  | object members =>
    obtain ⟨l, r, rfl, -⟩ := lookup_eq_some_iff.mp h
    have hlt := sizeOf_lt_of_mem (mem_append_right l (mem_cons_self (a := (key, c)) (l := r)))
    simp only [Prod.mk.sizeOf_spec, object.sizeOf_spec] at hlt ⊢
    omega
  | _ => cases h

omit [DecidableEq τ] in
/-- An item is smaller than its array. -/
theorem sizeOf_item {items : List (Json τ ρ)} (h : v.asArray = some items) (hc : c ∈ items) :
    sizeOf c < sizeOf v := by
  cases v with
  | array _ =>
    cases h
    exact (sizeOf_lt_of_mem hc).trans (by simp)
  | _ => cases h

end Json

end JsonValue
