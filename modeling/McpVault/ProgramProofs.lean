import Mathlib

/-! # Procedures over external calls — running, stopping, and what holds on the way

A procedure is a tree of calls, `Prog E χ α`, with several readings.

* **`run`** answers every call from a handler, to the end.
* **`stop`** does so for the first `n` calls: the process died there.
* **`Sat`** says that a property holds wherever the process may stop, and
  another one of the result.  It is proved along the text (`sat_bind`,
  `sat_attempt`), and read off for stops and runs (`Sat.stop`, `Sat.run`). -/

namespace Program

universe u

/-- A procedure; `E ρ` are calls answered by a `ρ`. -/
inductive Prog (E : Type → Type) (χ α : Type) : Type 1 where
  | ret (a : α)
  | fail (x : χ)
  | call {ρ : Type} (e : E ρ) (k : ρ → Prog E χ α)

variable {E : Type → Type} {χ α β : Type}

/-- Sequencing; a failure ends the procedure. -/
def Prog.bind : Prog E χ α → (α → Prog E χ β) → Prog E χ β
  | .ret a, f => f a
  | .fail x, _ => .fail x
  | .call e k, f => .call e fun r => (k r).bind f

instance : Monad (Prog E χ) where
  pure := .ret
  bind := .bind

/-- One call, its answer as the result. -/
def perform {ρ : Type} (e : E ρ) : Prog E χ ρ := .call e .ret

/-- A computed result, or the failure it stands for. -/
def ofExcept : Except χ α → Prog E χ α
  | .ok a => .ret a
  | .error x => .fail x

/-- A call whose refusal is this procedure's failure. -/
def demand {ω : Type} (e : E (Except ω α)) (f : ω → χ) : Prog E χ α :=
  .call e fun r => ofExcept (r.mapError f)

/-- Fail unless the condition holds. -/
def check (ok : Bool) (x : χ) : Prog E χ Unit :=
  if ok then .ret () else .fail x

/-- The value of an option, or a failure. -/
def orFail (x : χ) : Option α → Prog E χ α
  | some a => .ret a
  | none => .fail x

/-- A failure of the body as a value. -/
def attempt {ω : Type} : Prog E ω α → Prog E χ (Except ω α)
  | .ret a => .ret (.ok a)
  | .fail x => .ret (.error x)
  | .call e k => .call e fun r => attempt (k r)

/-- Release what was taken, however the body ends. -/
def bracket (take release : Prog E χ Unit) (body : Prog E χ α) : Prog E χ α := do
  take
  let r ← attempt body
  release
  ofExcept r

/-- What answers the calls: a state and its change. -/
abbrev Handler (E : Type → Type) (σ : Type u) := (ρ : Type) → E ρ → σ → ρ × σ

variable {σ : Type u}

/-- The result and the state it leaves. -/
def run (h : Handler E σ) : Prog E χ α → σ → Except χ α × σ
  | .ret a, s => (.ok a, s)
  | .fail x, s => (.error x, s)
  | .call e k, s => run h (k (h _ e s).1) (h _ e s).2

/-- The state in which the process stops after `n` calls. -/
def stop (h : Handler E σ) : Nat → Prog E χ α → σ → σ
  | 0, _, s => s
  | n + 1, .call e k, s => stop h n (k (h _ e s).1) (h _ e s).2
  | _ + 1, .ret _, s => s
  | _ + 1, .fail _, s => s

/-- `I` wherever it may stop, `Q` of the result. -/
def Sat (h : Handler E σ) (I : σ → Prop) (Q : Except χ α → σ → Prop) : Prog E χ α → σ → Prop
  | .ret a, s => I s ∧ Q (.ok a) s
  | .fail x, s => I s ∧ Q (.error x) s
  | .call e k, s => I s ∧ Sat h I Q (k (h _ e s).1) (h _ e s).2

/-- A condition on a success and one on a failure. -/
def Outcome (A : α → Prop) (B : χ → Prop) : Except χ α → Prop
  | .ok a => A a
  | .error x => B x

/-- What has been achieved, after one more call. -/
def noted {μ : Type} (done : List μ) : Option μ → List μ
  | some m => done ++ [m]
  | none => done

/-- A handler that notes what was achieved. -/
def noting {μ : Type} (mark : (ρ : Type) → E ρ → ρ → Option μ) (h : Handler E σ) :
    Handler E (List μ × σ) := fun ρ e s =>
  let r := h ρ e s.2
  (r.1, noted s.1 (mark ρ e r.1), r.2)

/-! ## Running a text -/

section Run

variable (h : Handler E σ) (s : σ)

/-- Noting does not change what happens. -/
theorem run_noting {μ : Type} (mark : (ρ : Type) → E ρ → ρ → Option μ)
    (p : Prog E χ α) (done : List μ) :
    (run (noting mark h) p (done, s)).1 = (run h p s).1 ∧
      (run (noting mark h) p (done, s)).2.2 = (run h p s).2 := by
  induction p generalizing done s with
  | ret a | fail x => exact ⟨rfl, rfl⟩
  | call e k ih => exact ih _ _ _

theorem stop_noting {μ : Type} (mark : (ρ : Type) → E ρ → ρ → Option μ) (p : Prog E χ α) (n : Nat)
    (done : List μ) : (stop (noting mark h) n p (done, s)).2 = stop h n p s := by
  induction n generalizing p done s with
  | zero => rfl
  | succ n ih =>
    cases p with
    | ret a | fail x => rfl
    | call e k => exact ih _ _ _

end Run

section Rules

variable {h : Handler E σ} {I : σ → Prop} {Q Q' : Except χ α → σ → Prop} {s : σ}

/-! ## Reading a judgement off -/

variable {ok : Bool} {r : Except χ α} {p : Prog E χ α} {a : α} {f : α → Prog E χ β}
  {k : β → Prog E χ α} {x : χ}

theorem Sat.here (hp : Sat h I Q p s) : I s := by
  cases p with
  | ret a | fail x | call e k => exact hp.1

/-- Every stop is a point of the judgement. -/
theorem Sat.stop (hp : Sat h I Q p s) (n : Nat) : I (stop h n p s) := by
  induction n generalizing p s with
  | zero => exact hp.here
  | succ n ih =>
    cases p with
    | ret a | fail x => exact hp.1
    | call e k => exact ih hp.2

/-- The whole run ends in the postcondition. -/
theorem Sat.run (hp : Sat h I Q p s) : Q (run h p s).1 (run h p s).2 := by
  induction p generalizing s with
  | ret a | fail x => exact hp.2
  | call e k ih => exact ih _ hp.2

theorem Sat.weaken {I' : σ → Prop} (hp : Sat h I Q p s) (hI : ∀ t, I t → I' t)
    (hQ : ∀ r t, I t → Q r t → Q' r t) : Sat h I' Q' p s := by
  induction p generalizing s with
  | ret a | fail x => exact ⟨hI _ hp.1, hQ _ _ hp.1 hp.2⟩
  | call e k ih => exact ⟨hI _ hp.1, ih _ hp.2⟩

theorem Sat.mono (hp : Sat h I Q p s) (hQ : ∀ r t, I t → Q r t → Q' r t) : Sat h I Q' p s :=
  hp.weaken (fun _ ht => ht) hQ

/-! ## Proving a judgement along the text -/

theorem sat_ret (hI : I s) (hQ : Q (.ok a) s) : Sat h I Q (pure a : Prog E χ α) s := ⟨hI, hQ⟩

theorem sat_fail (hI : I s) (hQ : Q (.error x) s) : Sat h I Q (.fail x : Prog E χ α) s := ⟨hI, hQ⟩

/-- The second half starts where the first ends. -/
theorem sat_bind {R : Except χ α → σ → Prop} {Q : Except χ β → σ → Prop} (hp : Sat h I R p s)
    (hok : ∀ a t, R (.ok a) t → I t → Sat h I Q (f a) t)
    (herror : ∀ x t, R (.error x) t → I t → Q (.error x) t) : Sat h I Q (p >>= f) s := by
  induction p generalizing s with
  | ret a => exact hok a s hp.2 hp.1
  | fail x => exact ⟨hp.1, herror x s hp.2 hp.1⟩
  | call e k ih => exact ⟨hp.1, ih _ hp.2⟩

/-- A single call, then the rest. -/
theorem sat_perform {ρ : Type} {e : E ρ} {f : ρ → Prog E χ α} (hI : I s)
    (hk : Sat h I Q (f (h _ e s).1) (h _ e s).2) :
    Sat h I Q (perform e >>= f) s := ⟨hI, hk⟩

theorem sat_ofExcept (hI : I s) (hQ : Q r s) : Sat h I Q (ofExcept r) s := by
  cases r with
  | ok a | error x => exact ⟨hI, hQ⟩

/-- A result that may be an error, then the rest. -/
theorem sat_mapError {ω : Type} {r : Except ω β} {f : ω → χ} (hI : I s)
    (hok : ∀ b, r = .ok b → Sat h I Q (k b) s) (herror : ∀ w, r = .error w → Q (.error (f w)) s) :
    Sat h I Q (ofExcept (r.mapError f) >>= k) s := by
  cases r with
  | ok b => exact hok b rfl
  | error w => exact ⟨hI, herror w rfl⟩

/-- A call that may be refused, then the rest. -/
theorem sat_demand {ω : Type} {e : E (Except ω β)} {f : ω → χ} (hI : I s)
    (hok : ∀ b, (h _ e s).1 = .ok b → Sat h I Q (k b) (h _ e s).2)
    (herror : ∀ w, (h _ e s).1 = .error w → I (h _ e s).2 ∧ Q (.error (f w)) (h _ e s).2) :
    Sat h I Q (demand e f >>= k) s := by
  refine ⟨hI, ?_⟩
  show Sat h I Q ((ofExcept ((h _ e s).1.mapError f)).bind k) _
  cases hr : (h _ e s).1 with
  | ok b => exact hok b hr
  | error w => exact herror w hr

theorem sat_check {k : Unit → Prog E χ α} (hI : I s) (hok : ok → Sat h I Q (k ()) s)
    (herror : ok = false → Q (.error x) s) : Sat h I Q (check ok x >>= k) s := by
  cases ok with
  | true => exact hok rfl
  | false => exact ⟨hI, herror rfl⟩

theorem sat_checked {Q : Except χ Unit → σ → Prop} (hI : I s) (hok : ok → Q (.ok ()) s)
    (herror : ok = false → Q (.error x) s) : Sat h I Q (check ok x) s := by
  cases ok with
  | true => exact ⟨hI, hok rfl⟩
  | false => exact ⟨hI, herror rfl⟩

theorem sat_orFail {o : Option β} (hI : I s) (hsome : ∀ b, o = some b → Sat h I Q (k b) s)
    (hnone : o = none → Q (.error x) s) : Sat h I Q (orFail x o >>= k) s := by
  cases o with
  | some b => exact hsome b rfl
  | none => exact ⟨hI, hnone rfl⟩

theorem sat_attempt {ω : Type} {p : Prog E ω α} {Q : Except χ (Except ω α) → σ → Prop}
    (hp : Sat h I (fun r t => Q (.ok r) t) p s) : Sat h I Q (attempt p) s := by
  induction p generalizing s with
  | ret a | fail x => exact hp
  | call e k ih => exact ⟨hp.1, ih _ hp.2⟩

/-! ## Procedures that only look -/

/-- Nothing changes, and the result is as `P` says. -/
def Reads (h : Handler E σ) (P : Except χ α → Prop) (p : Prog E χ α) (s : σ) : Prop :=
  Sat h (fun t => t = s) (fun r _ => P r) p s

variable {P : Except χ α → Prop}

theorem reads_pure (ha : P (.ok a)) : Reads h P (pure a : Prog E χ α) s :=
  ⟨rfl, ha⟩

theorem reads_fail (hx : P (.error x)) : Reads h P (.fail x : Prog E χ α) s :=
  ⟨rfl, hx⟩

theorem reads_demand {ω : Type} {e : E (Except ω α)} {f : ω → χ} (he : (h _ e s).2 = s)
    (hP : P ((h _ e s).1.mapError f)) : Reads h P (demand e f) s := by
  refine ⟨rfl, ?_⟩
  rw [he]
  exact sat_ofExcept rfl hP

theorem reads_check {P : Except χ Unit → Prop} (hok : ok → P (.ok ()))
    (herror : ok = false → P (.error x)) : Reads h P (check ok x) s :=
  sat_checked rfl hok herror

theorem reads_orFail {o : Option α} (hsome : ∀ a, o = some a → P (.ok a))
    (hnone : o = none → P (.error x)) : Reads h P (orFail x o) s := by
  cases o with
  | some a => exact ⟨rfl, hsome a rfl⟩
  | none => exact ⟨rfl, hnone rfl⟩

/-- Look, then go on with what was seen. -/
theorem Reads.bind {Q : Except χ β → σ → Prop} (hp : Reads h P p s) (hI : I s)
    (hok : ∀ a, P (.ok a) → Sat h I Q (f a) s) (herror : ∀ x, P (.error x) → Q (.error x) s) :
    Sat h I Q (p >>= f) s := by
  induction p with
  | ret a => exact hok a hp.2
  | fail x => exact ⟨hI, herror x hp.2⟩
  | call e k ih =>
    have hstay : (h _ e s).2 = s := hp.2.here
    have hk := hp.2
    rw [hstay] at hk
    refine ⟨hI, ?_⟩
    rw [hstay]
    exact ih _ hk

theorem Reads.mono {P' : Except χ α → Prop} (hp : Reads h P p s) (hP : ∀ r, P r → P' r) :
    Reads h P' p s :=
  Sat.mono hp fun r _ _ h => hP r h

/-- What a look says, where it stands. -/
theorem Reads.sat (hp : Reads h P p s) (hI : I s) (hQ : ∀ r, P r → Q r s) : Sat h I Q p s :=
  Sat.weaken hp (fun _ ht => ht ▸ hI) fun r _ ht hr => ht ▸ hQ r hr

end Rules

end Program
