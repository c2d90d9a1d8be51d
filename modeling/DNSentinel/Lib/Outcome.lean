import Mathlib.Tactic.Common

/-! # How a fallible computation ends

For `x : Except ε α`, an allowed set `E` of errors and a postcondition `P`, `Ends E P x` says that
`x` either fails with an allowed error or returns a value with `P`. Faults that are not in `E` are
thereby excluded. `Settled E x y` says that `y` ends as `x` does unless `x` fails with an error in
`E`. The rules follow the shape of a `do` block. -/

namespace DNSentinel.Lib.Outcome

variable {ε α β : Type} {E : ε → Prop} {P Q : α → Prop}

/-- `x` fails with an error in `E` or returns a value with `P`. -/
def Ends (E : ε → Prop) (P : α → Prop) : Except ε α → Prop
  | .error e => E e
  | .ok a => P a

theorem ends_ok {a : α} (h : P a) : Ends E P (.ok a) := h

theorem ends_error {e : ε} (h : E e) : Ends E P (.error e) := h

theorem Ends.mono {x : Except ε α} (hx : Ends E P x) (h : ∀ a, P a → Q a) : Ends E Q x := by
  cases x with
  | error e => exact hx
  | ok a => exact h a hx

/-- **The rule for `let a ← x; f a`.** -/
theorem Ends.bind {R : β → Prop} {x : Except ε α} {f : α → Except ε β} (hx : Ends E P x)
    (hf : ∀ a, P a → Ends E R (f a)) : Ends E R (x >>= f) := by
  cases x with
  | error e => exact hx
  | ok a => exact hf a hx

/-- A computation that is known to return. -/
theorem ends_of_eq_ok {x : Except ε α} {a : α} (hx : x = .ok a) (h : P a) : Ends E P x := by
  rw [hx]; exact h

theorem ends_ite {c : Prop} [Decidable c] {x y : Except ε α} (hx : c → Ends E P x)
    (hy : ¬ c → Ends E P y) : Ends E P (if c then x else y) := by
  split_ifs with h
  · exact hx h
  · exact hy h

theorem Ends.of_eq {x : Except ε α} {a : α} (hx : Ends E P x) (h : x = .ok a) : P a := by
  rw [h] at hx; exact hx

/-- What a `let a ← x; f a` that returns has done. -/
theorem exists_of_bind_eq_ok {x : Except ε α} {f : α → Except ε β} {b : β} (h : x >>= f = .ok b) :
    ∃ a, x = .ok a ∧ f a = .ok b := by
  cases x with
  | error e => cases h
  | ok a => exact ⟨a, rfl, h⟩

/-! ### Two computations -/

/-- `x` fails with an error in `E`, or `y` ends as `x` does. -/
def Settled (E : ε → Prop) (x y : Except ε α) : Prop := (∃ e, x = .error e ∧ E e) ∨ y = x

theorem Settled.refl (x : Except ε α) : Settled E x x := .inr rfl

theorem settled_error {e : ε} (h : E e) (y : Except ε α) : Settled E (.error e) y := .inl ⟨e, rfl, h⟩

/-- **The rule for `let a ← x; f a`**, of two computations. -/
theorem Settled.bind {x y : Except ε α} {f g : α → Except ε β} (hxy : Settled E x y)
    (hfg : ∀ a, x = .ok a → Settled E (f a) (g a)) : Settled E (x >>= f) (y >>= g) := by
  rcases hxy with ⟨e, rfl, he⟩ | rfl
  · exact settled_error he _
  · cases y with
    | error e => exact .refl _
    | ok a => exact hfg a rfl

theorem settled_ite {c : Prop} [Decidable c] {x x' y y' : Except ε α} (hx : c → Settled E x x')
    (hy : ¬ c → Settled E y y') : Settled E (if c then x else y) (if c then x' else y') := by
  split_ifs with h
  · exact hx h
  · exact hy h

/-- A check that can fail only on the first side. -/
theorem settled_check {c d : Prop} [Decidable c] [Decidable d] {e : ε} {x y : Except ε α} (he : E e)
    (hcd : d → c) (hxy : ¬ c → Settled E x y) :
    Settled E (if c then .error e else x) (if d then .error e else y) := by
  by_cases hc : c
  · rw [if_pos hc]
    exact settled_error he _
  · rw [if_neg hc, if_neg (mt hcd hc)]
    exact hxy hc

end DNSentinel.Lib.Outcome
