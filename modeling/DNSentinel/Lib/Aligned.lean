import Mathlib.Data.List.Forall2

/-! # Lists that go in step

`List.Forall₂ R` relates two lists element by element. A function that tests the elements, with tests
that agree on related ones, takes the same turns on both: what it selects is related again. -/

namespace DNSentinel.Lib.Aligned

open List (Forall₂)

variable {α β : Type} {R : α → β → Prop} {p : α → Bool} {q : β → Bool}

/-- Both values are there, or neither is. -/
theorem option_cases {x : Option α} {y : Option β} (h : Option.Rel R x y) :
    x = none ∧ y = none ∨ ∃ a b, x = some a ∧ y = some b ∧ R a b := by
  cases h with
  | none => exact .inl ⟨rfl, rfl⟩
  | some hab => exact .inr ⟨_, _, rfl, rfl, hab⟩

/-- Both lists are filtered in the same places. -/
theorem filter (hpq : ∀ a b, R a b → p a = q b) {xs : List α} {ys : List β} (h : Forall₂ R xs ys) :
    Forall₂ R (xs.filter p) (ys.filter q) := by
  refine List.rel_filter ?_ h
  intro a b hab
  dsimp only
  rw [hpq a b hab]

theorem takeWhile (hpq : ∀ a b, R a b → p a = q b) {xs : List α} {ys : List β}
    (h : Forall₂ R xs ys) : Forall₂ R (xs.takeWhile p) (ys.takeWhile q) := by
  induction h with
  | nil => exact .nil
  | @cons a b as bs hab _ ih =>
    rw [List.takeWhile_cons, List.takeWhile_cons, ← hpq a b hab]
    split_ifs
    · exact .cons hab ih
    · exact .nil

theorem dropWhile (hpq : ∀ a b, R a b → p a = q b) {xs : List α} {ys : List β}
    (h : Forall₂ R xs ys) : Forall₂ R (xs.dropWhile p) (ys.dropWhile q) := by
  induction h with
  | nil => exact .nil
  | @cons a b as bs hab htail ih =>
    rw [List.dropWhile_cons, List.dropWhile_cons, ← hpq a b hab]
    split_ifs
    · exact ih
    · exact .cons hab htail

/-- The first elements that pass are related. -/
theorem find? (hpq : ∀ a b, R a b → p a = q b) {xs : List α} {ys : List β} (h : Forall₂ R xs ys) :
    Option.Rel R (xs.find? p) (ys.find? q) := by
  induction h with
  | nil => exact .none
  | @cons a b as bs hab _ ih =>
    rw [List.find?_cons, List.find?_cons, ← hpq a b hab]
    cases p a with
    | true => exact .some hab
    | false => exact ih

theorem any (hpq : ∀ a b, R a b → p a = q b) {xs : List α} {ys : List β} (h : Forall₂ R xs ys) :
    xs.any p = ys.any q := by
  induction h with
  | nil => rfl
  | @cons a b as bs hab _ ih => rw [List.any_cons, List.any_cons, hpq a b hab, ih]

theorem isEmpty {xs : List α} {ys : List β} (h : Forall₂ R xs ys) : xs.isEmpty = ys.isEmpty := by
  cases h <;> rfl

theorem head? {xs : List α} {ys : List β} (h : Forall₂ R xs ys) :
    Option.Rel R xs.head? ys.head? := by
  cases h with
  | nil => exact .none
  | cons hab _ => exact .some hab

theorem getLast? {xs : List α} {ys : List β} (h : Forall₂ R xs ys) :
    Option.Rel R xs.getLast? ys.getLast? := by
  rw [← List.head?_reverse, ← List.head?_reverse]
  exact head? (List.forall₂_reverse_iff.mpr h)

theorem getD {xs : List α} {ys : List β} (h : Forall₂ R xs ys) {a : α} {b : β} (hab : R a b) :
    ∀ i : ℕ, R (xs.getD i a) (ys.getD i b) := by
  induction h with
  | nil => exact fun _ => hab
  | cons hhead _ ih =>
    intro i
    cases i with
    | zero => exact hhead
    | succ i => exact ih i

theorem set {xs : List α} {ys : List β} (h : Forall₂ R xs ys) {a : α} {b : β} (hab : R a b) :
    ∀ i : ℕ, Forall₂ R (xs.set i a) (ys.set i b) := by
  induction h with
  | nil => exact fun _ => .nil
  | cons hhead htail ih =>
    intro i
    cases i with
    | zero => exact .cons hab htail
    | succ i => exact .cons hhead (ih i)

theorem map_eq {γ : Type} {f : α → γ} {g : β → γ} (hfg : ∀ a b, R a b → f a = g b) {xs : List α}
    {ys : List β} (h : Forall₂ R xs ys) : xs.map f = ys.map g := by
  induction h with
  | nil => rfl
  | @cons a b as bs hab _ ih => rw [List.map_cons, List.map_cons, hfg a b hab, ih]

/-- A list goes in step with itself. -/
theorem self {R : α → α → Prop} (hR : ∀ a, R a a) (xs : List α) : Forall₂ R xs xs :=
  List.forall₂_same.mpr fun a _ => hR a

end DNSentinel.Lib.Aligned
