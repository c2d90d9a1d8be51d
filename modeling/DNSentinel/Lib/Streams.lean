import Mathlib.Data.List.Basic

/-! # Items of a stream

A decoder takes the first item off a stream, if it has all arrived. What arrives later does not change
it (`stable`), so the items taken so far are the first items of whatever has arrived (`Taken.items`). -/

namespace DNSentinel.Lib.Streams

variable {α β : Type}

structure Decoder (α β : Type) where
  next : List α → Option (β × List α)
  shrinks : ∀ {xs x rest}, next xs = some (x, rest) → rest.length < xs.length
  stable : ∀ {xs x rest} (ys : List α), next xs = some (x, rest) →
    next (xs ++ ys) = some (x, rest ++ ys)

namespace Decoder

def itemsLoop (d : Decoder α β) : ℕ → List α → List β
  | 0, _ => []
  | fuel + 1, xs =>
    match d.next xs with
    | none => []
    | some (x, rest) => x :: itemsLoop d fuel rest

/-- The items that have arrived. -/
def items (d : Decoder α β) (xs : List α) : List β := d.itemsLoop xs.length xs

variable {d : Decoder α β} {xs rest : List α} {x : β} {taken : List β}

theorem itemsLoop_fuel : ∀ {fuel fuel' : ℕ} {xs : List α}, xs.length ≤ fuel → xs.length ≤ fuel' →
    d.itemsLoop fuel xs = d.itemsLoop fuel' xs
  | 0, 0, _, _, _ => rfl
  | 0, fuel' + 1, xs, h, _ => by
    unfold itemsLoop
    cases hx : d.next xs with
    | none => rfl
    | some y => exact absurd (d.shrinks hx) (by omega)
  | fuel + 1, 0, xs, _, h => by
    unfold itemsLoop
    cases hx : d.next xs with
    | none => rfl
    | some y => exact absurd (d.shrinks hx) (by omega)
  | fuel + 1, fuel' + 1, xs, h, h' => by
    unfold itemsLoop
    cases hx : d.next xs with
    | none => rfl
    | some y =>
      have hless := d.shrinks hx
      exact congrArg (y.1 :: ·) (itemsLoop_fuel (by omega) (by omega))

theorem items_cons (h : d.next xs = some (x, rest)) : d.items xs = x :: d.items rest := by
  have hless := d.shrinks h
  have hloop : d.itemsLoop (xs.length - 1 + 1) xs = x :: d.itemsLoop (xs.length - 1) rest := by
    rw [itemsLoop, h]
  rw [Nat.sub_add_cancel (by omega)] at hloop
  rw [items, hloop, items]
  exact congrArg (x :: ·) (itemsLoop_fuel (by omega) (Nat.le_refl _))

/-- These items have been taken off a stream, and this is left. -/
inductive Taken (d : Decoder α β) : List α → List β → List α → Prop
  | nil (xs : List α) : Taken d xs [] xs
  | cons {xs rest left : List α} {x : β} {taken : List β} (h : d.next xs = some (x, rest))
      (hrest : Taken d rest taken left) : Taken d xs (x :: taken) left

theorem Taken.snoc {left : List α} (h : Taken d xs taken rest) (hx : d.next rest = some (x, left)) :
    Taken d xs (taken ++ [x]) left := by
  induction h with
  | nil xs => exact .cons hx (.nil left)
  | cons hy _ ih => exact .cons hy (ih hx)

theorem Taken.append (h : Taken d xs taken rest) (ys : List α) :
    Taken d (xs ++ ys) taken (rest ++ ys) := by
  induction h with
  | nil xs => exact .nil (xs ++ ys)
  | cons hx _ ih => exact .cons (d.stable ys hx) ih

theorem Taken.items (h : Taken d xs taken rest) : d.items xs = taken ++ d.items rest := by
  induction h with
  | nil xs => rfl
  | cons hx _ ih => rw [items_cons hx, ih, List.cons_append]

/-! ### What is encoded -/

section Encodes

variable {γ : Type} {encode : γ → List α} {item : γ → β}

/-- The decoder takes off what `encode` has written. -/
def Encodes (d : Decoder α β) (encode : γ → List α) (item : γ → β) : Prop :=
  ∀ x ys, d.next (encode x ++ ys) = some (item x, ys)

theorem items_flatMap (h : Encodes d encode item) : ∀ xs : List γ,
    d.items (xs.flatMap encode) = xs.map item
  | [] => rfl
  | x :: xs => by rw [List.flatMap_cons, items_cons (h x _), items_flatMap h xs, List.map_cons]

end Encodes

theorem items_of_next_none (h : d.next xs = none) : d.items xs = [] := by
  unfold items
  cases xs.length with
  | zero => rfl
  | succ n => rw [itemsLoop, h]

/-- What arrives later adds to the items. -/
theorem items_prefix_append (ys : List α) (xs : List α) : d.items xs <+: d.items (xs ++ ys) := by
  induction hn : xs.length using Nat.strongRecOn generalizing xs with
  | ind n ih =>
    cases hx : d.next xs with
    | none =>
      rw [items_of_next_none hx]
      exact List.nil_prefix
    | some found =>
      obtain ⟨x, rest⟩ := found
      have hless := d.shrinks hx
      rw [items_cons hx, items_cons (d.stable ys hx), List.prefix_cons_inj]
      exact ih rest.length (by omega) rest rfl

end Decoder

end DNSentinel.Lib.Streams
