import Mathlib.Algebra.BigOperators.Group.Finset.Basic
import Mathlib.Algebra.Order.BigOperators.Group.Finset

/-! # Credit held in a table

A potential that is spread over the entries of a table with numbered entries: each entry holds some
credit, and the total over the entries below `n` changes by what one entry gains or gives up. -/

namespace DNSentinel.Lib.Potential

open Finset

variable {α : Type} {credit : α → ℕ} {table : ℕ → Option α} {n i : ℕ}

/-- What an entry holds. -/
def worth (credit : α → ℕ) (entry : Option α) : ℕ := entry.elim 0 credit

/-- What the entries below `n` hold together. -/
def total (credit : α → ℕ) (table : ℕ → Option α) (n : ℕ) : ℕ :=
  ∑ i ∈ range n, worth credit (table i)

theorem total_eq_zero (h : ∀ i x, table i = some x → credit x = 0) : total credit table n = 0 := by
  refine sum_eq_zero fun i _ => ?_
  cases hi : table i with
  | none => rfl
  | some x => exact h i x hi

theorem worth_le_total (hi : i < n) : worth credit (table i) ≤ total credit table n :=
  single_le_sum (f := fun i => worth credit (table i)) (fun _ _ => Nat.zero_le _) (mem_range.mpr hi)

theorem total_update (credit : α → ℕ) (table : ℕ → Option α) (hi : i < n) (entry : Option α) :
    total credit (Function.update table i entry) n + worth credit (table i) =
      total credit table n + worth credit entry := by
  have hmem : i ∈ range n := mem_range.mpr hi
  have hrest : ∑ j ∈ (range n).erase i, worth credit (Function.update table i entry j) =
      ∑ j ∈ (range n).erase i, worth credit (table j) := by
    refine sum_congr rfl fun j hj => ?_
    rw [Function.update_of_ne (ne_of_mem_erase hj)]
  unfold total
  rw [← add_sum_erase _ _ hmem, ← add_sum_erase _ _ hmem, hrest, Function.update_self]
  omega

theorem total_new (entry : Option α) :
    total credit (Function.update table n entry) (n + 1) =
      total credit table n + worth credit entry := by
  unfold total
  rw [sum_range_succ, Function.update_self]
  congr 1
  refine sum_congr rfl fun j hj => ?_
  rw [Function.update_of_ne (mem_range.mp hj).ne]

end DNSentinel.Lib.Potential
