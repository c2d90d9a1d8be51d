import Mathlib.Data.Rat.Cast.Order
import Mathlib.Tactic.Linarith
import Mathlib.Tactic.Positivity
import Mathlib.Tactic.Ring

/-! # Metered takings

A reservoir holds at most `B` and fills at most at the rate `r`. Each taking takes one. `Metered`
states what follows for the times of the takings: at most `B + r * (b - a)` of them fall into any
interval from `a` to `b`. Waiting and taking keep it. -/

namespace DNSentinel.Lib.Metering

variable {B r level level' : ℚ} {takings : List ℕ} {now now' : ℕ}

/-- The takings from `a` on. -/
def since (takings : List ℕ) (a : ℕ) : ℕ := takings.countP fun t => decide (a ≤ t)

/-- The takings from `a` to `b`. -/
def within (takings : List ℕ) (a b : ℕ) : ℕ := takings.countP fun t => decide (a ≤ t) && decide (t ≤ b)

/-- At the time `now` the reservoir holds `level`, after the given takings. -/
structure Metered (B r : ℚ) (takings : List ℕ) (now : ℕ) (level : ℚ) : Prop where
  past : ∀ t ∈ takings, t ≤ now
  nonneg : 0 ≤ level
  since_le : ∀ a ≤ now, (since takings a : ℚ) + level ≤ B + r * ((now : ℚ) - a)
  within_le : ∀ a b, a ≤ b → (within takings a b : ℚ) ≤ B + r * ((b : ℚ) - a)

namespace Metered

theorem start (hB : 0 ≤ B) (hr : 0 ≤ r) (now : ℕ) : Metered B r [] now B where
  past := by simp
  nonneg := hB
  since_le a ha := by
    have hlater : (0 : ℚ) ≤ (now : ℚ) - a := sub_nonneg.mpr (by exact_mod_cast ha)
    have hgrown := mul_nonneg hr hlater
    simp only [since, List.countP_nil, Nat.cast_zero]
    linarith
  within_le a b hab := by
    have hlater : (0 : ℚ) ≤ (b : ℚ) - a := sub_nonneg.mpr (by exact_mod_cast hab)
    have hgrown := mul_nonneg hr hlater
    simp only [within, List.countP_nil, Nat.cast_zero]
    linarith

/-- Time passes: the level rises at the rate `r` at most, and not above `B`. -/
theorem wait (h : Metered B r takings now level) (hr : 0 ≤ r) (hnow : now ≤ now')
    (hnonneg : 0 ≤ level') (hcap : level' ≤ B)
    (hrise : level' ≤ level + r * ((now' : ℚ) - now)) : Metered B r takings now' level' where
  past t ht := (h.past t ht).trans hnow
  nonneg := hnonneg
  since_le a ha := by
    by_cases hearly : a ≤ now
    · have hsince := h.since_le a hearly
      have hsplit : r * ((now' : ℚ) - a) = r * ((now' : ℚ) - now) + r * ((now : ℚ) - a) := by ring
      linarith
    · -- nothing was taken since
      have hnone : since takings a = 0 := by
        refine List.countP_eq_zero.mpr fun t ht => ?_
        have hpast := h.past t ht
        simp only [decide_eq_true_eq]
        omega
      have hlater : (0 : ℚ) ≤ (now' : ℚ) - a := sub_nonneg.mpr (by exact_mod_cast ha)
      have hgrown := mul_nonneg hr hlater
      rw [hnone]
      simp only [Nat.cast_zero]
      linarith
  within_le := h.within_le

/-- One is taken, if the level is at least one. -/
theorem take (h : Metered B r takings now level) (hr : 0 ≤ r) (hone : 1 ≤ level) :
    Metered B r (now :: takings) now (level - 1) where
  past t ht := by
    rcases List.mem_cons.mp ht with rfl | ht
    · exact le_rfl
    · exact h.past t ht
  nonneg := by linarith
  since_le a ha := by
    have hsince := h.since_le a ha
    have hcount : since (now :: takings) a = since takings a + 1 := by
      unfold since
      rw [List.countP_cons_of_pos (by simpa using ha)]
    rw [hcount]
    push_cast
    linarith
  within_le a b hab := by
    by_cases hin : a ≤ now ∧ now ≤ b
    · have hsince := h.since_le a hin.1
      have hle : within takings a b ≤ since takings a := by
        refine List.countP_mono_left fun t _ ht => ?_
        simp only [Bool.and_eq_true] at ht
        exact ht.1
      have hcount : within (now :: takings) a b = within takings a b + 1 := by
        unfold within
        rw [List.countP_cons_of_pos (by simpa using hin)]
      have hlater : (0 : ℚ) ≤ (b : ℚ) - now := sub_nonneg.mpr (by exact_mod_cast hin.2)
      have hgrown := mul_nonneg hr hlater
      have hsplit : r * ((b : ℚ) - a) = r * ((b : ℚ) - now) + r * ((now : ℚ) - a) := by ring
      have hcast : (within takings a b : ℚ) ≤ since takings a := by exact_mod_cast hle
      rw [hcount]
      push_cast
      linarith
    · have hcount : within (now :: takings) a b = within takings a b := by
        unfold within
        rw [List.countP_cons_of_neg (by simpa using hin)]
      rw [hcount]
      exact h.within_le a b hab

end Metered

end DNSentinel.Lib.Metering
