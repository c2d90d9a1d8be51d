import Mathlib.Data.Finset.Max
import Mathlib.Data.List.Basic

/-! # Counting windows

Things are counted in windows of the length `W`, each begun when it is first needed. Different
windows begin at least `W` apart, and what is counted in a window falls into it. So a span shorter
than `W` meets two windows at most: a cap for every window is twice that for the span. -/

namespace DNSentinel.Lib.Windows

variable {α : Type} {W : ℕ} {start time : α → ℕ} {log : List α}

/-- What is in `log` was counted at `time` in the window that began at `start`. -/
structure Windowed (W : ℕ) (start time : α → ℕ) (log : List α) : Prop where
  inside : ∀ x ∈ log, start x ≤ time x ∧ time x < start x + W
  apart : ∀ x ∈ log, ∀ y ∈ log, start x = start y ∨ start x + W ≤ start y ∨ start y + W ≤ start x

namespace Windowed

theorem empty : Windowed W start time ([] : List α) := ⟨by simp, by simp⟩

/-- Something is counted in the last window, or in a new one. -/
theorem snoc (h : Windowed W start time log) {x : α} (hx : start x ≤ time x ∧ time x < start x + W)
    (hlast : ∀ y ∈ log, start y = start x ∨ start y + W ≤ start x) :
    Windowed W start time (log ++ [x]) := by
  refine ⟨fun y hy => ?_, fun y hy z hz => ?_⟩
  · rcases List.mem_append.mp hy with hy | hy
    · exact h.inside y hy
    · rw [List.mem_singleton.mp hy]
      exact hx
  · rcases List.mem_append.mp hy with hy | hy <;> rcases List.mem_append.mp hz with hz | hz
    · exact h.apart y hy z hz
    · rw [List.mem_singleton.mp hz]
      rcases hlast y hy with heq | hbefore
      · exact .inl heq
      · exact .inr (.inl hbefore)
    · rw [List.mem_singleton.mp hy]
      rcases hlast z hz with heq | hbefore
      · exact .inl heq.symm
      · exact .inr (.inr hbefore)
    · rw [List.mem_singleton.mp hy, List.mem_singleton.mp hz]
      exact .inl rfl

/-- A short span meets two windows at most. -/
theorem two_starts (h : Windowed W start time log) {a b : ℕ} (hab : b < a + W) :
    ∃ w₁ w₂, ∀ x ∈ log, a ≤ time x → time x ≤ b → start x = w₁ ∨ start x = w₂ := by
  let met := log.filter fun x => decide (a ≤ time x) && decide (time x ≤ b)
  have hmet : ∀ x, x ∈ met ↔ x ∈ log ∧ a ≤ time x ∧ time x ≤ b := by
    intro x
    simp [met]
  by_cases hnone : met = []
  · refine ⟨0, 0, fun x hx ha hb => ?_⟩
    have hx' : x ∈ met := (hmet x).mpr ⟨hx, ha, hb⟩
    simp [hnone] at hx'
  · have hstarts : ((met.map start).toFinset).Nonempty := by
      obtain ⟨x, hx⟩ := List.exists_mem_of_ne_nil met hnone
      exact ⟨start x, List.mem_toFinset.mpr (List.mem_map_of_mem hx)⟩
    -- the first window and the last one; a third would lie `W` from both
    obtain ⟨x₁, hx₁, hmin⟩ := List.mem_map.mp (List.mem_toFinset.mp (Finset.min'_mem _ hstarts))
    obtain ⟨x₂, hx₂, hmax⟩ := List.mem_map.mp (List.mem_toFinset.mp (Finset.max'_mem _ hstarts))
    refine ⟨start x₁, start x₂, fun x hx ha hb => ?_⟩
    have hmem : start x ∈ (met.map start).toFinset :=
      List.mem_toFinset.mpr (List.mem_map_of_mem ((hmet x).mpr ⟨hx, ha, hb⟩))
    have hlow : start x₁ ≤ start x := hmin ▸ Finset.min'_le _ _ hmem
    have hhigh : start x ≤ start x₂ := hmax ▸ Finset.le_max' _ _ hmem
    obtain ⟨hlog₁, ha₁, -⟩ := (hmet x₁).mp hx₁
    obtain ⟨hlog₂, -, hb₂⟩ := (hmet x₂).mp hx₂
    have hin₁ := h.inside x₁ hlog₁
    have hin₂ := h.inside x₂ hlog₂
    rcases h.apart x₁ hlog₁ x hx with heq | hbefore | hafter
    · exact .inl heq.symm
    · rcases h.apart x hx x₂ hlog₂ with heq' | hbefore' | hafter'
      · exact .inr heq'
      · omega
      · omega
    · omega

/-- **A cap for every window is twice that for every short span.** -/
theorem span_le (h : Windowed W start time log) (p : α → Bool) {cap : ℕ}
    (hcap : ∀ w, log.countP (fun x => p x && (start x == w)) ≤ cap) {a b : ℕ} (hab : b < a + W) :
    log.countP (fun x => p x && (decide (a ≤ time x) && decide (time x ≤ b))) ≤ 2 * cap := by
  obtain ⟨w₁, w₂, hstarts⟩ := h.two_starts hab
  have hsplit : log.countP (fun x => p x && (decide (a ≤ time x) && decide (time x ≤ b))) ≤
      log.countP (fun x => p x && (start x == w₁) || p x && (start x == w₂)) := by
    refine List.countP_mono_left fun x hx hcounted => ?_
    simp only [Bool.and_eq_true, decide_eq_true_eq] at hcounted
    obtain ⟨hp, ha, hb⟩ := hcounted
    rcases hstarts x hx ha hb with heq | heq
    · simp [hp, heq]
    · simp [hp, heq]
  have hor : ∀ l : List α, l.countP (fun x => p x && (start x == w₁) || p x && (start x == w₂)) ≤
      l.countP (fun x => p x && (start x == w₁)) + l.countP (fun x => p x && (start x == w₂)) := by
    intro l
    induction l with
    | nil => simp
    | cons x l ih =>
      rw [List.countP_cons, List.countP_cons, List.countP_cons]
      cases p x && (start x == w₁) <;> cases p x && (start x == w₂) <;>
        simp only [Bool.or_false, Bool.or_true, if_true, Bool.false_eq_true, if_false] <;> omega
  have hboth := hor log
  have h₁ := hcap w₁
  have h₂ := hcap w₂
  omega

end Windowed

end DNSentinel.Lib.Windows
