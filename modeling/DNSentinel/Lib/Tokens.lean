import Mathlib.Data.List.Nodup
import Mathlib.Logic.Function.Basic

/-! # A ledger of tokens

Tokens `0, 1, …` are issued in order. A token is held by somebody, then queued, then spent, and never
in two places: `Ledger` states this for every token issued so far. The three moves keep it. -/

namespace DNSentinel.Lib.Tokens

variable {ι : Type} [DecidableEq ι] {held : ι → List ℕ} {queued spent : List ℕ} {next : ℕ}

/-- Every token issued is in exactly one place, once. -/
structure Ledger (held : ι → List ℕ) (queued spent : List ℕ) (next : ℕ) : Prop where
  held_nodup : ∀ i, (held i).Nodup
  holder_unique : ∀ i j n, n ∈ held i → n ∈ held j → i = j
  gone_nodup : (queued ++ spent).Nodup
  held_not_gone : ∀ i n, n ∈ held i → n ∉ queued ++ spent
  issued : ∀ n, n < next ↔ (∃ i, n ∈ held i) ∨ n ∈ queued ++ spent

omit [DecidableEq ι] in
theorem ledger_empty : Ledger (fun _ : ι => []) [] [] 0 where
  held_nodup _ := List.nodup_nil
  holder_unique := by simp
  gone_nodup := List.nodup_nil
  held_not_gone := by simp
  issued := by simp

namespace Ledger

/-- A new token is issued to `i`. -/
theorem issue (h : Ledger held queued spent next) (i : ι) :
    Ledger (Function.update held i (held i ++ [next])) queued spent (next + 1) := by
  have hfresh : ∀ j, next ∉ held j := fun j hj =>
    absurd ((h.issued next).mpr (.inl ⟨j, hj⟩)) (Nat.lt_irrefl _)
  have hgone : next ∉ queued ++ spent := fun hj =>
    absurd ((h.issued next).mpr (.inr hj)) (Nat.lt_irrefl _)
  have key : ∀ j n, n ∈ Function.update held i (held i ++ [next]) j ↔
      n ∈ held j ∨ j = i ∧ n = next := by
    intro j n
    by_cases hj : j = i
    · subst hj
      simp
    · simp [hj]
  refine ⟨fun j => ?_, fun j k n hn hn' => ?_, h.gone_nodup, fun j n hn => ?_, fun n => ?_⟩
  · by_cases hj : j = i
    · subst hj
      rw [Function.update_self, List.nodup_append]
      refine ⟨h.held_nodup j, List.nodup_singleton _, fun a ha b hb => ?_⟩
      rintro rfl
      rw [List.mem_singleton.mp hb] at ha
      exact hfresh j ha
    · rw [Function.update_of_ne hj]
      exact h.held_nodup j
  · rcases (key j n).mp hn with hold | ⟨rfl, rfl⟩ <;> rcases (key k n).mp hn' with hold' | ⟨rfl, hk⟩
    · exact h.holder_unique j k n hold hold'
    · exact absurd (hk ▸ hold) (hfresh j)
    · exact absurd hold' (hfresh k)
    · rfl
  · rcases (key j n).mp hn with hn | ⟨-, rfl⟩
    · exact h.held_not_gone j n hn
    · exact hgone
  · have := h.issued n
    constructor
    · intro hlt
      by_cases hn : n = next
      · exact .inl ⟨i, (key i n).mpr (.inr ⟨rfl, hn⟩)⟩
      · rcases this.mp (by omega) with ⟨j, hj⟩ | hj
        · exact .inl ⟨j, (key j n).mpr (.inl hj)⟩
        · exact .inr hj
    · rintro (⟨j, hj⟩ | hj)
      · rcases (key j n).mp hj with hj | ⟨-, rfl⟩
        · have := this.mpr (.inl ⟨j, hj⟩)
          omega
        · omega
      · have := this.mpr (.inr hj)
        omega

/-- What `i` holds is queued. -/
theorem release (h : Ledger held queued spent next) (i : ι) :
    Ledger (Function.update held i []) (queued ++ held i) spent next := by
  have key : ∀ j n, n ∈ Function.update held i [] j ↔ j ≠ i ∧ n ∈ held j := by
    intro j n
    by_cases hj : j = i
    · subst hj
      simp
    · simp [hj]
  have gone : ∀ n, n ∈ queued ++ held i ++ spent ↔ n ∈ queued ++ spent ∨ n ∈ held i := by
    intro n
    simp only [List.mem_append]
    tauto
  refine ⟨fun j => ?_, fun j k n hn hn' => ?_, ?_, fun j n hn => ?_, fun n => ?_⟩
  · by_cases hj : j = i
    · subst hj
      rw [Function.update_self]
      exact List.nodup_nil
    · rw [Function.update_of_ne hj]
      exact h.held_nodup j
  · exact h.holder_unique j k n ((key j n).mp hn).2 ((key k n).mp hn').2
  · have hperm : (queued ++ held i ++ spent).Perm (held i ++ (queued ++ spent)) := by
      rw [← List.append_assoc]
      exact List.perm_append_comm.append_right _
    rw [hperm.nodup_iff, List.nodup_append]
    refine ⟨h.held_nodup i, h.gone_nodup, fun a ha b hb => ?_⟩
    rintro rfl
    exact h.held_not_gone i a ha hb
  · obtain ⟨hj, hn⟩ := (key j n).mp hn
    rw [gone]
    rintro (hg | hg)
    · exact h.held_not_gone j n hn hg
    · exact hj (h.holder_unique j i n hn hg)
  · rw [h.issued, gone]
    constructor
    · rintro (⟨j, hj⟩ | hj)
      · by_cases hji : j = i
        · exact .inr (.inr (hji ▸ hj))
        · exact .inl ⟨j, (key j n).mpr ⟨hji, hj⟩⟩
      · exact .inr (.inl hj)
    · rintro (⟨j, hj⟩ | hj | hj)
      · exact .inl ⟨j, ((key j n).mp hj).2⟩
      · exact .inr hj
      · exact .inl ⟨i, hj⟩

omit [DecidableEq ι] in
/-- The first token of the queue is spent. -/
theorem spend {n : ℕ} (h : Ledger held (n :: queued) spent next) :
    Ledger held queued (n :: spent) next := by
  have hperm : (queued ++ n :: spent).Perm (n :: queued ++ spent) := List.perm_middle
  refine ⟨h.held_nodup, h.holder_unique, hperm.nodup_iff.mpr h.gone_nodup, fun i m hm => ?_,
    fun m => ?_⟩
  · rw [hperm.mem_iff]
    exact h.held_not_gone i m hm
  · rw [hperm.mem_iff]
    exact h.issued m

/-- The only token that `i` holds is spent. -/
theorem settle {i : ι} {n : ℕ} (h : Ledger held [] spent next) (hi : held i = [n]) :
    Ledger (Function.update held i []) [] (n :: spent) next := by
  have hrelease := h.release i
  rw [hi] at hrelease
  exact hrelease.spend

/-- A token is issued and spent at once. -/
theorem pass {i : ι} (h : Ledger held [] spent next) (hi : held i = []) :
    Ledger held [] (next :: spent) (next + 1) := by
  have hissue := h.issue i
  rw [hi, List.nil_append] at hissue
  have hsettle := hissue.settle (Function.update_self i [next] held)
  have hsame : Function.update held i [] = held := by rw [← hi, Function.update_eq_self]
  rwa [Function.update_idem, hsame] at hsettle

end Ledger

end DNSentinel.Lib.Tokens
