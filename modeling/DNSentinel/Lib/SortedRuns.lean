import Mathlib.Data.List.Basic

/-! # Runs of sorted lists

Elements of a sorted list that belong together stand together: scanning while a predicate holds gives
the same as filtering by it. Words that are not prefixes of each other keep their lexicographic order
whatever follows them. -/

namespace DNSentinel.Lib.SortedRuns

section

variable {α : Type*} {q : α → Bool} {l : List α}

/-- What satisfies `q` comes first, so the scan finds all of it. -/
theorem takeWhile_eq_filter (h : l.Pairwise fun a b => q b = true → q a = true) :
    l.takeWhile q = l.filter q := by
  induction l with
  | nil => rfl
  | cons x l ih =>
    rw [List.pairwise_cons] at h
    by_cases hx : q x = true
    · rw [List.takeWhile_cons_of_pos hx, List.filter_cons_of_pos hx, ih h.2]
    · have hnone : l.filter q = [] := List.filter_eq_nil_iff.mpr fun y hy hq => hx (h.1 y hy hq)
      rw [List.takeWhile_cons_of_neg hx, List.filter_cons_of_neg hx, hnone]

theorem dropWhile_eq_filter (h : l.Pairwise fun a b => q b = true → q a = true) :
    l.dropWhile q = l.filter fun x => !q x := by
  induction l with
  | nil => rfl
  | cons x l ih =>
    rw [List.pairwise_cons] at h
    by_cases hx : q x = true
    · rw [List.dropWhile_cons_of_pos hx, List.filter_cons_of_neg (by simp [hx]), ih h.2]
    · have hall : (l.filter fun y => !q y) = l := by
        refine List.filter_eq_self.mpr fun y hy => ?_
        rw [Bool.not_eq_true', Bool.eq_false_iff]
        exact fun hq => hx (h.1 y hy hq)
      rw [List.dropWhile_cons_of_neg hx, List.filter_cons_of_pos (by simp [hx]), hall]

end

section

variable {α : Type*} [LT α]

/-- The first difference decides. -/
theorem append_lt_append_of_lt : ∀ {a b : List α}, a < b → ¬ a <+: b → ∀ u v, a ++ u < b ++ v
  | [], _, _, hprefix, _, _ => absurd List.nil_prefix hprefix
  | _ :: _, [], hlt, _, _, _ => absurd hlt (List.not_lt_nil _)
  | x :: a, y :: b, hlt, hprefix, u, v => by
    rw [List.cons_append, List.cons_append, List.cons_lt_cons_iff]
    rcases List.cons_lt_cons_iff.mp hlt with hxy | ⟨rfl, hab⟩
    · exact .inl hxy
    · refine .inr ⟨rfl, append_lt_append_of_lt hab (fun h => hprefix ?_) u v⟩
      exact (List.prefix_cons_inj x).mpr h

theorem lt_append_of_ne_nil {a u : List α} (h : u ≠ []) : a < a ++ u := by
  obtain ⟨x, u, rfl⟩ := List.exists_cons_of_ne_nil h
  have hlt : a ++ [] < a ++ x :: u := List.append_left_lt (List.nil_lt_cons x u)
  rwa [List.append_nil] at hlt

end

end DNSentinel.Lib.SortedRuns
