import Mathlib.Data.List.Nodup

/-! # Tables as lists of pairs

A table is a list of keys with their values in which no key occurs twice. The operations are those of
`std::unordered_map`: `lookup`, overwriting a value, a new key, `erase_if`. -/

namespace DNSentinel.Lib.Tables

variable {κ ν : Type} [DecidableEq κ]

def keys (t : List (κ × ν)) : List κ := t.map Prod.fst

/-- The value of a key that is there is overwritten. -/
def assign (t : List (κ × ν)) (k : κ) (v : ν) : List (κ × ν) :=
  t.map fun e => if e.1 = k then (k, v) else e

variable {t : List (κ × ν)} {k k' : κ} {v : ν}

omit [DecidableEq κ] in
theorem mem_keys (h : (k, v) ∈ t) : k ∈ keys t := List.mem_map.mpr ⟨(k, v), h, rfl⟩

theorem mem_of_lookup : ∀ {t : List (κ × ν)}, t.lookup k = some v → (k, v) ∈ t
  | [], h => by simp at h
  | (k₁, v₁) :: t, h => by
    rw [List.lookup_cons] at h
    by_cases hk : k = k₁
    · subst hk
      simp only [beq_self_eq_true] at h
      rw [Option.some.inj h]
      exact List.mem_cons_self
    · rw [beq_false_of_ne hk] at h
      exact List.mem_cons_of_mem _ (mem_of_lookup h)

theorem lookup_eq_none : t.lookup k = none ↔ k ∉ keys t := by
  rw [List.lookup_eq_none_iff, keys, List.mem_map]
  constructor
  · rintro h ⟨e, he, rfl⟩
    simpa using h e he
  · intro h e he
    exact bne_iff_ne.mpr fun hk => h ⟨e, he, hk.symm⟩

theorem lookup_of_mem : ∀ {t : List (κ × ν)}, (keys t).Nodup → (k, v) ∈ t → t.lookup k = some v
  | [], _, h => by simp at h
  | (k₁, v₁) :: t, hnodup, h => by
    obtain ⟨hnew, hrest⟩ := List.nodup_cons.mp hnodup
    rw [List.lookup_cons]
    rcases List.mem_cons.mp h with heq | hmem
    · obtain ⟨rfl, rfl⟩ := Prod.mk.inj heq
      rw [beq_self_eq_true]
    · have hk : k ≠ k₁ := by
        rintro rfl
        exact hnew (mem_keys hmem)
      rw [beq_false_of_ne hk]
      exact lookup_of_mem hrest hmem

theorem keys_assign (t : List (κ × ν)) (k : κ) (v : ν) : keys (assign t k v) = keys t := by
  unfold keys assign
  rw [List.map_map]
  refine List.map_congr_left fun e _ => ?_
  by_cases he : e.1 = k
  · simp [he]
  · simp [he]

theorem lookup_assign : ∀ (t : List (κ × ν)) (k : κ) (v : ν) (k' : κ),
    (assign t k v).lookup k' = if k' = k then (t.lookup k).map fun _ => v else t.lookup k'
  | [], k, v, k' => by simp [assign]
  | (k₁, v₁) :: t, k, v, k' => by
    have ih := lookup_assign t k v k'
    unfold assign at ih ⊢
    rw [List.map_cons, List.lookup_cons, List.lookup_cons, List.lookup_cons, ih]
    by_cases hk₁ : k₁ = k
    · subst hk₁
      by_cases hk' : k' = k₁
      · simp [hk']
      · simp [hk', beq_false_of_ne hk']
    · by_cases hk' : k' = k
      · subst hk'
        have hne : (k' == k₁) = false := beq_false_of_ne fun h => hk₁ h.symm
        simp [hk₁, hne]
      · simp [hk₁, hk']

omit [DecidableEq κ] in
theorem nodup_filter (h : (keys t).Nodup) (p : κ × ν → Bool) : (keys (t.filter p)).Nodup :=
  h.sublist (List.filter_sublist.map Prod.fst)

theorem lookup_filter (h : (keys t).Nodup) (p : κ × ν → Bool) (k : κ) :
    (t.filter p).lookup k = (t.lookup k).filter fun v => p (k, v) := by
  cases hk : t.lookup k with
  | none =>
    rw [Option.filter_none, lookup_eq_none]
    intro hmem
    refine lookup_eq_none.mp hk ?_
    exact (List.filter_sublist.map Prod.fst).subset hmem
  | some v =>
    have hmem := mem_of_lookup hk
    by_cases hp : p (k, v) = true
    · rw [Option.filter_some, if_pos hp]
      exact lookup_of_mem (nodup_filter h p) (List.mem_filter.mpr ⟨hmem, hp⟩)
    · rw [Option.filter_some, if_neg hp, lookup_eq_none]
      intro hkept
      obtain ⟨⟨k₁, v₁⟩, he, rfl⟩ := List.mem_map.mp hkept
      obtain ⟨he, hp₁⟩ := List.mem_filter.mp he
      obtain rfl : v = v₁ := Option.some.inj (hk.symm.trans (lookup_of_mem h he))
      exact hp hp₁

end DNSentinel.Lib.Tables
