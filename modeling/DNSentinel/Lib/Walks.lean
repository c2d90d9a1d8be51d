import Mathlib.Data.List.Chain
import Mathlib.Data.List.Nodup

/-! # Walks that end at a place seen before

From a place, `next` leads to at most one other. `walk` follows it until it leads nowhere or to a place
that has been seen; places are the same if they have the same `key`. If `next` leads to finitely many
places, a bound on the number of steps that exceeds the number of those not seen is never reached: the
walk has an end of its own (`walk_spec`), and a greater bound does not change it (`walk_fuel`). -/

namespace DNSentinel.Lib.Walks

variable {α β : Type} (next : α → Option α) (key : α → β)

/-- Where `next` leads from `a`, up to a place that has been seen, in at most so many steps. -/
def walk [BEq α] : ℕ → α → List α → List α
  | 0, _, _ => []
  | fuel + 1, a, seen =>
    match next a with
    | none => []
    | some b => if seen.any fun s => s == b then [] else b :: walk fuel b (seen ++ [b])

/-- The path goes where `next` leads, from place to place none of which has been seen, and it ends only
where `next` leads nowhere, or to a place that has been seen. -/
structure Walked (seen : List α) (a : α) (path : List α) : Prop where
  steps : (a :: path).IsChain fun a b => next a = some b
  distinct : ((seen ++ path).map key).Nodup
  stops : ∀ b, next (path.getLastD a) = some b → key b ∈ (seen ++ path).map key

variable {next key}

/-! ### Places not seen -/

section Unseen

variable [DecidableEq β] {places : List β}

variable (key) in
/-- How many of these places have not been seen. -/
def unseen (places : List β) (seen : List α) : ℕ :=
  (places.filter fun k => !decide (k ∈ seen.map key)).length

theorem unseen_le (places : List β) (seen : List α) : unseen key places seen ≤ places.length :=
  List.length_filter_le _ _

/-- Every new place is one less. -/
theorem unseen_snoc {seen : List α} {b : α} (hmem : key b ∈ places) (hnew : key b ∉ seen.map key) :
    unseen key places (seen ++ [b]) < unseen key places seen := by
  have hfilter : (places.filter fun k => !decide (k ∈ (seen ++ [b]).map key)) =
      (places.filter fun k => !decide (k ∈ seen.map key)).filter fun k => !decide (k = key b) := by
    rw [List.filter_filter]
    refine List.filter_congr fun k _ => ?_
    rw [Bool.eq_iff_iff]
    simp [and_comm]
  unfold unseen
  rw [hfilter, List.length_filter_lt_length_iff_exists]
  refine ⟨key b, List.mem_filter.mpr ⟨hmem, ?_⟩, ?_⟩
  · rwa [Bool.not_eq_true', decide_eq_false_iff_not]
  · simp

end Unseen

/-! ### The walk -/

section Spec

variable [BEq α] (hkey : ∀ a b : α, (a == b) = true ↔ key a = key b)
include hkey

theorem any_seen {seen : List α} {b : α} :
    (seen.any fun s => s == b) = true ↔ key b ∈ seen.map key := by
  simp only [List.any_eq_true, List.mem_map, hkey]

variable [DecidableEq β] {places : List β} (hplaces : ∀ a b, next a = some b → key b ∈ places)
include hplaces

/-- **A walk has an end of its own.** -/
theorem walk_spec : ∀ (fuel : ℕ) (a : α) (seen : List α), unseen key places seen < fuel →
    (seen.map key).Nodup → Walked next key seen a (walk next fuel a seen)
  | 0, _, _, hfuel, _ => absurd hfuel (Nat.not_lt_zero _)
  | fuel + 1, a, seen, hfuel, hseen => by
    rw [walk]
    cases hb : next a with
    | none =>
      refine ⟨.singleton a, by rwa [List.append_nil], fun b hstop => ?_⟩
      rw [List.getLastD_nil, hb] at hstop
      cases hstop
    | some b =>
      dsimp only
      by_cases hrevisit : (seen.any fun s => s == b) = true
      · rw [if_pos hrevisit]
        refine ⟨.singleton a, by rwa [List.append_nil], fun b' hstop => ?_⟩
        rw [List.getLastD_nil, hb] at hstop
        obtain rfl := Option.some.inj hstop
        rw [List.append_nil]
        exact (any_seen hkey).mp hrevisit
      · rw [if_neg hrevisit]
        have hnew : key b ∉ seen.map key := fun h => hrevisit ((any_seen hkey).mpr h)
        have hless := unseen_snoc (hplaces a b hb) hnew
        have hnodup : ((seen ++ [b]).map key).Nodup := by
          rw [List.map_append, List.nodup_append]
          refine ⟨hseen, List.nodup_singleton _, ?_⟩
          intro x hx y hy hxy
          rw [List.map_singleton, List.mem_singleton] at hy
          exact hnew (hy ▸ hxy ▸ hx)
        obtain ⟨hsteps, hdistinct, hstops⟩ :=
          walk_spec fuel b (seen ++ [b]) (by omega) hnodup
        rw [List.append_assoc, List.singleton_append] at hdistinct hstops
        refine ⟨List.isChain_cons_cons.mpr ⟨hb, hsteps⟩, hdistinct, ?_⟩
        rwa [List.getLastD_cons]

/-- More steps than there are places make no difference. -/
theorem walk_fuel : ∀ (fuel fuel' : ℕ) (a : α) (seen : List α), unseen key places seen < fuel →
    fuel ≤ fuel' → walk next fuel' a seen = walk next fuel a seen
  | 0, _, _, _, hfuel, _ => absurd hfuel (Nat.not_lt_zero _)
  | fuel + 1, 0, _, _, _, hle => absurd hle (by omega)
  | fuel + 1, fuel' + 1, a, seen, hfuel, hle => by
    rw [walk, walk]
    cases hb : next a with
    | none => rfl
    | some b =>
      dsimp only
      by_cases hrevisit : (seen.any fun s => s == b) = true
      · rw [if_pos hrevisit, if_pos hrevisit]
      · have hnew : key b ∉ seen.map key := fun h => hrevisit ((any_seen hkey).mpr h)
        have hless := unseen_snoc (hplaces a b hb) hnew
        rw [if_neg hrevisit, if_neg hrevisit,
          walk_fuel fuel fuel' b (seen ++ [b]) (by omega) (by omega)]

end Spec

end DNSentinel.Lib.Walks
