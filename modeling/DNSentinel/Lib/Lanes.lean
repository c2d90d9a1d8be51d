import DNSentinel.Lib.Tables

/-! # Tables with a shared entry

A table of so many entries at most, and one entry more that is shared by the keys that find it full. A key
is charged on its own entry or on the shared one (`Lane`). A full table is swept before a new key is
looked at, but not twice in a period. `charge_spec` is the rule for invariants: what holds of the entry
of each lane, and still holds when an idle entry is dropped, holds of the entry that is charged, before it
is, and of all others, after it. -/

namespace DNSentinel.Lib.Lanes

open Tables

variable {κ ν ρ : Type} [DecidableEq κ]

inductive Lane (κ : Type) where
  | own (key : κ)
  | shared
deriving DecidableEq

structure Laned (κ ν : Type) where
  entries : List (κ × ν)
  overflow : Option ν
  lastSweep : ℕ

/-- How a table is kept at the time `now`: an entry that is charged gives a result and the new entry. -/
structure Rules (ν ρ : Type) where
  room : ℕ
  period : ℕ
  now : ℕ
  idle : ν → Bool
  fresh : ν
  use : ν → ρ × ν

namespace Laned

def entry (t : Laned κ ν) : Lane κ → Option ν
  | .own key => t.entries.lookup key
  | .shared => t.overflow

def full (r : Rules ν ρ) (t : Laned κ ν) : Bool := decide (r.room ≤ t.entries.length)

def sweep (r : Rules ν ρ) (t : Laned κ ν) : Laned κ ν :=
  if t.full r && decide (t.lastSweep + r.period ≤ r.now) then
    { t with entries := t.entries.filter fun e => !r.idle e.2, lastSweep := r.now }
  else t

def lane (r : Rules ν ρ) (t : Laned κ ν) (key : κ) : Lane κ :=
  match t.entries.lookup key with
  | some _ => .own key
  | none => if (t.sweep r).full r then .shared else .own key

def charge (r : Rules ν ρ) (t : Laned κ ν) (key : κ) : ρ × Laned κ ν :=
  match t.entries.lookup key with
  | some v => ((r.use v).1, { t with entries := assign t.entries key (r.use v).2 })
  | none =>
    let t := t.sweep r
    if t.full r then
      ((r.use (t.overflow.getD r.fresh)).1, { t with overflow := some (r.use (t.overflow.getD r.fresh)).2 })
    else ((r.use r.fresh).1, { t with entries := (key, (r.use r.fresh).2) :: t.entries })

/-- No key has two entries, and there are not too many. -/
structure Sized (room : ℕ) (t : Laned κ ν) : Prop where
  nodup : (keys t.entries).Nodup
  length_le : t.entries.length ≤ room

variable {r : Rules ν ρ} {t : Laned κ ν} {key : κ}

omit [DecidableEq κ] in
theorem Sized.sweep (h : t.Sized r.room) : (t.sweep r).Sized r.room := by
  unfold Laned.sweep
  split_ifs
  · exact ⟨nodup_filter h.nodup _, Nat.le_trans (List.length_filter_le ..) h.length_le⟩
  · exact h

/-- A sweep leaves the entry of a lane, or drops an idle one. -/
theorem entry_sweep (h : t.Sized r.room) (lane : Lane κ) : (t.sweep r).entry lane = t.entry lane ∨
    ∃ v, t.entry lane = some v ∧ (t.sweep r).entry lane = none ∧ r.idle v = true := by
  unfold sweep
  split_ifs
  · cases lane with
    | shared => exact .inl rfl
    | own key =>
      show List.lookup key (t.entries.filter _) = t.entries.lookup key ∨ ∃ v, t.entries.lookup key = some v ∧
        List.lookup key (t.entries.filter _) = none ∧ r.idle v = true
      rw [lookup_filter h.nodup]
      cases hv : t.entries.lookup key with
      | none => exact .inl rfl
      | some v =>
        by_cases hidle : r.idle v = true
        · exact .inr ⟨v, rfl, by simp [hidle], hidle⟩
        · exact .inl (by simp [hidle])
  · exact .inl rfl

/-- What is charged, in the table that was swept if it had to be: the entry of one lane, and no other. -/
structure Charged (r : Rules ν ρ) (t : Laned κ ν) (lane : Lane κ) (x : ρ × Laned κ ν) : Prop where
  result : x.1 = (r.use ((t.entry lane).getD r.fresh)).1
  charged : x.2.entry lane = some (r.use ((t.entry lane).getD r.fresh)).2
  others : ∀ lane', lane' ≠ lane → x.2.entry lane' = t.entry lane'
  sized : x.2.Sized r.room

theorem charged_known {v : ν} (h : t.Sized r.room) (hv : t.entries.lookup key = some v) :
    Charged r t (.own key) (t.charge r key) := by
  have hentry : t.entry (.own key) = some v := hv
  have hcharge : t.charge r key =
      ((r.use v).1, { t with entries := assign t.entries key (r.use v).2 }) := by rw [charge, hv]
  have hset : ∀ key', (assign t.entries key (r.use v).2).lookup key' =
      if key' = key then some (r.use v).2 else t.entries.lookup key' := by
    intro key'
    rw [lookup_assign, hv]
    rfl
  rw [hcharge]
  refine ⟨by rw [hentry]; rfl, ?_, fun lane hlane => ?_, ?_, ?_⟩
  · rw [hentry]
    exact (hset key).trans (if_pos rfl)
  · cases lane with
    | shared => rfl
    | own key' => exact (hset key').trans (if_neg fun heq => hlane (by rw [heq]))
  · show (keys (assign t.entries key (r.use v).2)).Nodup
    rw [keys_assign]
    exact h.nodup
  · show (assign t.entries key (r.use v).2).length ≤ r.room
    rw [assign, List.length_map]
    exact h.length_le

theorem charged_new (h : t.Sized r.room) (hnone : t.entries.lookup key = none) :
    Charged r (t.sweep r) (t.lane r key) (t.charge r key) := by
  have hswept : (t.sweep r).entry (.own key) = none := by
    rcases entry_sweep h (.own key) with heq | ⟨v, hv, -⟩
    · exact heq.trans hnone
    · exact absurd (hnone.symm.trans hv) (by simp)
  have hsized := h.sweep
  rw [lane, charge, hnone]
  generalize t.sweep r = t at hswept hsized ⊢
  dsimp only
  by_cases hfull : t.full r = true
  · rw [if_pos hfull, if_pos hfull]
    refine ⟨rfl, rfl, fun lane hlane => ?_, hsized.nodup, hsized.length_le⟩
    cases lane with
    | shared => exact absurd rfl hlane
    | own key => rfl
  · have hroom : t.entries.length < r.room := by simpa [full] using hfull
    rw [if_neg hfull, if_neg hfull]
    refine ⟨by rw [hswept]; rfl, ?_, fun lane hlane => ?_, ?_, hroom⟩
    · rw [hswept]
      exact List.lookup_cons_self
    · cases lane with
      | shared => rfl
      | own key' =>
        have hne : (key' == key) = false := beq_false_of_ne fun heq => hlane (by rw [heq])
        show List.lookup key' ((key, _) :: t.entries) = t.entries.lookup key'
        rw [List.lookup_cons, hne]
    · exact List.nodup_cons.mpr ⟨lookup_eq_none.mp hswept, hsized.nodup⟩

theorem charged_charge (h : t.Sized r.room) (key : κ) : ∃ t₁, (t₁ = t ∨ t₁ = t.sweep r) ∧
    Charged r t₁ (t.lane r key) (t.charge r key) := by
  cases hv : t.entries.lookup key with
  | some v =>
    have hlane : t.lane r key = .own key := by rw [lane, hv]
    exact ⟨t, .inl rfl, hlane ▸ charged_known h hv⟩
  | none => exact ⟨t.sweep r, .inr rfl, charged_new h hv⟩

/-- **The rule for invariants** of the entries of all lanes. -/
theorem charge_spec {P : Lane κ → Option ν → Prop} (h : t.Sized r.room) (hP : ∀ lane, P lane (t.entry lane))
    (hidle : ∀ lane v, P lane (some v) → r.idle v = true → P lane none) (key : κ) :
    (∃ o, P (t.lane r key) o ∧ (t.charge r key).1 = (r.use (o.getD r.fresh)).1 ∧
      (t.charge r key).2.entry (t.lane r key) = some (r.use (o.getD r.fresh)).2) ∧
    (∀ lane, lane ≠ t.lane r key → P lane ((t.charge r key).2.entry lane)) ∧
    (t.charge r key).2.Sized r.room := by
  obtain ⟨t₁, ht₁, hcharged⟩ := charged_charge h key
  have hkept : ∀ lane, P lane (t₁.entry lane) := by
    intro lane
    rcases ht₁ with rfl | rfl
    · exact hP lane
    · rcases entry_sweep h lane with heq | ⟨v, hv, hnone, hv'⟩
      · exact heq ▸ hP lane
      · rw [hnone]
        exact hidle lane v (hv ▸ hP lane) hv'
  exact ⟨⟨_, hkept _, hcharged.result, hcharged.charged⟩,
    fun lane hlane => hcharged.others lane hlane ▸ hkept lane, hcharged.sized⟩

theorem idle_of_dropped (lane : Lane κ) {v : ν} (h : t.Sized r.room) (hv : t.entry lane = some v)
    (hgone : (t.charge r key).2.entry lane = none) : r.idle v = true := by
  obtain ⟨t₁, ht₁, hcharged⟩ := charged_charge h key
  have hnone : t₁.entry lane = none := by
    rw [← hgone]
    refine (hcharged.others lane fun heq => ?_).symm
    rw [heq, hcharged.charged] at hgone
    cases hgone
  rcases ht₁ with rfl | rfl
  · exact absurd (hv.symm.trans hnone) (by simp)
  · rcases entry_sweep h lane with heq | ⟨v', hv', -, hidle⟩
    · exact absurd (hv.symm.trans (heq.symm.trans hnone)) (by simp)
    · rwa [Option.some.inj (hv.symm.trans hv')]

end Laned

end DNSentinel.Lib.Lanes
