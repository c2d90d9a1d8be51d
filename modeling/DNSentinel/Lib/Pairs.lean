import Mathlib.Logic.Function.Basic
import Mathlib.Tactic.Common

/-! # Two tables that point at each other

`Matching f g`: `f` sends `a` to `b` exactly when `g` sends `b` to `a`. Pairs are added and removed on
both sides at once. The tables of a program hold entries with several fields; `field A F` is the
pointer that the field `F` of the entries of `A` is. -/

namespace DNSentinel.Lib.Pairs

variable {α β γ δ : Type}

/-- The pointers in one field of a table. -/
def field (A : α → Option γ) (F : γ → Option β) (a : α) : Option β := (A a).bind F

section

variable [DecidableEq α]

/-- A table without an entry. -/
def without (table : α → Option γ) : Option α → α → Option γ
  | none => table
  | some a => Function.update table a none

theorem update_some {f : α → Option γ} {a i : α} {x y : γ}
    (h : Function.update f a (some x) i = some y) : i = a ∧ y = x ∨ i ≠ a ∧ f i = some y := by
  by_cases hi : i = a
  · subst hi
    rw [Function.update_self] at h
    exact .inl ⟨rfl, (Option.some.inj h).symm⟩
  · rw [Function.update_of_ne hi] at h
    exact .inr ⟨hi, h⟩

theorem update_none {f : α → Option γ} {a i : α} {y : γ}
    (h : Function.update f a none i = some y) : i ≠ a ∧ f i = some y := by
  by_cases hi : i = a
  · subst hi
    rw [Function.update_self] at h
    exact absurd h (by simp)
  · rw [Function.update_of_ne hi] at h
    exact ⟨hi, h⟩

theorem without_some {f : α → Option γ} {o : Option α} {a : α} {c : γ}
    (h : without f o a = some c) : f a = some c := by
  cases o with
  | none => exact h
  | some b => exact (update_none h).2

theorem without_apply {f : α → Option γ} {o : Option α} {a : α} (h : o ≠ some a) :
    without f o a = f a := by
  cases o with
  | none => rfl
  | some b => exact Function.update_of_ne (fun hab : a = b => h (congrArg some hab.symm)) ..

theorem without_of_none {f : α → Option γ} {o : Option α} (h : ∀ a ∈ o, f a = none) :
    without f o = f := by
  cases o with
  | none => rfl
  | some a =>
    show Function.update f a none = f
    rw [← h a rfl]
    exact Function.update_eq_self a f

theorem update_without (f : α → Option γ) (o : Option α) (a : α) :
    Function.update (without f o) a none = without (Function.update f a none) o := by
  cases o with
  | none => rfl
  | some b =>
    by_cases hab : a = b
    · rw [hab]
      rfl
    · exact (Function.update_comm hab ..).symm

theorem field_update (A : α → Option γ) (a : α) (x : Option γ) (F : γ → Option β) :
    field (Function.update A a x) F = Function.update (field A F) a (x.bind F) := by
  funext i
  unfold field
  by_cases hi : i = a
  · subst hi
    simp
  · simp [hi]

theorem field_without (A : α → Option γ) (o : Option α) (F : γ → Option β) :
    field (without A o) F = without (field A F) o := by
  cases o with
  | none => rfl
  | some a => exact field_update A a none F

end

/-- `f` and `g` are partial functions inverse to each other. -/
def Matching (f : α → Option β) (g : β → Option α) : Prop := ∀ a b, f a = some b ↔ g b = some a

namespace Matching

section

variable {f : α → Option β} {g : β → Option α} {a : α} {b : β}

theorem empty : Matching (fun _ : α => (none : Option β)) fun _ => none := by simp [Matching]

theorem symm (h : Matching f g) : Matching g f := fun b a => (h a b).symm

theorem left_unique (h : Matching f g) {a' : α} (ha : f a = some b) (ha' : f a' = some b) : a = a' :=
  Option.some.inj (((h a b).mp ha).symm.trans ((h a' b).mp ha'))

variable [DecidableEq α] [DecidableEq β]

theorem add (h : Matching f g) (ha : f a = none) (hb : g b = none) :
    Matching (Function.update f a (some b)) (Function.update g b (some a)) := by
  intro i j
  have hij := h i j
  by_cases hi : i = a <;> by_cases hj : j = b
  · simp [hi, hj]
  · subst hi
    simp only [Function.update_self, Function.update_of_ne hj, Option.some.injEq]
    constructor
    · exact fun hbj => absurd hbj.symm hj
    · intro hg
      rw [hij.mpr hg] at ha
      exact absurd ha (by simp)
  · subst hj
    simp only [Function.update_self, Function.update_of_ne hi, Option.some.injEq]
    constructor
    · intro hf
      rw [hij.mp hf] at hb
      exact absurd hb (by simp)
    · exact fun hai => absurd hai.symm hi
  · simpa [hi, hj] using hij

theorem remove (h : Matching f g) (ha : f a = some b) :
    Matching (Function.update f a none) (Function.update g b none) := by
  have hb : g b = some a := (h a b).mp ha
  intro i j
  by_cases hi : i = a <;> by_cases hj : j = b
  · simp [hi, hj]
  · subst hi
    simp only [Function.update_self, Function.update_of_ne hj, reduceCtorEq, false_iff]
    intro hg
    rw [(h i j).mpr hg] at ha
    exact hj (Option.some.inj ha)
  · subst hj
    simp only [Function.update_self, Function.update_of_ne hi, reduceCtorEq, iff_false]
    intro hf
    rw [(h i j).mp hf] at hb
    exact hi (Option.some.inj hb)
  · simpa [hi, hj] using h i j

/-- What `a` is paired with, if anything, is removed. -/
theorem remove_left (h : Matching f g) (a : α) :
    Matching (Function.update f a none) (without g (f a)) := by
  cases ha : f a with
  | none =>
    have hsame : Function.update f a none = f := by
      rw [← ha]
      exact Function.update_eq_self a f
    rw [hsame]
    exact h
  | some b => exact h.remove ha

end

/-! ### Tables of entries -/

variable {A : α → Option γ} {B : β → Option δ} {F : γ → Option β} {G : δ → Option α}
  {f : α → Option β} {g : β → Option α} {a : α} {b : β} {x x' : γ} {y y' : δ}

/-- What is pointed at points back. -/
theorem entry (h : Matching (field A F) (field B G)) (ha : A a = some x) (hx : F x = some b) :
    ∃ y, B b = some y ∧ G y = some a :=
  Option.bind_eq_some_iff.mp ((h a b).mp (Option.bind_eq_some_iff.mpr ⟨x, ha, hx⟩))

section

variable [DecidableEq α]

/-- An entry is replaced by one with the same pointer. -/
theorem put_left (h : Matching (field A F) g) (hx : F x = (A a).bind F) :
    Matching (field (Function.update A a (some x)) F) g := by
  have hsame : field (Function.update A a (some x)) F = field A F := by
    rw [field_update, Option.bind_some, hx]
    exact Function.update_eq_self a _
  rwa [hsame]

/-- An entry without a pointer is removed. -/
theorem drop_left (h : Matching (field A F) g) (o : Option α) (ho : ∀ a ∈ o, (A a).bind F = none) :
    Matching (field (without A o) F) g := by
  have hsame : without (field A F) o = field A F := without_of_none ho
  rwa [field_without, hsame]

end

section

variable [DecidableEq β]

theorem put_right (h : Matching f (field B G)) (hy : G y = (B b).bind G) :
    Matching f (field (Function.update B b (some y)) G) := (h.symm.put_left hy).symm

theorem drop_right (h : Matching f (field B G)) (o : Option β) (ho : ∀ b ∈ o, (B b).bind G = none) :
    Matching f (field (without B o) G) := (h.symm.drop_left o ho).symm

end

variable [DecidableEq α] [DecidableEq β]

/-- Two entries come to point at each other. -/
theorem connect (h : Matching (field A F) (field B G)) (ha : (A a).bind F = none)
    (hb : (B b).bind G = none) (hx : F x = some b) (hy : G y = some a) :
    Matching (field (Function.update A a (some x)) F) (field (Function.update B b (some y)) G) := by
  rw [field_update, field_update, Option.bind_some, Option.bind_some, hx, hy]
  exact h.add ha hb

/-- An entry gives up its pointer, and what it pointed at goes. -/
theorem disconnect (h : Matching (field A F) (field B G)) (ha : A a = some x) (hx : F x = some b)
    (hx' : F x' = none) :
    Matching (field (Function.update A a (some x')) F) (field (without B (some b)) G) := by
  rw [field_update, field_without, Option.bind_some, hx']
  exact h.remove (by simp [field, ha, hx])

/-- An entry goes, and with it what it pointed at. -/
theorem erase (h : Matching (field A F) (field B G)) (ha : A a = some x) :
    Matching (field (Function.update A a none) F) (field (without B (F x)) G) := by
  rw [field_update, field_without]
  have hfa : field A F a = F x := by simp [field, ha]
  exact hfa ▸ h.remove_left a

end Matching

end DNSentinel.Lib.Pairs
