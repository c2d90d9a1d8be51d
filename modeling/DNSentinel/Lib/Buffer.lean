import Mathlib.Data.List.Basic

/-! # Contents of a buffer

`At buf pos xs`: the entries `xs` stand in `buf` from position `pos` on. `Above lo a b`: from
position `lo` on, `b` repeats whatever `a` holds. A buffer that is only appended to, and whose first
`lo` entries may still be patched, is related to its later versions by `Above lo`. -/

namespace DNSentinel.Lib.Buffer

variable {α : Type} {buf a b c xs ys : List α} {lo pos : ℕ}

/-- `xs` stands in `buf` from `pos` on. -/
def At (buf : List α) (pos : ℕ) (xs : List α) : Prop := ∀ k < xs.length, buf[pos + k]? = xs[k]?

/-- From `lo` on, `b` repeats `a`. -/
def Above (lo : ℕ) (a b : List α) : Prop := ∀ i, lo ≤ i → i < a.length → b[i]? = a[i]?

theorem at_append : At buf pos (xs ++ ys) ↔ At buf pos xs ∧ At buf (pos + xs.length) ys := by
  constructor
  · intro h
    refine ⟨fun k hk => ?_, fun k hk => ?_⟩
    · rw [h k (by simp; omega), List.getElem?_append_left hk]
    · rw [Nat.add_assoc, h (xs.length + k) (by simp; omega),
        List.getElem?_append_right (by omega), Nat.add_sub_cancel_left]
  · rintro ⟨h1, h2⟩ k hk
    rcases Nat.lt_or_ge k xs.length with hlt | hge
    · rw [h1 k hlt, List.getElem?_append_left hlt]
    · have := h2 (k - xs.length) (by simp at hk; omega)
      rw [List.getElem?_append_right hge, ← this]
      congr 1
      omega

theorem at_cons {x : α} : At buf pos (x :: xs) ↔ buf[pos]? = some x ∧ At buf (pos + 1) xs := by
  rw [show x :: xs = [x] ++ xs from rfl, at_append]
  refine and_congr_left fun _ => ⟨fun h => h 0 (by simp), fun h k hk => ?_⟩
  simp only [List.length_singleton, Nat.lt_one_iff] at hk
  subst hk
  exact h

/-- What was appended stands at the old end. -/
theorem at_length (a xs ys : List α) : At (a ++ xs ++ ys) a.length xs := by
  intro k hk
  rw [List.append_assoc, List.getElem?_append_right (by omega), Nat.add_sub_cancel_left,
    List.getElem?_append_left hk]

theorem at_end (a xs : List α) : At (a ++ xs) a.length xs := by
  simpa using at_length a xs []

theorem At.drop_take (h : At buf pos xs) : (buf.drop pos).take xs.length = xs := by
  refine List.ext_getElem? fun k => ?_
  rw [List.getElem?_take]
  split_ifs with hk
  · rw [List.getElem?_drop, h k hk]
  · rw [List.getElem?_eq_none (by omega)]

theorem At.length_le (h : At buf pos xs) (hne : xs ≠ []) : pos + xs.length ≤ buf.length := by
  have hpos := List.length_pos_of_ne_nil hne
  have hlt : xs.length - 1 < xs.length := by omega
  have hk := h _ hlt
  rw [List.getElem?_eq_getElem hlt] at hk
  have := (List.getElem?_eq_some_iff.mp hk).1
  omega

theorem At.above (h : At a pos xs) (hab : Above lo a b) (hlo : lo ≤ pos) : At b pos xs := by
  intro k hk
  have hx := h k hk
  rw [List.getElem?_eq_getElem hk] at hx
  rw [hab (pos + k) (by omega) (List.getElem?_eq_some_iff.mp hx).1, h k hk]

theorem Above.trans (hab : Above lo a b) (hbc : Above lo b c) (hle : a.length ≤ b.length) :
    Above lo a c := by
  intro i hlo hi
  rw [hbc i hlo (by omega), hab i hlo hi]

theorem above_append (lo : ℕ) (a xs : List α) : Above lo a (a ++ xs) := by
  intro i _ hi
  rw [List.getElem?_append_left hi]

theorem Above.length_le (h : Above lo a b) (hlo : lo < a.length) : a.length ≤ b.length := by
  have hi := h (a.length - 1) (by omega) (by omega)
  rw [List.getElem?_eq_getElem (i := a.length - 1) (l := a) (by omega)] at hi
  have := (List.getElem?_eq_some_iff.mp hi).1
  omega

end DNSentinel.Lib.Buffer
