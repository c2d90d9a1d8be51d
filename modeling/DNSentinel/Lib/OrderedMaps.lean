import Mathlib.Order.Lattice
import Mathlib.Data.List.Pairwise
import Mathlib.Tactic.SplitIfs

/-! # Ordered maps

`std::map`: the entries in the order of their keys. The order is part of the map, and every operation
keeps it. -/

namespace DNSentinel.Lib.OrderedMaps

variable {κ ν : Type} [LinearOrder κ]

structure OrderedMap (κ ν : Type) [LinearOrder κ] where
  entries : List (κ × ν) := []
  sorted : (entries.map Prod.fst).Pairwise (· < ·) := by exact .nil

namespace OrderedMap

def keys (m : OrderedMap κ ν) : List κ := m.entries.map Prod.fst

/-- The entry of the least key. -/
def first (m : OrderedMap κ ν) : Option (κ × ν) := m.entries.head?

/-- A new entry in its place; a key that is there keeps its value. -/
def insertEntry (k : κ) (v : ν) : List (κ × ν) → List (κ × ν)
  | [] => [(k, v)]
  | e :: es =>
    if k < e.1 then (k, v) :: e :: es
    else if e.1 < k then e :: insertEntry k v es
    else e :: es

theorem mem_insertEntry {k k' : κ} {v : ν} : ∀ {es : List (κ × ν)},
    k' ∈ (insertEntry k v es).map Prod.fst ↔ k' = k ∨ k' ∈ es.map Prod.fst
  | [] => by simp [insertEntry]
  | e :: es => by
    unfold insertEntry
    split_ifs with hlt hgt
    · simp
    · rw [List.map_cons, List.mem_cons, mem_insertEntry, List.map_cons, List.mem_cons, or_left_comm]
    · have heq : k = e.1 := le_antisymm (not_lt.mp hgt) (not_lt.mp hlt)
      simp [heq]

theorem sorted_insertEntry {k : κ} {v : ν} : ∀ {es : List (κ × ν)},
    (es.map Prod.fst).Pairwise (· < ·) → ((insertEntry k v es).map Prod.fst).Pairwise (· < ·)
  | [], _ => by simp [insertEntry]
  | e :: es, h => by
    rw [List.map_cons, List.pairwise_cons] at h
    obtain ⟨hhead, hrest⟩ := h
    unfold insertEntry
    split_ifs with hlt hgt
    · rw [List.map_cons, List.map_cons, List.pairwise_cons, List.pairwise_cons]
      refine ⟨fun k' hk' => ?_, hhead, hrest⟩
      rcases List.mem_cons.mp hk' with rfl | hmem
      · exact hlt
      · exact hlt.trans (hhead k' hmem)
    · rw [List.map_cons, List.pairwise_cons]
      refine ⟨fun k' hk' => ?_, sorted_insertEntry hrest⟩
      rcases mem_insertEntry.mp hk' with rfl | hmem
      · exact hgt
      · exact hhead k' hmem
    · rw [List.map_cons, List.pairwise_cons]
      exact ⟨hhead, hrest⟩

def emplace (m : OrderedMap κ ν) (k : κ) (v : ν) : OrderedMap κ ν where
  entries := insertEntry k v m.entries
  sorted := sorted_insertEntry m.sorted

def erase (m : OrderedMap κ ν) (k : κ) : OrderedMap κ ν where
  entries := m.entries.filter fun e => e.1 ≠ k
  sorted := m.sorted.sublist (List.filter_sublist.map Prod.fst)

variable {m : OrderedMap κ ν} {k k' : κ} {v : ν}

theorem mem_keys_emplace : k' ∈ (m.emplace k v).keys ↔ k' = k ∨ k' ∈ m.keys := mem_insertEntry

theorem mem_keys_erase : k' ∈ (m.erase k).keys ↔ k' ≠ k ∧ k' ∈ m.keys := by
  simp only [keys, erase, List.mem_map, List.mem_filter, decide_eq_true_eq]
  constructor
  · rintro ⟨e, ⟨he, hne⟩, rfl⟩
    exact ⟨hne, e, he, rfl⟩
  · rintro ⟨hne, e, he, rfl⟩
    exact ⟨e, ⟨he, hne⟩, rfl⟩

theorem mem_of_first (h : m.first = some (k, v)) : k ∈ m.keys :=
  List.mem_map.mpr ⟨(k, v), List.mem_of_head? h, rfl⟩

theorem first_le (h : m.first = some (k, v)) (hk' : k' ∈ m.keys) : k ≤ k' := by
  have hsorted := m.sorted
  unfold first at h
  unfold keys at hk'
  cases hentries : m.entries with
  | nil => simp [hentries] at h
  | cons e es =>
    rw [hentries] at h hk' hsorted
    obtain rfl := Option.some.inj h
    rw [List.map_cons, List.pairwise_cons] at hsorted
    rcases List.mem_cons.mp hk' with rfl | hmem
    · exact le_rfl
    · exact (hsorted.1 k' hmem).le

theorem keys_eq_nil (h : m.first = none) : m.keys = [] := by
  unfold first at h
  rw [List.head?_eq_none_iff] at h
  simp [keys, h]

end OrderedMap

end DNSentinel.Lib.OrderedMaps
