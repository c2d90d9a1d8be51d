import DNSentinel.Lib.Aligned
import Mathlib.Data.List.Nodup
import Mathlib.Data.List.Pairwise
import Mathlib.Data.List.Perm.Basic

/-! # A recency list with an index

Slots in order of use, the most recent first, and an index from keys to slots. Keys are compared by
`==`, an equivalence that need not be equality. Index and list always agree: the index is, up to
order, the keys and ids of the slots; ids are distinct and below the next one, keys pairwise
different. A `Lru` carries this, so that a lookup through the index finds the slot of its key. -/

namespace DNSentinel.Lib.IndexedLru

variable {κ ν : Type}

structure Slot (κ ν : Type) where
  id : ℕ
  key : κ
  val : ν

/-- The value replaced, if this is the slot meant. -/
def Slot.assign (s : Slot κ ν) (id : ℕ) (v : ν) : Slot κ ν := if s.id = id then { s with val := v } else s

theorem Slot.key_assign (s : Slot κ ν) (id : ℕ) (v : ν) : (s.assign id v).key = s.key := by
  unfold Slot.assign
  split_ifs <;> rfl

theorem Slot.id_assign (s : Slot κ ν) (id : ℕ) (v : ν) : (s.assign id v).id = s.id := by
  unfold Slot.assign
  split_ifs <;> rfl

variable [BEq κ]

/-- Index and list agree. -/
structure Coherent (slots : List (Slot κ ν)) (index : List (κ × ℕ)) (nextId : ℕ) : Prop where
  index_perm : index.Perm (slots.map fun s => (s.key, s.id))
  id_nodup : (slots.map Slot.id).Nodup
  key_ne : slots.Pairwise fun a b => (a.key == b.key) = false
  id_lt : ∀ s ∈ slots, s.id < nextId

structure Lru (κ ν : Type) [BEq κ] where
  slots : List (Slot κ ν)
  index : List (κ × ℕ)
  nextId : ℕ
  coherent : Coherent slots index nextId

theorem coherent_nil (n : ℕ) : Coherent ([] : List (Slot κ ν)) [] n where
  index_perm := .nil
  id_nodup := List.nodup_nil
  key_ne := .nil
  id_lt := by simp

namespace Coherent

variable {slots slots' : List (Slot κ ν)} {index : List (κ × ℕ)} {nextId : ℕ}

theorem eq_of_id_eq (h : Coherent slots index nextId) {a b : Slot κ ν} (ha : a ∈ slots)
    (hb : b ∈ slots) (hid : a.id = b.id) : a = b :=
  List.inj_on_of_nodup_map h.id_nodup ha hb hid

variable [EquivBEq κ]

theorem eq_of_key_beq (h : Coherent slots index nextId) {a b : Slot κ ν} (ha : a ∈ slots)
    (hb : b ∈ slots) (hkey : (a.key == b.key) = true) : a = b := by
  by_contra hne
  have hsymm : Std.Symm fun a b : Slot κ ν => (a.key == b.key) = false :=
    ⟨fun a b hab => by rw [BEq.comm]; exact hab⟩
  have := h.key_ne.forall ha hb hne
  rw [hkey] at this
  exact Bool.noConfusion this

theorem perm (h : Coherent slots index nextId) (hp : slots'.Perm slots) :
    Coherent slots' index nextId where
  index_perm := h.index_perm.trans (hp.map _).symm
  id_nodup := (hp.map _).nodup_iff.mpr h.id_nodup
  key_ne := by
    refine hp.symm.pairwise h.key_ne ?_
    intro a b hab
    rw [BEq.comm]
    exact hab
  id_lt s hs := h.id_lt s (hp.subset hs)

/-- The other slots are those with another key. -/
theorem filter_key (h : Coherent slots index nextId) {s : Slot κ ν} (hs : s ∈ slots) :
    slots.filter (fun x => !(x.key == s.key)) = slots.filter fun x => x.id != s.id := by
  refine List.filter_congr fun x hx => ?_
  rw [Bool.eq_iff_iff]
  simp only [Bool.not_eq_true', bne_iff_ne, ne_eq]
  constructor
  · intro hk hid
    rw [h.eq_of_id_eq hx hs hid, BEq.rfl] at hk
    exact Bool.noConfusion hk
  · intro hid
    by_contra hk
    rw [Bool.not_eq_false] at hk
    exact hid (congrArg Slot.id (h.eq_of_key_beq hx hs hk))

/-- Taking a slot out of list and index. -/
theorem erase (h : Coherent slots index nextId) {s : Slot κ ν} (hs : s ∈ slots) :
    Coherent (slots.filter fun x => x.id != s.id) (index.filter fun e => !(e.1 == s.key)) nextId where
  index_perm := by
    have hperm := h.index_perm.filter fun e => !(e.1 == s.key)
    rw [List.filter_map] at hperm
    rw [← h.filter_key hs]
    exact hperm
  id_nodup := h.id_nodup.sublist (List.filter_sublist.map _)
  key_ne := h.key_ne.sublist List.filter_sublist
  id_lt x hx := h.id_lt x (List.mem_filter.mp hx).1

omit [EquivBEq κ] in
theorem map_val (h : Coherent slots index nextId) (f : Slot κ ν → Slot κ ν)
    (hkey : ∀ s, (f s).key = s.key) (hid : ∀ s, (f s).id = s.id) :
    Coherent (slots.map f) index nextId where
  index_perm := by
    rw [List.map_map]
    simpa only [Function.comp_def, hkey, hid] using h.index_perm
  id_nodup := by
    rw [List.map_map]
    simpa only [Function.comp_def, hid] using h.id_nodup
  key_ne := by
    rw [List.pairwise_map]
    simpa only [hkey] using h.key_ne
  id_lt s hs := by
    obtain ⟨s', hs', rfl⟩ := List.mem_map.mp hs
    rw [hid]
    exact h.id_lt s' hs'

/-- A slot for a new key. -/
theorem push (h : Coherent slots index nextId) {key : κ}
    (hnew : ∀ s ∈ slots, (s.key == key) = false) (v : ν) :
    Coherent (⟨nextId, key, v⟩ :: slots) ((key, nextId) :: index) (nextId + 1) where
  index_perm := h.index_perm.cons _
  id_nodup := by
    rw [List.map_cons, List.nodup_cons]
    refine ⟨fun hmem => ?_, h.id_nodup⟩
    obtain ⟨s, hs, hid⟩ := List.mem_map.mp hmem
    exact absurd (h.id_lt s hs) (by rw [hid]; exact Nat.lt_irrefl _)
  key_ne := by
    refine List.pairwise_cons.mpr ⟨fun s hs => ?_, h.key_ne⟩
    rw [BEq.comm]
    exact hnew s hs
  id_lt s hs := by
    rcases List.mem_cons.mp hs with rfl | hs
    · exact Nat.lt_succ_self _
    · exact Nat.lt_succ_of_lt (h.id_lt s hs)

end Coherent

/-! ### Operations -/

namespace Lru

def empty : Lru κ ν := ⟨[], [], 0, coherent_nil 0⟩

/-- The slot the index gives for a key. -/
def find? (l : Lru κ ν) (key : κ) : Option (Slot κ ν) :=
  (l.index.find? fun e => e.1 == key).bind fun e => l.slots.find? fun s => s.id == e.2

theorem find?_some {l : Lru κ ν} [EquivBEq κ] {key : κ} {s : Slot κ ν} (h : l.find? key = some s) :
    s ∈ l.slots ∧ (s.key == key) = true := by
  obtain ⟨⟨k, id⟩, he, hs⟩ := Option.bind_eq_some_iff.mp h
  have hmem := List.mem_of_find?_eq_some hs
  have hid : s.id = id := by simpa using List.find?_some hs
  refine ⟨hmem, ?_⟩
  -- the index entry is that of some slot, with the same id
  have hentry := l.coherent.index_perm.subset (List.mem_of_find?_eq_some he)
  obtain ⟨s', hs', heq⟩ := List.mem_map.mp hentry
  simp only [Prod.mk.injEq] at heq
  obtain rfl := l.coherent.eq_of_id_eq hmem hs' (hid.trans heq.2.symm)
  rw [heq.1]
  exact List.find?_some (p := fun e : κ × ℕ => e.1 == key) he

theorem find?_none {l : Lru κ ν} {key : κ} (h : l.find? key = none) :
    ∀ s ∈ l.slots, (s.key == key) = false := by
  intro s hs
  by_contra hkey
  rw [Bool.not_eq_false] at hkey
  have hentry : (s.key, s.id) ∈ l.index :=
    l.coherent.index_perm.symm.subset (List.mem_map_of_mem hs)
  have hsome : (l.index.find? fun e => e.1 == key).isSome = true :=
    List.find?_isSome.mpr ⟨(s.key, s.id), hentry, hkey⟩
  obtain ⟨⟨k, id⟩, he⟩ := Option.isSome_iff_exists.mp hsome
  have hin := l.coherent.index_perm.subset (List.mem_of_find?_eq_some he)
  obtain ⟨s', hs', heq⟩ := List.mem_map.mp hin
  simp only [Prod.mk.injEq] at heq
  unfold find? at h
  rw [he, Option.bind_some, List.find?_eq_none] at h
  exact h s' hs' (by simp [heq.2])

variable [EquivBEq κ]

/-- Move a slot to the front. -/
def toFront (l : Lru κ ν) (id : ℕ) : Lru κ ν where
  slots := l.slots.filter (fun s => s.id == id) ++ l.slots.filter fun s => !(s.id == id)
  index := l.index
  nextId := l.nextId
  coherent := l.coherent.perm (List.filter_append_perm _ _)

/-- Replace the value of a slot. -/
def setVal (l : Lru κ ν) (id : ℕ) (v : ν) : Lru κ ν where
  slots := l.slots.map fun s => s.assign id v
  index := l.index
  nextId := l.nextId
  coherent := l.coherent.map_val _ (fun s => s.key_assign id v) fun s => s.id_assign id v

/-- Take a slot out. -/
def erase (l : Lru κ ν) (id : ℕ) : Lru κ ν :=
  match h : l.slots.find? fun s => s.id == id with
  | none => l
  | some s =>
    { slots := l.slots.filter fun x => x.id != s.id
      index := l.index.filter fun e => !(e.1 == s.key)
      nextId := l.nextId
      coherent := l.coherent.erase (List.mem_of_find?_eq_some h) }

/-- A new slot at the front, for a key the index does not have. -/
def push (l : Lru κ ν) (key : κ) (v : ν) (h : l.find? key = none) : Lru κ ν where
  slots := ⟨l.nextId, key, v⟩ :: l.slots
  index := (key, l.nextId) :: l.index
  nextId := l.nextId + 1
  coherent := l.coherent.push (find?_none h) v

/-! ### What an operation leaves in the list -/

variable {l : Lru κ ν} {s : Slot κ ν}

theorem mem_toFront {id : ℕ} : s ∈ (l.toFront id).slots ↔ s ∈ l.slots :=
  (List.filter_append_perm _ _).mem_iff

omit [EquivBEq κ] in
theorem mem_setVal {id : ℕ} {v : ν} (h : s ∈ (l.setVal id v).slots) :
    s ∈ l.slots ∨ ∃ s' ∈ l.slots, s'.id = id ∧ s = { s' with val := v } := by
  obtain ⟨s', hs', rfl⟩ := List.mem_map.mp h
  unfold Slot.assign
  split_ifs with hid
  · exact .inr ⟨s', hs', hid, rfl⟩
  · exact .inl hs'

theorem mem_erase {id : ℕ} (h : s ∈ (l.erase id).slots) : s ∈ l.slots := by
  unfold erase at h
  split at h
  · exact h
  · exact (List.mem_filter.mp h).1

theorem mem_push {key : κ} {v : ν} (hnew : l.find? key = none)
    (h : s ∈ (l.push key v hnew).slots) : s = ⟨l.nextId, key, v⟩ ∨ s ∈ l.slots :=
  List.mem_cons.mp h

/-! ### What the index finds -/

/-- The index finds the slot of a key. -/
theorem find?_eq_some_iff {key : κ} : l.find? key = some s ↔ s ∈ l.slots ∧ (s.key == key) = true := by
  refine ⟨find?_some, fun ⟨hs, hkey⟩ => ?_⟩
  cases hfound : l.find? key with
  | none =>
    have hnone := find?_none hfound s hs
    rw [hkey] at hnone
    exact absurd hnone (by simp)
  | some s' =>
    obtain ⟨hs', hkey'⟩ := find?_some hfound
    have hsame : (s'.key == s.key) = true := PartialEquivBEq.trans hkey' (PartialEquivBEq.symm hkey)
    rw [l.coherent.eq_of_key_beq hs' hs hsame]

theorem find?_congr {key key' : κ} (h : (key == key') = true) : l.find? key = l.find? key' := by
  ext s
  rw [find?_eq_some_iff, find?_eq_some_iff, BEq.congr_right h]

theorem find?_toFront {id : ℕ} {key : κ} : (l.toFront id).find? key = l.find? key := by
  ext s
  rw [find?_eq_some_iff, find?_eq_some_iff, mem_toFront]

theorem find?_setVal {id : ℕ} {v : ν} {key : κ} :
    (l.setVal id v).find? key = (l.find? key).map fun s => s.assign id v := by
  ext s
  rw [find?_eq_some_iff, Option.map_eq_some_iff]
  constructor
  · rintro ⟨hs, hkey⟩
    obtain ⟨s', hs', rfl⟩ := List.mem_map.mp hs
    rw [Slot.key_assign] at hkey
    exact ⟨s', find?_eq_some_iff.mpr ⟨hs', hkey⟩, rfl⟩
  · rintro ⟨s', hs', rfl⟩
    obtain ⟨hmem, hkey⟩ := find?_eq_some_iff.mp hs'
    exact ⟨List.mem_map_of_mem hmem, by rwa [Slot.key_assign]⟩

theorem slots_erase (hs : s ∈ l.slots) :
    (l.erase s.id).slots = l.slots.filter fun x => x.id != s.id := by
  unfold erase
  split
  · next hnone => exact absurd (List.find?_eq_none.mp hnone s hs) (by simp)
  · next x hx =>
    have hid : x.id = s.id := by simpa using List.find?_some hx
    dsimp only
    rw [hid]

theorem mem_erase_iff {x : Slot κ ν} (hs : s ∈ l.slots) :
    x ∈ (l.erase s.id).slots ↔ x ∈ l.slots ∧ x.id ≠ s.id := by
  rw [slots_erase hs, List.mem_filter, bne_iff_ne]

theorem find?_erase {key : κ} (hs : s ∈ l.slots) :
    (l.erase s.id).find? key = if s.key == key then none else l.find? key := by
  ext x
  rw [find?_eq_some_iff, mem_erase_iff hs]
  split_ifs with hkey
  · refine ⟨fun ⟨⟨hx, hid⟩, hxkey⟩ => ?_, fun h => absurd h (by simp)⟩
    have hsame : (x.key == s.key) = true := PartialEquivBEq.trans hxkey (PartialEquivBEq.symm hkey)
    exact absurd (congrArg Slot.id (l.coherent.eq_of_key_beq hx hs hsame)) hid
  · rw [find?_eq_some_iff]
    refine ⟨fun ⟨⟨hx, _⟩, hxkey⟩ => ⟨hx, hxkey⟩, fun ⟨hx, hxkey⟩ => ⟨⟨hx, fun hid => ?_⟩, hxkey⟩⟩
    rw [l.coherent.eq_of_id_eq hx hs hid] at hxkey
    exact hkey hxkey

theorem find?_push {k key : κ} {v : ν} (hnew : l.find? k = none) :
    (l.push k v hnew).find? key = if k == key then some ⟨l.nextId, k, v⟩ else l.find? key := by
  ext x
  rw [find?_eq_some_iff]
  show x ∈ (⟨l.nextId, k, v⟩ : Slot κ ν) :: l.slots ∧ _ ↔ _
  rw [List.mem_cons]
  split_ifs with hkey
  · constructor
    · rintro ⟨rfl | hx, hxkey⟩
      · rfl
      · have hsame : (x.key == k) = true := PartialEquivBEq.trans hxkey (PartialEquivBEq.symm hkey)
        rw [find?_none hnew x hx] at hsame
        exact absurd hsame (by simp)
    · intro hx
      obtain rfl := Option.some.inj hx
      exact ⟨.inl rfl, hkey⟩
  · rw [find?_eq_some_iff]
    constructor
    · rintro ⟨rfl | hx, hxkey⟩
      · exact absurd hxkey hkey
      · exact ⟨hx, hxkey⟩
    · exact fun ⟨hx, hxkey⟩ => ⟨.inr hx, hxkey⟩

theorem toFront_head (hs : s ∈ l.slots) : ∃ rest, (l.toFront s.id).slots = s :: rest := by
  have hmem : s ∈ l.slots.filter fun x => x.id == s.id := List.mem_filter.mpr ⟨hs, by simp⟩
  cases hfront : l.slots.filter fun x => x.id == s.id with
  | nil =>
    rw [hfront] at hmem
    exact absurd hmem List.not_mem_nil
  | cons x rest =>
    have hx : x ∈ l.slots.filter fun x => x.id == s.id := hfront ▸ List.mem_cons_self
    obtain ⟨hx, hid⟩ := List.mem_filter.mp hx
    obtain rfl := l.coherent.eq_of_id_eq hx hs (by simpa using hid)
    refine ⟨rest ++ l.slots.filter fun y => !(y.id == x.id), ?_⟩
    show l.slots.filter _ ++ _ = _
    rw [hfront]
    rfl

theorem slots_erase_last {init : List (Slot κ ν)} (h : l.slots = init ++ [s]) :
    (l.erase s.id).slots = init := by
  have hnodup : ((init ++ [s]).map Slot.id).Nodup := h ▸ l.coherent.id_nodup
  rw [slots_erase (h ▸ List.mem_append_right _ List.mem_cons_self), h, List.filter_append]
  rw [List.map_append, List.nodup_append] at hnodup
  have hinit : init.filter (fun x => x.id != s.id) = init := by
    refine List.filter_eq_self.mpr fun x hx => ?_
    rw [bne_iff_ne]
    exact hnodup.2.2 x.id (List.mem_map_of_mem hx) s.id (by simp)
  rw [hinit]
  simp

theorem erase_perm (hs : s ∈ l.slots) : l.slots.Perm (s :: (l.erase s.id).slots) := by
  obtain ⟨before, after, hsplit⟩ := List.append_of_mem hs
  have hnodup : ((before ++ s :: after).map Slot.id).Nodup := hsplit ▸ l.coherent.id_nodup
  rw [slots_erase hs, hsplit]
  rw [List.map_append, List.map_cons, List.nodup_append, List.nodup_cons] at hnodup
  obtain ⟨-, ⟨hafter, -⟩, hbefore⟩ := hnodup
  have hkeep : ∀ xs : List (Slot κ ν), (∀ x ∈ xs, x.id ≠ s.id) →
      xs.filter (fun x => x.id != s.id) = xs := fun xs h =>
    List.filter_eq_self.mpr fun x hx => bne_iff_ne.mpr (h x hx)
  rw [List.filter_append, List.filter_cons_of_neg (by simp),
    hkeep before fun x hx => hbefore x.id (List.mem_map_of_mem hx) s.id (by simp),
    hkeep after fun x hx hid => hafter (hid ▸ List.mem_map_of_mem hx)]
  exact List.perm_middle

theorem slots_toFront (hs : s ∈ l.slots) :
    (l.toFront s.id).slots = s :: l.slots.filter fun x => x.id != s.id := by
  obtain ⟨before, after, hsplit⟩ := List.append_of_mem hs
  have hnodup : ((before ++ s :: after).map Slot.id).Nodup := hsplit ▸ l.coherent.id_nodup
  rw [List.map_append, List.map_cons, List.nodup_append, List.nodup_cons] at hnodup
  obtain ⟨-, ⟨hafter, -⟩, hbefore⟩ := hnodup
  have hnone : ∀ xs : List (Slot κ ν), (∀ x ∈ xs, x.id ≠ s.id) →
      xs.filter (fun x => x.id == s.id) = [] := fun xs h =>
    List.filter_eq_nil_iff.mpr fun x hx hid => h x hx (beq_iff_eq.mp hid)
  have hfront : l.slots.filter (fun x => x.id == s.id) = [s] := by
    rw [hsplit, List.filter_append, List.filter_cons_of_pos (by simp),
      hnone before fun x hx => hbefore x.id (List.mem_map_of_mem hx) s.id (by simp),
      hnone after fun x hx hid => hafter (hid ▸ List.mem_map_of_mem hx)]
    rfl
  show l.slots.filter _ ++ _ = _
  rw [hfront]
  rfl

/-- The slot with its new value goes to the front, and the others stay in order. -/
theorem slots_setVal_toFront (hs : s ∈ l.slots) (v : ν) : ((l.setVal s.id v).toFront s.id).slots =
    { s with val := v } :: l.slots.filter fun x => !(x.key == s.key) := by
  have hself : s.assign s.id v = { s with val := v } := if_pos rfl
  have hmem : { s with val := v } ∈ (l.setVal s.id v).slots := List.mem_map.mpr ⟨s, hs, hself⟩
  have hothers : (l.setVal s.id v).slots.filter (fun x => x.id != s.id) =
      l.slots.filter fun x => x.id != s.id := by
    have hsame : ∀ x ∈ l.slots.filter (fun x => x.id != s.id), x.assign s.id v = x := fun x hx =>
      if_neg (bne_iff_ne.mp (List.mem_filter.mp hx).2)
    have hid : ((fun x => x.id != s.id) ∘ fun x : Slot κ ν => x.assign s.id v) =
        fun x : Slot κ ν => x.id != s.id := by
      funext x
      rw [Function.comp_apply, Slot.id_assign]
    show (l.slots.map fun x => x.assign s.id v).filter _ = _
    rw [List.filter_map, hid, List.map_congr_left hsame, List.map_id']
  rw [l.coherent.filter_key hs, ← hothers]
  exact slots_toFront hmem

theorem slots_toFront_setVal (hs : s ∈ l.slots) (v : ν) : ((l.toFront s.id).setVal s.id v).slots =
    { s with val := v } :: l.slots.filter fun x => !(x.key == s.key) := by
  have hsame : ∀ x ∈ l.slots.filter (fun x => x.id != s.id), x.assign s.id v = x := fun x hx =>
    if_neg (bne_iff_ne.mp (List.mem_filter.mp hx).2)
  have hself : s.assign s.id v = { s with val := v } := if_pos rfl
  show (l.toFront s.id).slots.map (fun x => x.assign s.id v) = _
  rw [slots_toFront hs, List.map_cons, hself, List.map_congr_left hsame, List.map_id',
    l.coherent.filter_key hs]

theorem toFront_perm (id : ℕ) : (l.toFront id).slots.Perm l.slots := List.filter_append_perm _ _

theorem setVal_perm (hs : s ∈ l.slots) (v : ν) :
    (l.setVal s.id v).slots.Perm ({ s with val := v } :: (l.erase s.id).slots) := by
  have hperm := (erase_perm hs).map fun x => x.assign s.id v
  have hrest : (l.erase s.id).slots.map (fun x => x.assign s.id v) = (l.erase s.id).slots := by
    have hid : ∀ x ∈ (l.erase s.id).slots, x.assign s.id v = x := fun x hx =>
      if_neg ((mem_erase_iff hs).mp hx).2
    rw [List.map_congr_left hid, List.map_id']
  rw [List.map_cons, hrest] at hperm
  have hself : s.assign s.id v = { s with val := v } := if_pos rfl
  rwa [hself] at hperm

/-! ### Two recency lists in step -/

/-- Slots with equal keys and related values. -/
structure SlotAlike (R : ν → ν → Prop) (s s' : Slot κ ν) : Prop where
  id : s.id = s'.id
  key : (s.key == s'.key) = true
  val : R s.val s'.val

structure Alike (R : ν → ν → Prop) (l l' : Lru κ ν) : Prop where
  slots : List.Forall₂ (SlotAlike R) l.slots l'.slots
  nextId : l.nextId = l'.nextId

variable {R : ν → ν → Prop} {l' : Lru κ ν} {s' : Slot κ ν}

theorem Alike.refl (hR : ∀ v, R v v) (l : Lru κ ν) : Alike R l l :=
  ⟨Aligned.self (fun _ => ⟨rfl, BEq.rfl, hR _⟩) _, rfl⟩

/-- What the index finds is the slot of the key in the list. -/
theorem find?_eq (l : Lru κ ν) (key : κ) : l.find? key = l.slots.find? fun s => s.key == key := by
  cases hfound : l.slots.find? fun s => s.key == key with
  | some s => exact find?_eq_some_iff.mpr ⟨List.mem_of_find?_eq_some hfound,
      List.find?_some (p := fun s : Slot κ ν => s.key == key) hfound⟩
  | none =>
    rw [Option.eq_none_iff_forall_ne_some]
    intro s hs
    obtain ⟨hmem, hkey⟩ := find?_eq_some_iff.mp hs
    exact List.find?_eq_none.mp hfound s hmem hkey

theorem Alike.find? (h : Alike R l l') {key key' : κ} (hkey : (key == key') = true) :
    Option.Rel (SlotAlike R) (l.find? key) (l'.find? key') := by
  rw [find?_eq, find?_eq]
  refine Aligned.find? (fun a b hab => ?_) h.slots
  rw [BEq.congr_right hkey, BEq.congr_left hab.key]

theorem Alike.toFront (h : Alike R l l') (id : ℕ) : Alike R (l.toFront id) (l'.toFront id) where
  slots := List.rel_append (Aligned.filter (fun _ _ hab => by rw [hab.id]) h.slots)
    (Aligned.filter (fun _ _ hab => by rw [hab.id]) h.slots)
  nextId := h.nextId

omit [EquivBEq κ] in
theorem Alike.setVal (h : Alike R l l') (id : ℕ) {v v' : ν} (hv : R v v') :
    Alike R (l.setVal id v) (l'.setVal id v') where
  slots := by
    refine List.rel_map (fun a b hab => ?_) h.slots
    unfold Slot.assign
    by_cases hid : a.id = id
    · rw [if_pos hid, if_pos (hab.id ▸ hid)]
      exact ⟨hab.id, hab.key, hv⟩
    · rw [if_neg hid, if_neg (hab.id ▸ hid)]
      exact hab
  nextId := h.nextId

theorem nextId_erase (l : Lru κ ν) (id : ℕ) : (l.erase id).nextId = l.nextId := by
  unfold erase
  split <;> rfl

theorem Alike.erase (h : Alike R l l') (hs : s ∈ l.slots) (hs' : s' ∈ l'.slots)
    (hid : s.id = s'.id) : Alike R (l.erase s.id) (l'.erase s'.id) where
  slots := by
    rw [slots_erase hs, slots_erase hs']
    exact Aligned.filter (fun a b hab => by rw [hab.id, hid]) h.slots
  nextId := by rw [nextId_erase, nextId_erase, h.nextId]

theorem Alike.push (h : Alike R l l') {key key' : κ} (hkey : (key == key') = true) {v v' : ν}
    (hv : R v v') (hnew : l.find? key = none) (hnew' : l'.find? key' = none) :
    Alike R (l.push key v hnew) (l'.push key' v' hnew') where
  slots := .cons ⟨h.nextId, hkey, hv⟩ h.slots
  nextId := congrArg (· + 1) h.nextId

end Lru

end DNSentinel.Lib.IndexedLru
