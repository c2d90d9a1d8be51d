import DNSentinel.Policy.TrieBuild
import DNSentinel.Lib.SortedRuns
import Mathlib.Algebra.Order.BigOperators.Group.List
import Mathlib.Algebra.Order.Ring.Nat

/-! # The packed trie represents the rules

Keys are sorted, so the rules below a node are a run of the rules, its own rules come first, and the
rules below each child are a run of the rest. While `build` runs, the nodes filled in so far are right
(`NodeOk`) and the queue is the nodes still to be filled in, in order (`Packed`); when it is done every
node is right. -/

namespace DNSentinel.Policy.Packing

open DNSentinel.Types Lib.SortedRuns Policy.Lists TrieBuild

/-! ### Keys -/

/-- Labels whose length fits into a byte. -/
def Valid (path : List Label) : Prop := ∀ l ∈ path, l.length < 256

variable {p q : List Label} {l m : Label} {R L : List Rule} {r a b : Rule}

theorem keyOf_append (p q : List Label) : keyOf (p ++ q) = keyOf p ++ keyOf q := List.flatMap_append

theorem keyOf_cons (l : Label) (p : List Label) : keyOf (l :: p) = lengthPrefixed l ++ keyOf p := rfl

theorem keyOf_snoc (p : List Label) (l : Label) : keyOf (p ++ [l]) = keyOf p ++ lengthPrefixed l := by
  rw [keyOf_append, keyOf_cons]
  exact congrArg _ (List.append_nil _)

theorem Valid.snoc (hp : Valid p) (hl : l.length < 256) : Valid (p ++ [l]) := by
  intro x hx
  rcases List.mem_append.mp hx with hx | hx
  · exact hp x hx
  · rwa [List.mem_singleton.mp hx]

/-- The length says where a label ends. -/
theorem lengthPrefixed_append_inj (hl : l.length < 256) (hm : m.length < 256) {u v : List UInt8}
    (h : lengthPrefixed l ++ u = lengthPrefixed m ++ v) : l = m ∧ u = v := by
  obtain ⟨hlength, hrest⟩ := List.cons.inj h
  have hnat : l.length = m.length := by
    have := congrArg UInt8.toNat hlength
    rwa [UInt8.toNat_ofNat_of_lt' hl, UInt8.toNat_ofNat_of_lt' hm] at this
  exact List.append_inj hrest hnat

theorem prefix_of_keyOf_prefix : ∀ {p q : List Label}, Valid p → Valid q → keyOf p <+: keyOf q → p <+: q
  | [], _, _, _, _ => List.nil_prefix
  | l :: p, [], _, _, h => absurd (List.prefix_nil.mp h) (by simp [keyOf_cons, lengthPrefixed])
  | l :: p, m :: q, hp, hq, ⟨u, hu⟩ => by
    rw [keyOf_cons, keyOf_cons, List.append_assoc] at hu
    obtain ⟨rfl, hrest⟩ := lengthPrefixed_append_inj (hp l (by simp)) (hq m (by simp)) hu
    rw [List.prefix_cons_inj]
    exact prefix_of_keyOf_prefix (fun x hx => hp x (by simp [hx])) (fun x hx => hq x (by simp [hx]))
      ⟨u, hrest⟩

theorem keyOf_inj (hp : Valid p) (hq : Valid q) (h : keyOf p = keyOf q) : p = q := by
  have hpq := prefix_of_keyOf_prefix hp hq (h ▸ List.prefix_rfl)
  have hqp := prefix_of_keyOf_prefix hq hp (h ▸ List.prefix_rfl)
  exact hpq.eq_of_length (Nat.le_antisymm hpq.length_le hqp.length_le)

/-- Labels are ordered by length, then bytes. -/
theorem lengthPrefixed_lt_iff (hl : l.length < 256) (hm : m.length < 256) :
    lengthPrefixed l < lengthPrefixed m ↔ labelLess l m = true := by
  have hlt : UInt8.ofNat l.length < UInt8.ofNat m.length ↔ l.length < m.length := by
    rw [UInt8.lt_iff_toNat_lt, UInt8.toNat_ofNat_of_lt' hl, UInt8.toNat_ofNat_of_lt' hm]
  have heq : UInt8.ofNat l.length = UInt8.ofNat m.length ↔ l.length = m.length := by
    rw [← UInt8.toNat_inj, UInt8.toNat_ofNat_of_lt' hl, UInt8.toNat_ofNat_of_lt' hm]
  unfold lengthPrefixed labelLess
  rw [List.cons_lt_cons_iff, hlt, heq]
  by_cases hne : l.length = m.length
  · simp [hne]
  · simp [hne]

/-- What follows does not change the order of different labels. -/
theorem lengthPrefixed_append_lt (hl : l.length < 256) (hm : m.length < 256)
    (h : lengthPrefixed l < lengthPrefixed m) (u v : List UInt8) :
    lengthPrefixed l ++ u < lengthPrefixed m ++ v := by
  refine append_lt_append_of_lt h ?_ u v
  rintro ⟨t, ht⟩
  have hsame : lengthPrefixed l ++ t = lengthPrefixed m ++ [] := by rw [ht, List.append_nil]
  obtain ⟨rfl, -⟩ := lengthPrefixed_append_inj hl hm hsame
  exact List.lt_irrefl _ h

/-! ### Sorted rules -/

/-- Rules as `add` makes them. -/
def Keyed (R : List Rule) : Prop := ∀ r ∈ R, ∃ path, Valid path ∧ r.key = keyOf path

def Sorted (R : List Rule) : Prop := R.Pairwise fun a b => ¬ b.key < a.key

/-- The rule is for the name with this path, or for one below it. -/
def isUnder (p : List Label) (r : Rule) : Bool := (keyOf p).isPrefixOf r.key

def under (R : List Rule) (p : List Label) : List Rule := R.filter (isUnder p)

theorem isUnder_iff : isUnder p r = true ↔ keyOf p <+: r.key := List.isPrefixOf_iff_prefix

theorem mem_under : r ∈ under R p ↔ r ∈ R ∧ keyOf p <+: r.key := by
  rw [under, List.mem_filter, isUnder_iff]

/-- The rule is below `p`, under the child `l`. -/
def Below (p : List Label) (l : Label) (r : Rule) : Prop :=
  ∃ tail, Valid (p ++ l :: tail) ∧ r.key = keyOf (p ++ l :: tail)

theorem Below.length_lt (h : Below p l r) : l.length < 256 := by
  obtain ⟨tail, hvalid, -⟩ := h
  exact hvalid l (by simp)

theorem Below.key (h : Below p l r) : ∃ u, r.key = keyOf p ++ (lengthPrefixed l ++ u) := by
  obtain ⟨tail, -, hkey⟩ := h
  exact ⟨keyOf tail, by rw [hkey, keyOf_append, keyOf_cons]⟩

theorem Below.isUnder_iff (h : Below p l r) (hm : m.length < 256) :
    isUnder (p ++ [m]) r = true ↔ m = l := by
  obtain ⟨u, hu⟩ := h.key
  rw [Packing.isUnder_iff, keyOf_snoc, hu, List.prefix_append_right_inj]
  constructor
  · rintro ⟨v, hv⟩
    exact (lengthPrefixed_append_inj hm h.length_lt hv).1
  · rintro rfl
    exact List.prefix_append ..

/-- A rule under `p` is for that name itself or below it. -/
theorem here_or_below (hp : Valid p) (hR : Keyed R) (hr : r ∈ under R p) :
    r.key = keyOf p ∨ ∃ l, Below p l r := by
  obtain ⟨hmem, hbegins⟩ := mem_under.mp hr
  obtain ⟨path, hvalid, hkey⟩ := hR r hmem
  rw [hkey] at hbegins
  obtain ⟨tail, rfl⟩ := prefix_of_keyOf_prefix hp hvalid hbegins
  cases tail with
  | nil => exact .inl (by rw [hkey, List.append_nil])
  | cons l tail => exact .inr ⟨l, tail, hvalid, hkey⟩

/-- Rules are sorted by their next labels. -/
theorem label_le_of_sorted (ha : Below p l a) (hb : Below p m b) (h : ¬ b.key < a.key) :
    ¬ lengthPrefixed m < lengthPrefixed l := by
  intro hlt
  obtain ⟨u, hu⟩ := ha.key
  obtain ⟨v, hv⟩ := hb.key
  refine h ?_
  rw [hu, hv]
  exact List.append_left_lt (lengthPrefixed_append_lt hb.length_lt ha.length_lt hlt v u)

/-- A node's own rules come first. -/
theorem own_first (hp : Valid p) (hR : Keyed R) (hsorted : Sorted R) :
    (under R p).Pairwise fun a b =>
      (b.key.length == (keyOf p).length) = true → (a.key.length == (keyOf p).length) = true := by
  refine (hsorted.sublist List.filter_sublist).imp_of_mem fun {a b} ha hb hab => ?_
  simp only [beq_iff_eq]
  intro hlength
  rcases here_or_below hp hR ha with hkey | ⟨l, hl⟩
  · rw [hkey]
  · obtain ⟨u, hu⟩ := hl.key
    have hb' : keyOf p = b.key := (mem_under.mp hb).2.eq_of_length hlength.symm
    refine absurd ?_ hab
    rw [hu, ← hb']
    exact lt_append_of_ne_nil (by simp [lengthPrefixed])

theorem mem_own (hr : r ∈ under R p) :
    (r.key.length == (keyOf p).length) = true ↔ r.key = keyOf p := by
  rw [beq_iff_eq]
  constructor
  · exact fun h => ((mem_under.mp hr).2.eq_of_length h.symm).symm
  · exact fun h => by rw [h]

theorem mem_takeWhile_own (hp : Valid p) (hR : Keyed R) (hsorted : Sorted R) :
    r ∈ ((under R p).takeWhile fun r => r.key.length == (keyOf p).length) ↔
      r ∈ R ∧ r.key = keyOf p := by
  rw [takeWhile_eq_filter (own_first hp hR hsorted), List.mem_filter]
  constructor
  · rintro ⟨hr, hlength⟩
    exact ⟨(mem_under.mp hr).1, (mem_own hr).mp hlength⟩
  · rintro ⟨hr, hkey⟩
    exact ⟨mem_under.mpr ⟨hr, hkey ▸ List.prefix_rfl⟩, by simp [hkey]⟩

theorem find?_takeWhile_own (hp : Valid p) (hR : Keyed R) (hsorted : Sorted R) (q : Rule → Bool) :
    (((under R p).takeWhile fun r => r.key.length == (keyOf p).length).find? q) =
      R.find? fun r => r.key == keyOf p && q r := by
  rw [takeWhile_eq_filter (own_first hp hR hsorted), under, List.filter_filter, List.find?_filter]
  congr 1
  funext r
  have hown : (r.key.length == (keyOf p).length && isUnder p r) = (r.key == keyOf p) := by
    rw [Bool.eq_iff_iff, Bool.and_eq_true, beq_iff_eq, beq_iff_eq, isUnder_iff]
    constructor
    · rintro ⟨hlength, hunder⟩
      exact (hunder.eq_of_length hlength.symm).symm
    · intro hkey
      rw [hkey]
      exact ⟨rfl, List.prefix_rfl⟩
  rw [hown, Bool.decide_and, Bool.decide_eq_true, Bool.decide_eq_true]

/-! ### Labels -/

/-- The label stored at `offset`. -/
def slice (labels : List UInt8) (offset n : ℕ) : Label := (labels.drop offset).take n

theorem slice_mono {labels labels' : List UInt8} {offset : ℕ} (h : slice labels offset l.length = l)
    (hsub : labels <+: labels') : slice labels' offset l.length = l := by
  obtain ⟨more, rfl⟩ := hsub
  unfold slice at h ⊢
  have hlength := congrArg List.length h
  rw [List.length_take, List.length_drop] at hlength
  by_cases hoffset : offset ≤ labels.length
  · rw [List.drop_append_of_le_length hoffset, List.take_append_of_le_length, h]
    rw [List.length_drop]
    omega
  · have hnil : l = [] := List.eq_nil_of_length_eq_zero (by omega)
    rw [hnil]
    rfl

/-- The label of a node. -/
def Labelled (labels : List UInt8) (n : Node) (l : Label) : Prop :=
  n.labelLength.toNat = l.length ∧ slice labels n.labelOffset.toNat l.length = l

/-- Labels are where they are said to be. -/
def InternedOk (g : Growing) : Prop :=
  ∀ l offset, g.interned.lookup l = some offset → slice g.labels offset.toNat l.length = l

theorem intern_spec (g : Growing) (l : Label) :
    (intern g l).1.nodes = g.nodes ∧ g.labels <+: (intern g l).1.labels ∧
      ((intern g l).1.labels.length ≤ 2 ^ 32 → InternedOk g →
        InternedOk (intern g l).1 ∧ slice (intern g l).1.labels (intern g l).2.toNat l.length = l) := by
  unfold intern
  cases hfound : g.interned.lookup l with
  | some offset => exact ⟨rfl, List.prefix_rfl, fun _ hok => ⟨hok, hok l offset hfound⟩⟩
  | none =>
    refine ⟨rfl, List.prefix_append .., fun hfits hok => ?_⟩
    have hnew : slice (g.labels ++ l) (UInt32.ofNat g.labels.length).toNat l.length = l := by
      rcases Nat.eq_zero_or_pos l.length with hzero | hpos
      · rw [List.eq_nil_of_length_eq_zero hzero]
        rfl
      · have hlt : g.labels.length < 2 ^ 32 := by
          have hlength : (g.labels ++ l).length ≤ 2 ^ 32 := hfits
          rw [List.length_append] at hlength
          omega
        rw [UInt32.toNat_ofNat_of_lt' hlt, slice, List.drop_left, List.take_length]
    refine ⟨fun m offset hm => ?_, hnew⟩
    dsimp only at hm ⊢
    rw [List.lookup_cons] at hm
    split at hm
    · next heq =>
      obtain rfl := Option.some.inj hm
      rw [beq_iff_eq.mp heq]
      exact hnew
    · exact slice_mono (hok m offset hm) (List.prefix_append ..)

/-! ### The children of a node -/

/-- The nodes from number `n` on, to be filled in. -/
def worksOf (R : List Rule) : ℕ → List (List Label) → List Work
  | _, [] => []
  | n, p :: ps => ⟨UInt32.ofNat n, under R p, (keyOf p).length⟩ :: worksOf R (n + 1) ps

theorem worksOf_append (R : List Rule) : ∀ (n : ℕ) (ps qs : List (List Label)),
    worksOf R n (ps ++ qs) = worksOf R n ps ++ worksOf R (n + ps.length) qs
  | _, [], _ => by simp [worksOf]
  | n, p :: ps, qs => by
    rw [List.cons_append, worksOf, worksOf, worksOf_append R (n + 1) ps qs, List.length_cons,
      Nat.add_right_comm, Nat.add_assoc]
    rfl

theorem length_worksOf (R : List Rule) : ∀ (n : ℕ) (ps : List (List Label)),
    (worksOf R n ps).length = ps.length
  | _, [] => rfl
  | n, _ :: ps => by rw [worksOf, List.length_cons, length_worksOf R (n + 1) ps, List.length_cons]

/-- The first rule below `p` gives the label of the next child. -/
theorem next_label (h : Below p l r) : (r.key.getD (keyOf p).length 0).toNat = l.length ∧
    (r.key.drop ((keyOf p).length + 1)).take l.length = l := by
  obtain ⟨u, hu⟩ := h.key
  rw [hu, List.getD_eq_getElem?_getD, List.getElem?_append_right le_rfl, Nat.sub_self,
    ← List.drop_drop, List.drop_left]
  exact ⟨UInt8.toNat_ofNat_of_lt' h.length_lt, List.take_left⟩

theorem take_lengthPrefixed (l : Label) (u : List UInt8) :
    (lengthPrefixed l ++ u).take (1 + l.length) = lengthPrefixed l := by
  rw [Nat.add_comm]
  exact List.take_left' rfl

/-- The rules of the run are those under the same child. -/
theorem chunk_eq_iff (ha : Below p l a) (hb : Below p m b) :
    (chunk (keyOf p).length (a.key.getD (keyOf p).length 0) b ==
      chunk (keyOf p).length (a.key.getD (keyOf p).length 0) a) =
    isUnder (p ++ [l]) b := by
  have hlength := (next_label ha).1
  obtain ⟨u, hu⟩ := ha.key
  obtain ⟨v, hv⟩ := hb.key
  rw [Bool.eq_iff_iff, beq_iff_eq, hb.isUnder_iff ha.length_lt]
  unfold chunk
  rw [hlength, hu, hv, List.drop_left, List.drop_left]
  rw [take_lengthPrefixed]
  constructor
  · intro h
    have hsplit : lengthPrefixed l ++ (lengthPrefixed m ++ v).drop (1 + l.length) =
        lengthPrefixed m ++ v := by rw [← h, List.take_append_drop]
    exact (lengthPrefixed_append_inj ha.length_lt hb.length_lt hsplit).1
  · rintro rfl
    exact take_lengthPrefixed l v

/-- What follows a rule is under the same child up to some point, and not from there on. -/
theorem same_first (hr : Below p l r) (hbelow : ∀ x ∈ L, ∃ m, Below p m x)
    (hsorted : Sorted (r :: L)) :
    L.Pairwise fun a b => isUnder (p ++ [l]) b = true → isUnder (p ++ [l]) a = true := by
  obtain ⟨hfirst, hrest⟩ := List.pairwise_cons.mp hsorted
  refine hrest.imp_of_mem fun {a b} ha hb hab => ?_
  obtain ⟨m, hm⟩ := hbelow a ha
  obtain ⟨n, hn⟩ := hbelow b hb
  rw [hn.isUnder_iff hr.length_lt, hm.isUnder_iff hr.length_lt]
  rintro rfl
  have hle := label_le_of_sorted hr hm (hfirst a ha)
  have hge := label_le_of_sorted hm hn hab
  have hcode : lengthPrefixed l = lengthPrefixed m :=
    List.le_antisymm (List.not_lt.mp hle) (List.not_lt.mp hge)
  exact (List.cons.inj hcode).2

/-- The run of a child, and what is left. -/
theorem run_eq {same : Rule → Bool} (hsame : ∀ x ∈ L, same x = isUnder (p ++ [l]) x)
    (hr : Below p l r) (hbelow : ∀ x ∈ L, ∃ m, Below p m x) (hsorted : Sorted (r :: L)) :
    L.takeWhile same = L.filter (isUnder (p ++ [l])) ∧
      L.dropWhile same = L.filter fun x => !isUnder (p ++ [l]) x := by
  have hruns : L.Pairwise fun a b => same b = true → same a = true := by
    refine (same_first hr hbelow hsorted).imp_of_mem fun {a b} ha hb hab => ?_
    rwa [hsame a ha, hsame b hb]
  constructor
  · rw [takeWhile_eq_filter hruns]
    exact List.filter_congr hsame
  · rw [dropWhile_eq_filter hruns]
    exact List.filter_congr fun x hx => congrArg Bool.not (hsame x hx)

/-- What the loop over the rules `L` below `p` makes of `g`. -/
structure ChildrenOk (R : List Rule) (p : List Label) (L : List Rule) (g : Growing)
    (children : List Work) (out : Growing × List Work) (ls : List Label) : Prop where
  works : out.2 = children ++ worksOf R g.nodes.length (ls.map fun l => p ++ [l])
  sorted : ls.Pairwise fun l m => lengthPrefixed l < lengthPrefixed m
  mem : ∀ l, l ∈ ls ↔ ∃ r ∈ L, Below p l r
  nodes : ∃ new, out.1.nodes = g.nodes ++ new ∧ List.Forall₂ (fun l n => n.flags = 0 ∧
    (out.1.labels.length ≤ 2 ^ 32 → InternedOk g → Labelled out.1.labels n l)) ls new
  labels : g.labels <+: out.1.labels
  interned : out.1.labels.length ≤ 2 ^ 32 → InternedOk g → InternedOk out.1

theorem childrenLoop_ok : ∀ (fuel : ℕ) (L : List Rule) (g : Growing) (children : List Work),
    L.length ≤ fuel → Sorted L → (∀ r ∈ L, ∃ l, Below p l r) →
    (∀ r ∈ L, ∀ l, Below p l r → L.filter (isUnder (p ++ [l])) = under R (p ++ [l])) →
    ∃ ls, ChildrenOk R p L g children (childrenLoop (keyOf p).length fuel L g children) ls
  | fuel, [], g, children, _, _, _, _ => by
    have hnil : childrenLoop (keyOf p).length fuel [] g children = (g, children) := by
      cases fuel <;> rfl
    rw [hnil]
    exact ⟨[], by simp [worksOf], .nil, by simp, ⟨[], by simp, .nil⟩, List.prefix_rfl, fun _ h => h⟩
  | 0, _ :: _, _, _, hfuel, _, _, _ => absurd hfuel (by simp)
  | fuel + 1, r :: rest, g, children, hfuel, hsorted, hbelow, hunder => by
    obtain ⟨l, hl⟩ := hbelow r (by simp)
    have hrest : ∀ x ∈ rest, ∃ m, Below p m x := fun x hx => hbelow x (by simp [hx])
    obtain ⟨hlength, hlabel⟩ := next_label hl
    obtain ⟨htake, hdrop⟩ := run_eq (fun x hx => (hrest x hx).elim fun m hm => chunk_eq_iff hl hm)
      hl hrest hsorted
    have hself : isUnder (p ++ [l]) r = true := (hl.isUnder_iff hl.length_lt).mpr rfl
    have hrun : r :: rest.filter (isUnder (p ++ [l])) = under R (p ++ [l]) := by
      rw [← hunder r (by simp) l hl, List.filter_cons_of_pos hself]
    -- the rules left are under other children
    have hleft : ∀ x ∈ rest.filter (fun x => !isUnder (p ++ [l]) x), ∀ m, Below p m x → m ≠ l := by
      rintro x hx m hm rfl
      have hnot := (List.mem_filter.mp hx).2
      rw [(hm.isUnder_iff hm.length_lt).mpr rfl] at hnot
      exact absurd hnot (by simp)
    have hunder' : ∀ x ∈ rest.filter (fun x => !isUnder (p ++ [l]) x), ∀ m, Below p m x →
        (rest.filter fun x => !isUnder (p ++ [l]) x).filter (isUnder (p ++ [m])) =
          under R (p ++ [m]) := by
      intro x hx m hm
      have hne := hleft x hx m hm
      have hother : ¬ isUnder (p ++ [m]) r = true := by
        rw [hl.isUnder_iff hm.length_lt]
        exact hne
      rw [← hunder x (by simp [List.mem_of_mem_filter hx]) m hm, List.filter_cons_of_neg hother,
        List.filter_filter]
      refine List.filter_congr fun y hy => ?_
      obtain ⟨n, hn⟩ := hrest y hy
      cases hmy : isUnder (p ++ [m]) y with
      | false => rfl
      | true =>
        obtain rfl := (hn.isUnder_iff hm.length_lt).mp hmy
        have hly : isUnder (p ++ [l]) y = false := by
          rw [Bool.eq_false_iff, Ne, hn.isUnder_iff hl.length_lt]
          exact hne.symm
        rw [hly]
        rfl
    obtain ⟨hnodes, hmore, hintern⟩ := intern_spec g l
    unfold childrenLoop
    dsimp only
    rw [hlength, hlabel, htake, hdrop, hrun]
    set g₁ : Growing := { (intern g l).1 with nodes := (intern g l).1.nodes ++
      [{ labelOffset := (intern g l).2, labelLength := r.key.getD (keyOf p).length 0 }] } with hg₁
    have hlength₁ : g₁.nodes.length = g.nodes.length + 1 := by
      rw [hg₁]
      simp [hnodes]
    obtain ⟨ls, hls⟩ := childrenLoop_ok fuel (rest.filter fun x => !isUnder (p ++ [l]) x) g₁
      (children ++ [⟨UInt32.ofNat (g₁.nodes.length - 1), under R (p ++ [l]),
        (keyOf p).length + 1 + l.length⟩])
      ((List.length_filter_le ..).trans (Nat.le_of_succ_le_succ hfuel))
      ((List.pairwise_cons.mp hsorted).2.sublist List.filter_sublist)
      (fun x hx => hrest x (List.mem_of_mem_filter hx)) hunder'
    refine ⟨l :: ls, ?_, ?_, ?_, ?_, ?_, ?_⟩
    · rw [hls.works, hlength₁, List.map_cons, worksOf, keyOf_snoc, List.length_append,
        Nat.add_sub_cancel, List.append_assoc, Nat.add_assoc, Nat.add_comm 1]
      rfl
    · refine List.pairwise_cons.mpr ⟨fun m hm => ?_, hls.sorted⟩
      obtain ⟨x, hx, hmx⟩ := (hls.mem m).mp hm
      have hle := label_le_of_sorted hl hmx
        ((List.pairwise_cons.mp hsorted).1 x (List.mem_of_mem_filter hx))
      refine List.not_le.mp fun hge => hleft x hx m hmx ?_
      exact (List.cons.inj (List.le_antisymm hge (List.not_lt.mp hle))).2
    · intro m
      rw [List.mem_cons, hls.mem m]
      constructor
      · rintro (rfl | ⟨x, hx, hm⟩)
        · exact ⟨r, by simp, hl⟩
        · exact ⟨x, by simp [List.mem_of_mem_filter hx], hm⟩
      · rintro ⟨x, hx, hm⟩
        by_cases hsame : m = l
        · exact .inl hsame
        · refine .inr ⟨x, List.mem_filter.mpr ⟨?_, ?_⟩, hm⟩
          · rcases List.mem_cons.mp hx with rfl | hx
            · exact absurd ((hm.isUnder_iff hl.length_lt).mp hself).symm hsame
            · exact hx
          · rw [Bool.not_eq_true', Bool.eq_false_iff, Ne, hm.isUnder_iff hl.length_lt]
            exact fun h => hsame h.symm
    · obtain ⟨new, hnew, hall⟩ := hls.nodes
      refine ⟨_ :: new, by rw [hnew, hg₁, hnodes, List.append_assoc]; rfl, .cons ⟨rfl, ?_⟩ ?_⟩
      · intro hfits hok
        exact ⟨hlength, slice_mono (hintern (hls.labels.length_le.trans hfits) hok).2 hls.labels⟩
      · refine hall.imp fun m n hmn => ⟨hmn.1, fun hfits hok => hmn.2 hfits ?_⟩
        exact (hintern (hls.labels.length_le.trans hfits) hok).1
    · exact hmore.trans hls.labels
    · intro hfits hok
      exact hls.interned hfits (hintern (hls.labels.length_le.trans hfits) hok).1

/-! ### Termination -/

/-- How many nodes a node to be filled in can still bring. -/
def weight (w : Work) : ℕ := 1 + (w.rules.map fun r => r.key.length - w.offset).sum

theorem childrenLoop_weight (offset : ℕ) : ∀ (fuel : ℕ) (L : List Rule) (g : Growing)
    (children : List Work), (∀ r ∈ L, offset < r.key.length) →
    ((childrenLoop offset fuel L g children).2.map weight).sum ≤
      (children.map weight).sum + (L.map fun r => r.key.length - offset).sum
  | 0, _, _, _, _ => Nat.le_add_right ..
  | _ + 1, [], _, _, _ => Nat.le_add_right ..
  | fuel + 1, r :: rest, g, children, hlong => by
    unfold childrenLoop
    dsimp only
    generalize (fun x => chunk offset (r.key.getD offset 0) x ==
      chunk offset (r.key.getD offset 0) r) = same
    have hsplit : (rest.map fun r => r.key.length - offset).sum =
        ((rest.takeWhile same).map fun r => r.key.length - offset).sum +
          ((rest.dropWhile same).map fun r => r.key.length - offset).sum := by
      rw [← List.sum_append, ← List.map_append, List.takeWhile_append_dropWhile]
    have hdrop : ∀ x ∈ rest.dropWhile same, offset < x.key.length := fun x hx =>
      hlong x (List.mem_cons_of_mem _ ((List.dropWhile_sublist same).subset hx))
    have hless : ((rest.takeWhile same).map fun x =>
          x.key.length - (offset + 1 + (r.key.getD offset 0).toNat)).sum ≤
        ((rest.takeWhile same).map fun x => x.key.length - offset).sum :=
      List.sum_le_sum fun x _ => by omega
    have hr := hlong r List.mem_cons_self
    refine (childrenLoop_weight offset fuel (rest.dropWhile same) _ _ hdrop).trans ?_
    rw [List.map_append, List.sum_append, List.map_singleton, List.sum_singleton, weight,
      List.map_cons, List.sum_cons, List.map_cons, List.sum_cons, hsplit]
    dsimp only
    omega

theorem childrenLoop_grows (offset : ℕ) : ∀ (fuel : ℕ) (L : List Rule) (g : Growing)
    (children : List Work), g.nodes <+: (childrenLoop offset fuel L g children).1.nodes ∧
      g.labels <+: (childrenLoop offset fuel L g children).1.labels
  | 0, _, _, _ => ⟨List.prefix_rfl, List.prefix_rfl⟩
  | _ + 1, [], _, _ => ⟨List.prefix_rfl, List.prefix_rfl⟩
  | fuel + 1, r :: rest, g, children => by
    unfold childrenLoop
    dsimp only
    generalize (r.key.drop (offset + 1)).take (r.key.getD offset 0).toNat = label
    obtain ⟨hnodes, hlabels, -⟩ := intern_spec g label
    refine (childrenLoop_grows offset fuel _ _ _).imp (List.IsPrefix.trans ?_) hlabels.trans
    rw [hnodes]
    exact List.prefix_append ..

theorem pack_grows (g : Growing) (w : Work) :
    g.nodes.length ≤ (pack g w).1.nodes.length ∧ g.labels.length ≤ (pack g w).1.labels.length := by
  unfold pack
  dsimp only
  obtain ⟨hnodes, hlabels⟩ := childrenLoop_grows w.offset
    (w.rules.dropWhile fun r => r.key.length == w.offset).length
    (w.rules.dropWhile fun r => r.key.length == w.offset) { g with
      nodes := g.nodes.modify w.node.toNat fun n =>
        (w.rules.takeWhile fun r => r.key.length == w.offset).foldl record n } []
  have hlength := hnodes.length_le
  rw [List.length_modify] at hlength ⊢
  exact ⟨hlength, hlabels.length_le⟩

/-! ### Filling in a node -/

/-- The flags of the rules with an action. -/
def kinds : ListAction → UInt8
  | .block => kBlockExact ||| kBlockSubtree
  | .allow => kAllowExact ||| kAllowSubtree

/-- The source that a node has for an action. -/
def sourceFor (n : Node) : ListAction → UInt16
  | .block => n.blockSource
  | .allow => n.allowSource

/-- The first rule with an action for the name of a key. -/
def firstFor (R : List Rule) (key : List UInt8) (action : ListAction) : Option Rule :=
  R.find? fun r => r.key == key && r.flags &&& kinds action != 0

/-- A node is right: it has the flags of its rules, the sources of the first of them, and the children that
rules are under. -/
structure NodeOk (R : List Rule) (paths : List (List Label)) (p : List Label) (n : Node) : Prop where
  flags : ∀ bits, n.flags &&& bits ≠ 0 ↔ ∃ r ∈ R, r.key = keyOf p ∧ r.flags &&& bits ≠ 0
  sources : ∀ action r, firstFor R (keyOf p) action = some r → sourceFor n action = r.source
  children : ∃ ls : List Label, ls.Pairwise (fun l m => lengthPrefixed l < lengthPrefixed m) ∧
    (∀ l, l ∈ ls ↔ ∃ r ∈ R, Below p l r) ∧ n.childCount.toNat = ls.length ∧
    ∀ j l, ls[j]? = some l → paths[n.firstChild.toNat + j]? = some (p ++ [l])

theorem NodeOk.mono {paths paths' : List (List Label)} {n : Node} (h : NodeOk R paths p n)
    (hsub : paths <+: paths') : NodeOk R paths' p n := by
  obtain ⟨ls, hsorted, hmem, hcount, hpaths⟩ := h.children
  refine ⟨h.flags, h.sources, ls, hsorted, hmem, hcount, fun j l hj => ?_⟩
  have hold := hpaths j l hj
  obtain ⟨more, rfl⟩ := hsub
  rw [List.getElem?_append_left (List.getElem?_eq_some_iff.mp hold).1]
  exact hold

theorem and_or_ne_zero (a b bits : UInt8) :
    (a ||| b) &&& bits ≠ 0 ↔ a &&& bits ≠ 0 ∨ b &&& bits ≠ 0 := by
  have hdistrib : (a ||| b) &&& bits = (a &&& bits) ||| (b &&& bits) := by
    rw [← UInt8.toBitVec_inj]
    simp [BitVec.and_or_distrib_right]
  rw [hdistrib, Ne, UInt8.or_eq_zero_iff, not_and_or]

theorem foldl_record (bits : UInt8) : ∀ (rules : List Rule) (n : Node),
    ((rules.foldl record n).flags &&& bits ≠ 0 ↔
      n.flags &&& bits ≠ 0 ∨ ∃ r ∈ rules, r.flags &&& bits ≠ 0) ∧
    (rules.foldl record n).labelOffset = n.labelOffset ∧
    (rules.foldl record n).labelLength = n.labelLength
  | [], n => by simp
  | r :: rules, n => by
    obtain ⟨hflags, hoffset, hlength⟩ := foldl_record bits rules (record n r)
    refine ⟨?_, hoffset, hlength⟩
    rw [List.foldl_cons, hflags, show (record n r).flags = n.flags ||| r.flags from rfl,
      and_or_ne_zero]
    simp [or_assoc]

theorem flags_record (n : Node) (r : Rule) : (record n r).flags = n.flags ||| r.flags := rfl

theorem sourceFor_record (action : ListAction) (n : Node) (r : Rule) :
    sourceFor (record n r) action =
      if r.flags &&& kinds action != 0 && n.flags &&& kinds action == 0 then r.source
      else sourceFor n action := by
  cases action <;> rfl

/-- A node with rules of an action keeps their source. -/
theorem foldl_record_kept (action : ListAction) : ∀ (rules : List Rule) (n : Node),
    n.flags &&& kinds action ≠ 0 → sourceFor (rules.foldl record n) action = sourceFor n action
  | [], _, _ => rfl
  | r :: rules, n, h => by
    have hnext : (record n r).flags &&& kinds action ≠ 0 := by
      rw [flags_record, and_or_ne_zero]
      exact .inl h
    rw [List.foldl_cons, foldl_record_kept action rules _ hnext, sourceFor_record]
    simp [h]

/-- A node gets the source of the first rule. -/
theorem foldl_record_source (action : ListAction) : ∀ (rules : List Rule) (n : Node) {r : Rule},
    n.flags &&& kinds action = 0 → (rules.find? fun r => r.flags &&& kinds action != 0) = some r →
      sourceFor (rules.foldl record n) action = r.source
  | [], _, _, _, hfind => by simp at hfind
  | r :: rules, n, r', h, hfind => by
    rw [List.foldl_cons]
    by_cases hr : r.flags &&& kinds action = 0
    · rw [List.find?_cons_of_neg (by simp [hr])] at hfind
      have hnext : (record n r).flags &&& kinds action = 0 := by
        by_contra hne
        rcases (and_or_ne_zero _ _ _).mp (flags_record n r ▸ hne) with hn | hr'
        · exact hn h
        · exact hr' hr
      exact foldl_record_source action rules _ hnext hfind
    · rw [List.find?_cons_of_pos (by simpa using hr)] at hfind
      obtain rfl := Option.some.inj hfind
      have hnext : (record n r).flags &&& kinds action ≠ 0 := by
        rw [flags_record, and_or_ne_zero]
        exact .inr hr
      rw [foldl_record_kept action rules _ hnext, sourceFor_record]
      simp [hr, h]

/-- The paths of the nodes: every one but the root is a child of one of the first `k`. -/
structure PathsOk (paths : List (List Label)) (k : ℕ) : Prop where
  root : paths[0]? = some []
  valid : ∀ p ∈ paths, Valid p
  nodup : paths.Nodup
  parents : ∀ p l, p ++ [l] ∈ paths → ∃ j < k, paths[j]? = some p

theorem PathsOk.extend {paths : List (List Label)} {k : ℕ} (h : PathsOk paths k)
    (hp : paths[k]? = some p) {ls : List Label} (hvalid : ∀ l ∈ ls, l.length < 256)
    (hnodup : ls.Nodup) : PathsOk (paths ++ ls.map fun l => p ++ [l]) (k + 1) where
  root := by
    rw [List.getElem?_append_left (List.getElem?_eq_some_iff.mp h.root).1]
    exact h.root
  valid q hq := by
    rcases List.mem_append.mp hq with hq | hq
    · exact h.valid q hq
    · obtain ⟨l, hl, rfl⟩ := List.mem_map.mp hq
      exact (h.valid p (List.mem_of_getElem? hp)).snoc (hvalid l hl)
  nodup := by
    refine List.Nodup.append h.nodup (hnodup.map fun l m hlm => by simpa using hlm) ?_
    intro q hq hnew
    obtain ⟨l, -, rfl⟩ := List.mem_map.mp hnew
    obtain ⟨j, hj, hpj⟩ := h.parents p l hq
    have hlt : j < paths.length := (List.getElem?_eq_some_iff.mp hpj).1
    exact absurd ((List.getElem?_inj hlt h.nodup).mp (hpj.trans hp.symm)) (by omega)
  parents q l hq := by
    rcases List.mem_append.mp hq with hq | hq
    · obtain ⟨j, hj, hpj⟩ := h.parents q l hq
      refine ⟨j, by omega, ?_⟩
      rw [List.getElem?_append_left (List.getElem?_eq_some_iff.mp hpj).1]
      exact hpj
    · obtain ⟨m, -, hm⟩ := List.mem_map.mp hq
      obtain rfl : p = q := (List.append_inj' hm rfl).1
      refine ⟨k, by omega, ?_⟩
      rw [List.getElem?_append_left (List.getElem?_eq_some_iff.mp hp).1]
      exact hp

/-- The trie is being built: the nodes are for `paths`, and the first `k` of them are right. -/
structure Packed (R : List Rule) (g : Growing) (paths : List (List Label)) (k : ℕ) : Prop where
  placed : PathsOk paths k
  length : paths.length = g.nodes.length
  interned : InternedOk g
  labels : ∀ (i : ℕ) p l n, paths[i]? = some (p ++ [l]) → g.nodes[i]? = some n →
    Labelled g.labels n l
  fresh : ∀ (i : ℕ) n, k ≤ i → g.nodes[i]? = some n → n.flags = 0
  done : ∀ (i : ℕ) p n, i < k → paths[i]? = some p → g.nodes[i]? = some n → NodeOk R paths p n

/-- Its numbers fit into their fields. -/
def Fits (nodes : List Node) (labels : List UInt8) : Prop :=
  nodes.length ≤ 2 ^ 32 ∧ labels.length ≤ 2 ^ 32

variable {g : Growing} {paths : List (List Label)} {k : ℕ}

theorem Packed.node (h : Packed R g paths k) {i : ℕ} (hp : paths[i]? = some p) :
    ∃ n, g.nodes[i]? = some n := by
  have hlt := (List.getElem?_eq_some_iff.mp hp).1
  rw [h.length] at hlt
  exact ⟨_, List.getElem?_eq_getElem hlt⟩

/-- The rules below `p`, as `pack` finds them. -/
theorem below_spec (hp : Valid p) (hR : Keyed R) (hsorted : Sorted R) :
    ∃ L, ((under R p).dropWhile fun r => r.key.length == (keyOf p).length) = L ∧ Sorted L ∧
      (∀ r ∈ L, ∃ l, Below p l r) ∧ (∀ l, (∃ r ∈ L, Below p l r) ↔ ∃ r ∈ R, Below p l r) ∧
      ∀ r ∈ L, ∀ l, Below p l r → L.filter (isUnder (p ++ [l])) = under R (p ++ [l]) := by
  have hlong : ∀ {r l}, Below p l r →
      isUnder p r = true ∧ (!(r.key.length == (keyOf p).length)) = true := by
    intro r l hl
    obtain ⟨u, hu⟩ := hl.key
    refine ⟨isUnder_iff.mpr ⟨_, hu.symm⟩, ?_⟩
    rw [hu]
    simp [lengthPrefixed]
  refine ⟨_, dropWhile_eq_filter (own_first hp hR hsorted), ?_, ?_, ?_, ?_⟩
  · exact (hsorted.sublist List.filter_sublist).sublist List.filter_sublist
  · intro r hr
    obtain ⟨hmem, hnot⟩ := List.mem_filter.mp hr
    rcases here_or_below hp hR hmem with hkey | hbelow
    · rw [(mem_own hmem).mpr hkey] at hnot
      exact absurd hnot (by simp)
    · exact hbelow
  · intro l
    constructor
    · rintro ⟨r, hr, hl⟩
      exact ⟨r, (mem_under.mp (List.mem_of_mem_filter hr)).1, hl⟩
    · rintro ⟨r, hr, hl⟩
      obtain ⟨hunder, hnot⟩ := hlong hl
      exact ⟨r, List.mem_filter.mpr ⟨List.mem_filter.mpr ⟨hr, hunder⟩, hnot⟩, hl⟩
  · intro r hr l hl
    unfold under
    rw [List.filter_filter, List.filter_filter]
    refine List.filter_congr fun x hx => ?_
    cases hunder : isUnder (p ++ [l]) x with
    | false => rfl
    | true =>
      have hbegins : isUnder p x = true := by
        rw [isUnder_iff, keyOf_snoc] at hunder
        exact isUnder_iff.mpr ((List.prefix_append ..).trans hunder)
      obtain ⟨m, hm⟩ : ∃ m, Below p m x := by
        rcases here_or_below hp hR (List.mem_filter.mpr ⟨hx, hbegins⟩) with hkey | hbelow
        · rw [isUnder_iff, hkey, keyOf_snoc] at hunder
          exact absurd hunder.length_le (by simp [lengthPrefixed])
        · exact hbelow
      rw [hbegins, (hlong hm).2]
      rfl

theorem getElem?_of_forall₂ {α β : Type*} {P : α → β → Prop} {xs : List α} {ys : List β}
    (h : List.Forall₂ P xs ys) {j : ℕ} {y : β} (hy : ys[j]? = some y) : ∃ x, xs[j]? = some x ∧ P x y := by
  induction h generalizing j with
  | nil => simp at hy
  | cons hxy _ ih =>
    cases j with
    | zero =>
      obtain rfl := Option.some.inj hy
      exact ⟨_, rfl, hxy⟩
    | succ j => exact ih hy

/-- A node is changed, others are appended, and it is changed again. -/
theorem getElem?_filled {nodes new : List Node} {f h : Node → Node} (hk : k < nodes.length) (i : ℕ) :
    ((nodes.modify k f ++ new).modify k h)[i]? =
      if i = k then nodes[k]?.map (h ∘ f)
      else if i < nodes.length then nodes[i]? else new[i - nodes.length]? := by
  rw [List.getElem?_modify]
  by_cases hik : i = k
  · subst hik
    rw [if_pos rfl, List.getElem?_append_left (by rwa [List.length_modify]), List.getElem?_modify]
    simp
  · rw [if_neg hik]
    by_cases hlt : i < nodes.length
    · rw [if_pos hlt, List.getElem?_append_left (by rwa [List.length_modify]), List.getElem?_modify]
      simp [Ne.symm hik]
    · rw [if_neg hlt, List.getElem?_append_right (by rw [List.length_modify]; omega),
        List.length_modify]
      simp [Ne.symm hik]

/-- **One turn of the loop of `build`**: one more node is right, and its children are appended. -/
theorem pack_ok (hR : Keyed R) (hsorted : Sorted R) (h : Packed R g paths k) (hp : paths[k]? = some p)
    (hfits : Fits (pack g ⟨UInt32.ofNat k, under R p, (keyOf p).length⟩).1.nodes
      (pack g ⟨UInt32.ofNat k, under R p, (keyOf p).length⟩).1.labels) :
    ∃ ls : List Label, Packed R (pack g ⟨UInt32.ofNat k, under R p, (keyOf p).length⟩).1
        (paths ++ ls.map fun l => p ++ [l]) (k + 1) ∧
      (pack g ⟨UInt32.ofNat k, under R p, (keyOf p).length⟩).2 =
        worksOf R paths.length (ls.map fun l => p ++ [l]) := by
  have hvalid : Valid p := h.placed.valid p (List.mem_of_getElem? hp)
  obtain ⟨n, hn⟩ := h.node hp
  have hk : k < g.nodes.length := (List.getElem?_eq_some_iff.mp hn).1
  obtain ⟨L, hL, hLsorted, hbelow, hmem, hunder⟩ := below_spec hvalid hR hsorted
  have hk32 : k < 2 ^ 32 := hk.trans_le ((pack_grows g _).1.trans hfits.1)
  unfold pack at hfits ⊢
  dsimp only at hfits ⊢
  rw [hL, UInt32.toNat_ofNat_of_lt' hk32, List.length_modify] at hfits ⊢
  obtain ⟨ls, hls⟩ := childrenLoop_ok L.length L { g with nodes := g.nodes.modify k fun n =>
    ((under R p).takeWhile fun r => r.key.length == (keyOf p).length).foldl record n } []
    le_rfl hLsorted hbelow hunder
  generalize childrenLoop (keyOf p).length L.length L { g with nodes := g.nodes.modify k fun n =>
    ((under R p).takeWhile fun r => r.key.length == (keyOf p).length).foldl record n } [] = out
    at hls hfits ⊢
  obtain ⟨new, hnew, hall⟩ := hls.nodes
  have hchildren := hls.works
  dsimp only at hnew hchildren
  rw [List.nil_append, List.length_modify] at hchildren
  rw [hnew] at hfits ⊢
  rw [hchildren, length_worksOf, List.length_map]
  have hcount : ls.length = new.length := hall.length_eq
  have hlength := h.length
  have htotal : g.nodes.length + ls.length ≤ 2 ^ 32 := by
    have hlast := hfits.1
    rw [List.length_modify, List.length_append, List.length_modify] at hlast
    omega
  refine ⟨ls, ⟨h.placed.extend hp ?_ ?_, ?_, hls.interned hfits.2 h.interned, ?_, ?_, ?_⟩,
    by rw [h.length]⟩
  · intro l hl
    obtain ⟨r, -, hr⟩ := (hls.mem l).mp hl
    exact hr.length_lt
  · refine hls.sorted.imp fun {l m} hlt heq => ?_
    rw [heq] at hlt
    exact List.lt_irrefl _ hlt
  · simp [hlength, hcount]
  · intro i q l n' hq hn'
    rw [getElem?_filled hk] at hn'
    split_ifs at hn' with hik hlt
    · subst hik
      rw [List.getElem?_append_left (by omega)] at hq
      obtain ⟨hsize, hslice⟩ := h.labels i q l n hq hn
      rw [hn] at hn'
      obtain rfl := Option.some.inj hn'
      obtain ⟨-, hoffset', hsize'⟩ := foldl_record 0
        ((under R p).takeWhile fun r => r.key.length == (keyOf p).length) n
      refine ⟨(congrArg UInt8.toNat hsize').trans hsize, ?_⟩
      dsimp only [Function.comp_apply]
      rw [hoffset']
      exact slice_mono hslice hls.labels
    · rw [List.getElem?_append_left (by omega)] at hq
      obtain ⟨hsize, hslice⟩ := h.labels i q l n' hq hn'
      exact ⟨hsize, slice_mono hslice hls.labels⟩
    · rw [List.getElem?_append_right (by omega), hlength, List.getElem?_map] at hq
      obtain ⟨m, hm, -, hslice⟩ := getElem?_of_forall₂ hall hn'
      rw [hm] at hq
      obtain rfl : m = l := by simpa using (List.append_inj' (Option.some.inj hq) rfl).2
      exact hslice hfits.2 h.interned
  · intro i n' hi hn'
    rw [getElem?_filled hk, if_neg (by omega)] at hn'
    split_ifs at hn' with hlt
    · exact h.fresh i n' (by omega) hn'
    · obtain ⟨m, -, hflags, -⟩ := getElem?_of_forall₂ hall hn'
      exact hflags
  · intro i q n' hi hq hn'
    rw [getElem?_filled hk] at hn'
    split_ifs at hn' with hik hlt
    · subst hik
      rw [List.getElem?_append_left (by omega), hp] at hq
      obtain rfl := Option.some.inj hq
      rw [hn] at hn'
      obtain rfl := Option.some.inj hn'
      refine ⟨fun bits => ?_, fun action r hr => ?_, ls, hls.sorted,
        fun l => (hls.mem l).trans (hmem l), ?_, ?_⟩
      · obtain ⟨hflags, -⟩ := foldl_record bits
          ((under R p).takeWhile fun r => r.key.length == (keyOf p).length) n
        refine hflags.trans ?_
        simp only [h.fresh i n le_rfl hn, mem_takeWhile_own hvalid hR hsorted, and_assoc]
        simp
      · have hfirst := hr
        unfold firstFor at hfirst
        rw [← find?_takeWhile_own hvalid hR hsorted] at hfirst
        have hsource := foldl_record_source action _ n (by rw [h.fresh i n le_rfl hn]; simp) hfirst
        cases action <;> exact hsource
      · exact UInt32.toNat_ofNat_of_lt' (by show ls.length < 2 ^ 32; omega)
      · intro j l hj
        have hjlt : j < ls.length := (List.getElem?_eq_some_iff.mp hj).1
        have hfirst : (UInt32.ofNat g.nodes.length).toNat = g.nodes.length :=
          UInt32.toNat_ofNat_of_lt' (by show g.nodes.length < 2 ^ 32; omega)
        dsimp only [Function.comp_apply]
        rw [hfirst, ← hlength, List.getElem?_append_right (by omega), Nat.add_sub_cancel_left,
          List.getElem?_map, hj]
        rfl
    · rw [List.getElem?_append_left (by omega)] at hq
      exact (h.done i q n' (by omega) hq hn').mono (List.prefix_append ..)
    · omega

/-- A node brings fewer nodes than it could. -/
theorem pack_weight (hp : Valid p) (hR : Keyed R) (hsorted : Sorted R) (g : Growing) (k : UInt32) :
    ((pack g ⟨k, under R p, (keyOf p).length⟩).2.map weight).sum + 1 ≤
      weight ⟨k, under R p, (keyOf p).length⟩ := by
  obtain ⟨L, hL, -, hbelow, -⟩ := below_spec hp hR hsorted
  have hlong : ∀ r ∈ L, (keyOf p).length < r.key.length := by
    intro r hr
    obtain ⟨l, hl⟩ := hbelow r hr
    obtain ⟨u, hu⟩ := hl.key
    rw [hu]
    simp [lengthPrefixed]
  have hsub : L.Sublist (under R p) := hL ▸ List.dropWhile_sublist _
  have hsum : (L.map fun r => r.key.length - (keyOf p).length).sum ≤
      ((under R p).map fun r => r.key.length - (keyOf p).length).sum :=
    (hsub.map _).sum_le_sum fun _ _ => Nat.zero_le _
  unfold pack weight
  dsimp only
  rw [hL]
  have hchildren := childrenLoop_weight (keyOf p).length L.length L { g with
    nodes := g.nodes.modify k.toNat fun n =>
      ((under R p).takeWhile fun r => r.key.length == (keyOf p).length).foldl record n } [] hlong
  rw [List.map_nil, List.sum_nil] at hchildren
  unfold weight at hchildren
  omega

/-! ### The whole trie -/

theorem buildLoop_grows : ∀ (fuel : ℕ) (g : Growing) (queue : List Work),
    g.nodes.length ≤ (buildLoop fuel g queue).nodes.length ∧
      g.labels.length ≤ (buildLoop fuel g queue).labels.length
  | 0, _, _ => ⟨le_rfl, le_rfl⟩
  | _ + 1, _, [] => ⟨le_rfl, le_rfl⟩
  | fuel + 1, g, w :: queue => by
    obtain ⟨hnodes, hlabels⟩ := pack_grows g w
    exact (buildLoop_grows fuel (pack g w).1 (queue ++ (pack g w).2)).imp hnodes.trans hlabels.trans

theorem Packed.last {g : Growing} {paths : List (List Label)} {k : ℕ} (h : Packed R g paths k)
    (hk : k ≤ paths.length) (hdrop : paths.drop k = []) : ∃ all, Packed R g all all.length :=
  ⟨paths, Nat.le_antisymm hk (List.drop_eq_nil_iff.mp hdrop) ▸ h⟩

theorem buildLoop_packed (hR : Keyed R) (hsorted : Sorted R) :
    ∀ (fuel : ℕ) (g : Growing) (paths : List (List Label)) (k : ℕ), Packed R g paths k →
      k ≤ paths.length → ((worksOf R k (paths.drop k)).map weight).sum ≤ fuel →
      Fits (buildLoop fuel g (worksOf R k (paths.drop k))).nodes
        (buildLoop fuel g (worksOf R k (paths.drop k))).labels →
      ∃ all, Packed R (buildLoop fuel g (worksOf R k (paths.drop k))) all all.length := by
  intro fuel
  induction fuel with
  | zero =>
    intro g paths k h hk hweight hfits
    cases hdrop : paths.drop k with
    | nil => exact h.last hk hdrop
    | cons p rest =>
      rw [hdrop] at hweight
      simp [worksOf, weight] at hweight
  | succ fuel ih =>
    intro g paths k h hk hweight hfits
    cases hdrop : paths.drop k with
    | nil => exact h.last hk hdrop
    | cons p rest =>
      rw [hdrop] at hweight hfits
      have hp : paths[k]? = some p := by
        rw [← List.head?_drop, hdrop]
        rfl
      have hvalid := h.placed.valid p (List.mem_of_getElem? hp)
      have hrest : paths.drop (k + 1) = rest := by
        rw [← List.tail_drop, hdrop]
        rfl
      have hlength : k + 1 + rest.length = paths.length := by
        have := congrArg List.length hdrop
        rw [List.length_drop, List.length_cons] at this
        omega
      have hbrings := pack_weight hvalid hR hsorted g (UInt32.ofNat k)
      unfold worksOf buildLoop at hfits ⊢
      dsimp only at hfits ⊢
      have hgrows := buildLoop_grows fuel (pack g ⟨UInt32.ofNat k, under R p, (keyOf p).length⟩).1
        (worksOf R (k + 1) rest ++ (pack g ⟨UInt32.ofNat k, under R p, (keyOf p).length⟩).2)
      obtain ⟨ls, hpacked, hchildren⟩ := pack_ok hR hsorted h hp
        ⟨hgrows.1.trans hfits.1, hgrows.2.trans hfits.2⟩
      have hqueue : worksOf R (k + 1) rest ++
          (pack g ⟨UInt32.ofNat k, under R p, (keyOf p).length⟩).2 =
          worksOf R (k + 1) ((paths ++ ls.map fun l => p ++ [l]).drop (k + 1)) := by
        rw [hchildren, List.drop_append_of_le_length (by omega), hrest, worksOf_append, hlength]
      rw [hqueue] at hfits ⊢
      refine ih _ _ _ hpacked (by rw [List.length_append]; omega) ?_ hfits
      rw [← hqueue, List.map_append, List.sum_append]
      rw [worksOf, List.map_cons, List.sum_cons] at hweight
      omega

instance : Std.Total fun a b : Rule => ¬ b.key < a.key :=
  ⟨fun a b => List.le_total a.key b.key⟩

instance : IsTrans Rule fun a b => ¬ b.key < a.key :=
  ⟨fun _ _ _ hab hbc => List.le_trans hab hbc⟩

theorem sorted_sortRules (rules : List Rule) : Sorted (sortRules rules) :=
  List.pairwise_insertionSort _ rules

theorem packed_start (R : List Rule) : Packed R {} [[]] 0 where
  placed := ⟨rfl, fun p hp => by simp_all [Valid], by simp, fun p l hmem => by simp at hmem⟩
  length := rfl
  interned l offset h := by simp at h
  labels i p l n hp := by
    rw [List.getElem?_singleton] at hp
    split_ifs at hp
    simp at hp
  fresh i n _ hn := by
    rw [show ({} : Growing).nodes = [{}] from rfl, List.getElem?_singleton] at hn
    split_ifs at hn
    obtain rfl := Option.some.inj hn
    rfl
  done i p n hi := absurd hi (Nat.not_lt_zero i)

/-- **The trie that `build` makes represents the rules.** -/
theorem build_packed {b : Builder} (hR : Keyed b.rules) (hfits : Fits (build b).nodes (build b).labels) :
    ∃ g paths, g.nodes = (build b).nodes ∧ g.labels = (build b).labels ∧
      Packed (sortRules b.rules) g paths paths.length := by
  have hkeyed : Keyed (sortRules b.rules) :=
    fun r hr => hR r ((List.perm_insertionSort _ _).mem_iff.mp hr)
  have hall : under (sortRules b.rules) [] = sortRules b.rules :=
    List.filter_eq_self.mpr fun r _ => isUnder_iff.mpr List.nil_prefix
  have hqueue : worksOf (sortRules b.rules) 0 ([[]].drop 0) = [⟨0, sortRules b.rules, 0⟩] := by
    rw [List.drop_zero, worksOf, hall]
    rfl
  have hweight : ((worksOf (sortRules b.rules) 0 ([[]].drop 0)).map weight).sum ≤
      1 + ((sortRules b.rules).map fun r => r.key.length).sum := by
    rw [hqueue]
    exact le_of_eq (by simp [weight])
  obtain ⟨paths, hpaths⟩ := buildLoop_packed hkeyed (sorted_sortRules b.rules) _ {} [[]] 0
    (packed_start _) (Nat.zero_le _) hweight (by rw [hqueue]; exact hfits)
  rw [hqueue] at hpaths
  exact ⟨_, paths, rfl, rfl, hpaths⟩

/-! ### What the keys decide

The numbers of nodes and of label bytes depend on the keys of the sorted rules only, and these not on the
order in which the rules were added. -/

/-- The two have as many nodes, and the same labels. -/
structure SameShape (g g' : Growing) : Prop where
  nodes : g.nodes.length = g'.nodes.length
  labels : g.labels = g'.labels
  interned : g.interned = g'.interned

/-- The same work, but for flags and sources. -/
structure SameWork (w w' : Work) : Prop where
  keys : w.rules.map Rule.key = w'.rules.map Rule.key
  offset : w.offset = w'.offset

variable {g' : Growing} {L L' : List Rule}

theorem takeWhile_keys (h : L.map Rule.key = L'.map Rule.key) (q : List UInt8 → Bool) :
    (L.takeWhile fun r => q r.key).map Rule.key = (L'.takeWhile fun r => q r.key).map Rule.key := by
  have hmap : ∀ L : List Rule, (L.takeWhile fun r => q r.key).map Rule.key = (L.map Rule.key).takeWhile q :=
    fun L => List.takeWhile_map.symm
  rw [hmap, hmap, h]

theorem dropWhile_keys (h : L.map Rule.key = L'.map Rule.key) (q : List UInt8 → Bool) :
    (L.dropWhile fun r => q r.key).map Rule.key = (L'.dropWhile fun r => q r.key).map Rule.key := by
  have hmap : ∀ L : List Rule, (L.dropWhile fun r => q r.key).map Rule.key = (L.map Rule.key).dropWhile q :=
    fun L => List.dropWhile_map.symm
  rw [hmap, hmap, h]

theorem intern_shape (h : SameShape g g') (l : Label) : SameShape (intern g l).1 (intern g' l).1 := by
  obtain ⟨hnodes, hlabels, hinterned⟩ := h
  unfold intern
  rw [hinterned, hlabels]
  cases g'.interned.lookup l with
  | some offset => exact ⟨hnodes, hlabels, hinterned⟩
  | none => exact ⟨hnodes, rfl, rfl⟩

theorem childrenLoop_shape (offset : ℕ) : ∀ (fuel : ℕ) (L L' : List Rule) (g g' : Growing)
    (children children' : List Work), L.map Rule.key = L'.map Rule.key → SameShape g g' →
    List.Forall₂ SameWork children children' →
    SameShape (childrenLoop offset fuel L g children).1 (childrenLoop offset fuel L' g' children').1 ∧
      List.Forall₂ SameWork (childrenLoop offset fuel L g children).2
        (childrenLoop offset fuel L' g' children').2
  | 0, _, _, _, _, _, _, _, hg, hchildren => ⟨hg, hchildren⟩
  | _ + 1, [], [], _, _, _, _, _, hg, hchildren => ⟨hg, hchildren⟩
  | fuel + 1, r :: rest, r' :: rest', g, g', children, children', hkeys, hg, hchildren => by
    obtain ⟨hkey, hrest⟩ := List.cons.inj hkeys
    have hrest : rest.map Rule.key = rest'.map Rule.key := hrest
    unfold childrenLoop chunk
    dsimp only
    rw [hkey]
    obtain ⟨hnodes, hlabels, hinterned⟩ :=
      intern_shape hg ((r'.key.drop (offset + 1)).take (r'.key.getD offset 0).toNat)
    refine childrenLoop_shape offset fuel _ _ _ _ _ _ (dropWhile_keys hrest fun key =>
      (key.drop offset).take _ == _) ⟨?_, hlabels, hinterned⟩ (List.rel_append hchildren (.cons ⟨?_, rfl⟩ .nil))
    · rw [List.length_append, List.length_append, hnodes]
      rfl
    · rw [List.map_cons, List.map_cons, hkey, takeWhile_keys hrest fun key => (key.drop offset).take _ == _]

theorem pack_shape {w w' : Work} (hg : SameShape g g') (hw : SameWork w w') :
    SameShape (pack g w).1 (pack g' w').1 ∧ List.Forall₂ SameWork (pack g w).2 (pack g' w').2 := by
  have hbelow := dropWhile_keys hw.keys fun key => key.length == w'.offset
  have hlength := congrArg List.length hbelow
  rw [List.length_map, List.length_map] at hlength
  unfold pack
  dsimp only
  rw [hw.offset, hlength]
  have hloop := childrenLoop_shape w'.offset
    (w'.rules.dropWhile fun r => r.key.length == w'.offset).length _ _ { g with
      nodes := g.nodes.modify w.node.toNat fun n =>
        (w.rules.takeWhile fun r => r.key.length == w'.offset).foldl record n } { g' with
      nodes := g'.nodes.modify w'.node.toNat fun n =>
        (w'.rules.takeWhile fun r => r.key.length == w'.offset).foldl record n } [] [] hbelow
    ⟨by rw [List.length_modify, List.length_modify, hg.nodes], hg.labels, hg.interned⟩ .nil
  refine ⟨⟨?_, hloop.1.labels, hloop.1.interned⟩, hloop.2⟩
  rw [List.length_modify, List.length_modify]
  exact hloop.1.nodes

theorem buildLoop_shape : ∀ (fuel : ℕ) (g g' : Growing) (works works' : List Work), SameShape g g' →
    List.Forall₂ SameWork works works' → SameShape (buildLoop fuel g works) (buildLoop fuel g' works')
  | 0, _, _, _, _, hg, _ => hg
  | _ + 1, _, _, [], [], hg, _ => hg
  | fuel + 1, g, g', w :: works, w' :: works', hg, .cons hw hworks => by
    obtain ⟨hpacked, hchildren⟩ := pack_shape hg hw
    exact buildLoop_shape fuel _ _ _ _ hpacked (List.rel_append hworks hchildren)

theorem keys_sortRules {rules rules' : List Rule}
    (h : (rules.map Rule.key).Perm (rules'.map Rule.key)) :
    (sortRules rules).map Rule.key = (sortRules rules').map Rule.key := by
  have hsorted : ∀ rules, ((sortRules rules).map Rule.key).Pairwise fun a b => ¬ b < a := fun rules =>
    (sorted_sortRules rules).map _ fun _ _ hab => hab
  have hperm : ∀ rules, ((sortRules rules).map Rule.key).Perm (rules.map Rule.key) := fun rules =>
    (List.perm_insertionSort _ rules).map _
  exact ((hperm rules).trans (h.trans (hperm rules').symm)).eq_of_pairwise
    (fun a b _ _ hab hba => List.le_antisymm hab hba) (hsorted rules) (hsorted rules')

/-- **Whether a trie fits does not depend on the order of the rules.** -/
theorem fits_perm {b b' : Builder} (h : (b.rules.map Rule.key).Perm (b'.rules.map Rule.key))
    (hfits : Fits (build b).nodes (build b).labels) : Fits (build b').nodes (build b').labels := by
  have hkeys := keys_sortRules h
  have hfuel : ((sortRules b.rules).map fun r => r.key.length) =
      (sortRules b'.rules).map fun r => r.key.length := by
    have hlengths := congrArg (List.map List.length) hkeys
    rwa [List.map_map, List.map_map] at hlengths
  have hshape := buildLoop_shape (1 + ((sortRules b'.rules).map fun r => r.key.length).sum) {} {}
    [⟨0, sortRules b.rules, 0⟩] [⟨0, sortRules b'.rules, 0⟩] ⟨rfl, rfl, rfl⟩ (.cons ⟨hkeys, rfl⟩ .nil)
  unfold Fits build at hfits ⊢
  dsimp only at hfits ⊢
  rw [hfuel, hshape.nodes, hshape.labels] at hfits
  exact hfits

end DNSentinel.Policy.Packing
