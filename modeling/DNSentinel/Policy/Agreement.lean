import DNSentinel.Policy.Packing
import Mathlib.Data.List.Dedup

/-! # The trie agrees with the rule list

A lookup goes down the nodes for the suffixes of a name and notes the deepest rules that cover it; a
scan of the rules one by one gives the same. The fields for offsets and counts are 32 bits wide: this
holds for every list whose trie fits into them (`Fits`), and not for one with 2³² domains. -/

namespace DNSentinel.Policy.Agreement

open DNSentinel.Types Policy.Lists TrieBuild Packing

variable {R : List Rule} {g : Growing} {paths : List (List Label)} {p : List Label} {n : Node}
  {l : Label}

/-! ### Binary search -/

/-- `lower_bound` finds where the smaller ones end. -/
theorem lowerBound_spec (less : ℕ → Bool) : ∀ (fuel first len : ℕ), len ≤ fuel →
    (∀ i j, first ≤ i → i ≤ j → j < first + len → less j = true → less i = true) →
    first ≤ lowerBound less fuel first len ∧ lowerBound less fuel first len ≤ first + len ∧
      (∀ i, first ≤ i → i < lowerBound less fuel first len → less i = true) ∧
      ∀ i, lowerBound less fuel first len ≤ i → i < first + len → less i = false
  | 0, first, len, hfuel, _ => by
    obtain rfl : len = 0 := by omega
    refine ⟨le_rfl, le_rfl, ?_, ?_⟩ <;> intro i hi hlt <;> simp only [lowerBound] at hi hlt <;> omega
  | fuel + 1, first, len, hfuel, hmono => by
    unfold lowerBound
    split_ifs with hzero
    · subst hzero
      exact ⟨le_rfl, le_rfl, fun i hi hlt => by omega, fun i hi hlt => by omega⟩
    dsimp only
    have hhalf : len / 2 < len := by omega
    split_ifs with hless
    · obtain ⟨hge, hle, hbelow, habove⟩ := lowerBound_spec less fuel (first + len / 2 + 1)
        (len - len / 2 - 1) (by omega) fun i j hi hij hj => hmono i j (by omega) hij (by omega)
      refine ⟨by omega, by omega, fun i hi hlt => ?_, fun i hi hlt => habove i hi (by omega)⟩
      by_cases hsmall : i ≤ first + len / 2
      · exact hmono i _ hi hsmall (by omega) hless
      · exact hbelow i (by omega) hlt
    · obtain ⟨hge, hle, hbelow, habove⟩ := lowerBound_spec less fuel first (len / 2) (by omega)
        fun i j hi hij hj => hmono i j hi hij (by omega)
      refine ⟨hge, by omega, hbelow, fun i hi hlt => ?_⟩
      by_cases hsmall : i < first + len / 2
      · exact habove i hi hsmall
      · rw [Bool.eq_false_iff]
        exact fun hi' => hless (hmono _ i (by omega) (by omega) hlt hi')

theorem labelLess_irrefl (l : Label) : labelLess l l = false := by
  simp [labelLess, List.lt_irrefl]

theorem labelLess_trans {a b c : Label} (hab : labelLess a b = true) (hbc : labelLess b c = true) :
    labelLess a c = true := by
  unfold labelLess at hab hbc ⊢
  split_ifs at hab hbc ⊢ <;> simp only [decide_eq_true_eq] at hab hbc ⊢ <;>
    first
      | omega
      | exact List.lt_trans hab hbc

/-! ### Going down -/

/-- The frozen trie, with the path of each node. -/
structure Frozen (R : List Rule) (t : BlocklistTrie) (paths : List (List Label)) : Prop where
  placed : PathsOk paths paths.length
  length : paths.length = t.nodes.length
  labels : ∀ (i : ℕ) p l n, paths[i]? = some (p ++ [l]) → t.nodes[i]? = some n → t.labelOf n = l
  nodes : ∀ (i : ℕ) p n, paths[i]? = some p → t.nodes[i]? = some n → NodeOk R paths p n

theorem build_frozen {b : Builder} (hR : Keyed b.rules) (hfits : Fits (build b).nodes (build b).labels) :
    ∃ paths, Frozen (sortRules b.rules) (build b) paths := by
  obtain ⟨g, paths, hnodes, hlabels, h⟩ := build_packed hR hfits
  refine ⟨paths, h.placed, hnodes ▸ h.length, fun i p l n hp hn => ?_, fun i p n hp hn => ?_⟩
  · rw [← hnodes] at hn
    obtain ⟨hlength, hslice⟩ := h.labels i p l n hp hn
    show slice (build b).labels n.labelOffset.toNat n.labelLength.toNat = l
    rw [hlength, ← hlabels, hslice]
  · rw [← hnodes] at hn
    exact h.done i p n (List.getElem?_eq_some_iff.mp hp).1 hp hn

variable {t : BlocklistTrie}

/-- The children of a node, in order. -/
theorem Frozen.getD (h : Frozen R t paths) {i : ℕ} (hp : paths[i]? = some p) :
    t.nodes[i]? = some (t.nodes.getD i default) := by
  have hlt := (List.getElem?_eq_some_iff.mp hp).1
  rw [h.length] at hlt
  rw [List.getD_eq_getElem?_getD, List.getElem?_eq_getElem hlt]
  rfl

/-- **`child` finds the child that rules are under**, if there is one. -/
theorem child_spec (h : Frozen R t paths) (hn : NodeOk R paths p n) (label : Label) :
    match t.child n label with
    | some n' => ∃ i : ℕ, paths[i]? = some (p ++ [label]) ∧ t.nodes[i]? = some n'
    | none => ¬ ∃ r ∈ R, Below p label r := by
  obtain ⟨ls, hsorted, hmem, hcount, hpaths⟩ := hn.children
  have hlabel : ∀ (j : ℕ) (hj : j < ls.length),
      t.labelOf (t.nodes.getD (n.firstChild.toNat + j) default) = ls[j] := fun j hj =>
    have hpath := hpaths j ls[j] (List.getElem?_eq_getElem hj)
    h.labels _ p _ _ hpath (h.getD hpath)
  have hless : ∀ (i j : ℕ) (hij : i < j) (hj : j < ls.length), labelLess ls[i] ls[j] = true := by
    intro i j hij hj
    obtain ⟨_, -, hi'⟩ := (hmem ls[i]).mp (List.getElem_mem _)
    obtain ⟨_, -, hj'⟩ := (hmem ls[j]).mp (List.getElem_mem _)
    exact (lengthPrefixed_lt_iff hi'.length_lt hj'.length_lt).mp
      (List.pairwise_iff_getElem.mp hsorted i j _ hj hij)
  obtain ⟨hge, hle, hbelow, habove⟩ := lowerBound_spec
    (fun i => labelLess (t.labelOf (t.nodes.getD i default)) label) ls.length
    n.firstChild.toNat ls.length le_rfl (by
      intro i j hi hij hj hlt
      obtain ⟨i, rfl⟩ := Nat.exists_eq_add_of_le hi
      obtain ⟨j, rfl⟩ := Nat.exists_eq_add_of_le (hi.trans hij)
      rw [hlabel j (by omega)] at hlt
      rw [hlabel i (by omega)]
      rcases Nat.lt_or_ge i j with hlt' | hge'
      · exact labelLess_trans (hless i j hlt' (by omega)) hlt
      · obtain rfl : i = j := by omega
        exact hlt)
  unfold BlocklistTrie.child
  dsimp only
  rw [hcount]
  generalize lowerBound _ ls.length n.firstChild.toNat ls.length = k at hge hle hbelow habove ⊢
  obtain ⟨k, rfl⟩ := Nat.exists_eq_add_of_le hge
  by_cases hin : label ∈ ls
  · obtain ⟨j, hj, rfl⟩ := List.getElem_of_mem hin
    obtain rfl : k = j := by
      rcases Nat.lt_trichotomy k j with hlt | heq | hgt
      · have hno := habove (n.firstChild.toNat + k) le_rfl (by omega)
        rw [hlabel k (by omega), hless k j hlt hj] at hno
        exact absurd hno (by simp)
      · exact heq
      · have hyes := hbelow (n.firstChild.toNat + j) (by omega) (by omega)
        rw [hlabel j hj, labelLess_irrefl] at hyes
        exact absurd hyes (by simp)
    rw [if_pos ⟨by omega, hlabel k hj⟩]
    have hpath := hpaths k ls[k] (List.getElem?_eq_getElem hj)
    exact ⟨n.firstChild.toNat + k, hpath, h.getD hpath⟩
  · rw [if_neg]
    · exact fun hr => hin ((hmem label).mpr hr)
    · rintro ⟨hne, heq⟩
      rw [hlabel k (by omega)] at heq
      exact hin (heq ▸ List.getElem_mem _)

/-! ### Rules along the way -/

/-- A rule of the kinds `subtree` and, if this is the whole name, `exact` is for this very name. -/
def Ends (R : List Rule) (subtree exact : UInt8) (p : List Label) (wholeName : Bool) : Prop :=
  ∃ r ∈ R, r.key = keyOf p ∧ (r.flags &&& subtree ≠ 0 ∨ wholeName = true ∧ r.flags &&& exact ≠ 0)

/-- `found` is the greatest depth below `k` with `P`, and a source with `S` there. -/
def Deepest (P : ℕ → Prop) (S : ℕ → UInt16 → Prop) (k : ℕ) : Option (ℕ × UInt16) → Prop
  | none => ∀ d < k, ¬ P d
  | some (depth, source) => depth < k ∧ P depth ∧ S depth source ∧ ∀ d < k, P d → d ≤ depth

section

variable {P : ℕ → Prop} {S : ℕ → UInt16 → Prop} {k : ℕ} {found : Option (ℕ × UInt16)}

theorem Deepest.next (h : Deepest P S k found) {c : Bool} (hc : c = true ↔ P k) {source : UInt16}
    (hsource : S k source) : Deepest P S (k + 1) (if c then some (k, source) else found) := by
  split_ifs with hyes
  · exact ⟨by omega, hc.mp hyes, hsource, fun d hd _ => by omega⟩
  · have hnot : ¬ P k := fun hk => hyes (hc.mpr hk)
    cases found with
    | none =>
      intro d hd hP
      rcases Nat.lt_or_eq_of_le (Nat.le_of_lt_succ hd) with hlt | rfl
      · exact h d hlt hP
      · exact hnot hP
    | some f =>
      obtain ⟨hlt, hP, hS, hmax⟩ := h
      refine ⟨by omega, hP, hS, fun d hd hPd => ?_⟩
      rcases Nat.lt_or_eq_of_le (Nat.le_of_lt_succ hd) with hlt' | rfl
      · exact hmax d hlt' hPd
      · exact absurd hPd hnot

theorem Deepest.extend {m : ℕ} (h : Deepest P S k found) (hkm : k ≤ m)
    (hno : ∀ d, k ≤ d → d < m → ¬ P d) : Deepest P S m found := by
  cases found with
  | none =>
    intro d hd hP
    rcases Nat.lt_or_ge d k with hlt | hge
    · exact h d hlt hP
    · exact hno d hge hd hP
  | some f =>
    obtain ⟨hlt, hP, hS, hmax⟩ := h
    refine ⟨by omega, hP, hS, fun d hd hPd => ?_⟩
    rcases Nat.lt_or_ge d k with hlt' | hge
    · exact hmax d hlt' hPd
    · exact absurd hPd (hno d hge hd)

end

theorem ends_iff (hn : NodeOk R paths p n) (subtree exact : UInt8) (wholeName : Bool) :
    (n.flags &&& subtree != 0 || (wholeName && n.flags &&& exact != 0)) = true ↔
      Ends R subtree exact p wholeName := by
  rw [Bool.or_eq_true, Bool.and_eq_true, bne_iff_ne, bne_iff_ne, hn.flags, hn.flags]
  unfold Ends
  constructor
  · rintro (⟨r, hr, hkey, hbits⟩ | ⟨hwhole, r, hr, hkey, hbits⟩)
    · exact ⟨r, hr, hkey, .inl hbits⟩
    · exact ⟨r, hr, hkey, .inr ⟨hwhole, hbits⟩⟩
  · rintro ⟨r, hr, hkey, hbits | ⟨hwhole, hbits⟩⟩
    · exact .inl ⟨r, hr, hkey, hbits⟩
    · exact .inr ⟨hwhole, r, hr, hkey, hbits⟩

/-- The rules that cover the name with path `qs`, by depth. -/
def EndsAt (R : List Rule) (subtree exact : UInt8) (qs : List Label) (d : ℕ) : Prop :=
  Ends R subtree exact (qs.take d) (decide (d = qs.length))

/-- The source of the first rule for the name at this depth. -/
def FromFirst (R : List Rule) (qs : List Label) (action : ListAction) (depth : ℕ) (source : UInt16) : Prop :=
  ∀ r, firstFor R (keyOf (qs.take depth)) action = some r → source = r.source

/-- What `lookup` has found after `k` nodes. -/
def FoundOk (R : List Rule) (qs : List Label) (k : ℕ) (found : Found) : Prop :=
  Deepest (EndsAt R kBlockSubtree kBlockExact qs) (FromFirst R qs .block) k found.block ∧
    Deepest (EndsAt R kAllowSubtree kAllowExact qs) (FromFirst R qs .allow) k found.allow

theorem visit_ok {qs : List Label} {k : ℕ} {found : Found} (h : FoundOk R qs k found)
    (hn : NodeOk R paths (qs.take k) n) :
    FoundOk R qs (k + 1) (visit n k (decide (k = qs.length)) found) :=
  ⟨h.1.next (ends_iff hn _ _ _) (hn.sources .block), h.2.next (ends_iff hn _ _ _) (hn.sources .allow)⟩

theorem lookupLoop_ok (h : Frozen R t paths) (hR : Keyed R) {qs : List Label} (hq : Valid qs) :
    ∀ (rest : List Label) (depth : ℕ) (n : Node) (found : Found), qs.drop depth = rest →
      depth ≤ qs.length → NodeOk R paths (qs.take depth) n → FoundOk R qs depth found →
      FoundOk R qs (qs.length + 1) (t.lookupLoop rest depth n found)
  | [], depth, n, found, hdrop, hdepth, hn, hfound => by
    obtain rfl : depth = qs.length := Nat.le_antisymm hdepth (List.drop_eq_nil_iff.mp hdrop)
    have hvisit := visit_ok hfound hn
    rw [decide_eq_true rfl] at hvisit
    exact hvisit
  | l :: rest, depth, n, found, hdrop, hdepth, hn, hfound => by
    have hlt : depth < qs.length := by
      by_contra hge
      rw [List.drop_eq_nil_of_le (by omega)] at hdrop
      exact absurd hdrop (by simp)
    have hvisit := visit_ok hfound hn
    rw [decide_eq_false (by omega)] at hvisit
    have htake : qs.take (depth + 1) = qs.take depth ++ [l] := by
      rw [List.take_add_one, ← List.head?_drop, hdrop]
      rfl
    have hchild := child_spec h hn l
    unfold BlocklistTrie.lookupLoop
    dsimp only
    generalize t.child n l = found' at hchild ⊢
    cases found' with
    | none =>
      -- no rule is for a name further down, as it would be under the child that is missing
      have hno : ∀ subtree exact d, depth + 1 ≤ d → d < qs.length + 1 →
          ¬ EndsAt R subtree exact qs d := by
        rintro subtree exact d hd - ⟨r, hr, hkey, -⟩
        have hsplit : qs.take d = qs.take depth ++ l :: (qs.take d).drop (depth + 1) := by
          conv_lhs => rw [← List.take_append_drop (depth + 1) (qs.take d)]
          rw [List.take_take, Nat.min_eq_left hd, htake, List.append_assoc]
          rfl
        refine hchild ⟨r, hr, (qs.take d).drop (depth + 1), ?_, ?_⟩
        · rw [← hsplit]
          exact fun x hx => hq x (List.mem_of_mem_take hx)
        · rw [hkey, ← hsplit]
      exact ⟨hvisit.1.extend (by omega) (hno _ _), hvisit.2.extend (by omega) (hno _ _)⟩
    | some n' =>
      obtain ⟨i, hpath, hnode⟩ := hchild
      refine lookupLoop_ok h hR hq rest (depth + 1) n' _ ?_ hlt ?_ hvisit
      · rw [← List.tail_drop, hdrop]
        rfl
      · rw [htake]
        exact h.nodes i _ n' hpath hnode

/-! ### The rule list -/

/-- The arguments of `Builder::add`. -/
structure Entry where
  domain : Name
  action : ListAction
  source : String
  includeSubdomains : Bool

def addAll (entries : List Entry) : Builder :=
  entries.foldl (fun b e => add b e.domain e.action e.source e.includeSubdomains) {}

def trieOf (entries : List Entry) : BlocklistTrie := build (addAll entries)

/-- The rules as `build` sorts them. -/
def sorted (entries : List Entry) : List Rule := sortRules (addAll entries).rules

/-- The rule covers the name: it is for the name itself, or for an ancestor and its subdomains. -/
def covers (e : Entry) (q : Name) : Bool :=
  if e.includeSubdomains then q.isSubdomainOf e.domain else q == e.domain

/-- A valid name: labels of at most 63 bytes, in canonical case. -/
structure NameOk (n : Name) : Prop where
  short : ∀ l ∈ n.labels, l.length ≤ kMaxLabelLength
  canonical : ∀ l ∈ n.labels, lowerLabel l = l

theorem NameOk.valid {n : Name} (h : NameOk n) : Valid n.labels.reverse := by
  intro l hl
  exact (h.short l (List.mem_reverse.mp hl)).trans_lt (by decide)

/-- A rule, without its source. -/
def ruleOf (e : Entry) : List UInt8 × UInt8 :=
  (keyOf e.domain.labels.reverse, flagsOf e.action e.includeSubdomains)

theorem rules_foldl_add : ∀ (entries : List Entry) (b : Builder),
    ((entries.foldl (fun b e => add b e.domain e.action e.source e.includeSubdomains) b).rules.map
      fun r => (r.key, r.flags)) = (b.rules.map fun r => (r.key, r.flags)) ++ entries.map ruleOf
  | [], b => by simp
  | e :: entries, b => by
    have hsource : (sourceId b e.source).1.rules = b.rules := by
      unfold sourceId
      split <;> rfl
    rw [List.foldl_cons, rules_foldl_add entries, List.map_cons]
    simp [add, hsource, ruleOf]

/-- The rules of the builder are the entries. -/
theorem exists_rule_iff (entries : List Entry) (P : List UInt8 → UInt8 → Prop) :
    (∃ r ∈ sorted entries, P r.key r.flags) ↔
      ∃ e ∈ entries, P (keyOf e.domain.labels.reverse) (flagsOf e.action e.includeSubdomains) := by
  have hrules : ((addAll entries).rules.map fun r => (r.key, r.flags)) = entries.map ruleOf := by
    rw [addAll, rules_foldl_add]
    rfl
  have hmem : ∀ r, r ∈ sorted entries ↔ r ∈ (addAll entries).rules :=
    fun r => (List.perm_insertionSort _ _).mem_iff
  constructor
  · rintro ⟨r, hr, hP⟩
    have hr' : (r.key, r.flags) ∈ entries.map ruleOf :=
      hrules ▸ List.mem_map_of_mem ((hmem r).mp hr)
    obtain ⟨e, he, heq⟩ := List.mem_map.mp hr'
    obtain ⟨hkey, hflags⟩ := Prod.mk.inj heq
    exact ⟨e, he, by rw [hkey, hflags]; exact hP⟩
  · rintro ⟨e, he, hP⟩
    have he' : ruleOf e ∈ (addAll entries).rules.map fun r => (r.key, r.flags) :=
      hrules ▸ List.mem_map_of_mem he
    obtain ⟨r, hr, heq⟩ := List.mem_map.mp he'
    obtain ⟨hkey, hflags⟩ := Prod.mk.inj heq
    exact ⟨r, (hmem r).mpr hr, by rw [hkey, hflags]; exact hP⟩

theorem keyed_addAll {entries : List Entry} (h : ∀ e ∈ entries, NameOk e.domain) :
    Keyed (addAll entries).rules := by
  intro r hr
  have hr' : r ∈ sorted entries := (List.perm_insertionSort _ _).mem_iff.mpr hr
  obtain ⟨e, he, hkey⟩ := (exists_rule_iff entries fun key _ => r.key = key).mp ⟨r, hr', rfl⟩
  exact ⟨_, (h e he).valid, hkey⟩

theorem trieOf_frozen {entries : List Entry} (hvalid : ∀ e ∈ entries, NameOk e.domain)
    (hfits : Fits (trieOf entries).nodes (trieOf entries).labels) :
    Keyed (sorted entries) ∧ ∃ paths, Frozen (sorted entries) (trieOf entries) paths :=
  ⟨fun r hr => keyed_addAll hvalid r ((List.perm_insertionSort _ _).mem_iff.mp hr),
    build_frozen (keyed_addAll hvalid) hfits⟩

/-- The flags of a kind of rule. -/
def subtreeFlag : ListAction → UInt8
  | .block => kBlockSubtree
  | .allow => kAllowSubtree

def exactFlag : ListAction → UInt8
  | .block => kBlockExact
  | .allow => kAllowExact

theorem flagsOf_and (a action : ListAction) (includeSubdomains : Bool) :
    (flagsOf a includeSubdomains &&& subtreeFlag action ≠ 0 ↔ a = action ∧ includeSubdomains = true) ∧
      (flagsOf a includeSubdomains &&& exactFlag action ≠ 0 ↔
        a = action ∧ includeSubdomains = false) := by
  cases a <;> cases action <;> cases includeSubdomains <;> decide

/-- A rule covers a name if its path is an initial part of the name's, and the whole of it for an exact
rule. -/
theorem covers_iff (e : Entry) (q : Name) : covers e q = true ↔
    e.domain.labels.reverse = q.labels.reverse.take e.domain.labels.length ∧
      (e.includeSubdomains = true ∨ e.domain.labels.length = q.labels.length) := by
  unfold covers
  cases e.includeSubdomains with
  | true =>
    rw [if_pos rfl, Name.isSubdomainOf_iff, ← List.reverse_prefix, List.prefix_iff_eq_take,
      List.length_reverse]
    simp
  | false =>
    rw [if_neg (by simp), Name.beq_iff]
    constructor
    · intro heq
      rw [heq, ← List.length_reverse, List.take_length]
      simp
    · rintro ⟨htake, hno | hlength⟩
      · simp at hno
      · rw [hlength, ← List.length_reverse, List.take_length] at htake
        exact (List.reverse_injective htake).symm

/-- **The rules met at depth `d` are the covering ones with `d` labels.** -/
theorem endsAt_iff {entries : List Entry} (hvalid : ∀ e ∈ entries, NameOk e.domain) {q : Name}
    (hq : NameOk q) (action : ListAction) {d : ℕ} (hd : d ≤ q.labels.length) :
    EndsAt (sorted entries) (subtreeFlag action) (exactFlag action)
        q.labels.reverse d ↔
      ∃ e ∈ entries, e.action = action ∧ covers e q = true ∧ e.domain.labels.length = d := by
  unfold EndsAt Ends
  rw [exists_rule_iff entries fun key flags => key = keyOf (q.labels.reverse.take d) ∧
    (flags &&& subtreeFlag action ≠ 0 ∨
      decide (d = q.labels.reverse.length) = true ∧ flags &&& exactFlag action ≠ 0)]
  refine exists_congr fun e => and_congr_right fun he => ?_
  obtain ⟨hsubtree, hexact⟩ := flagsOf_and e.action action e.includeSubdomains
  rw [hsubtree, hexact, covers_iff, decide_eq_true_eq, List.length_reverse]
  have hvalid' : Valid (q.labels.reverse.take d) := fun l hl => hq.valid l (List.mem_of_mem_take hl)
  constructor
  · rintro ⟨hkey, hkind⟩
    have hpath := keyOf_inj (hvalid e he).valid hvalid' hkey
    have hlength : e.domain.labels.length = d := by
      have := congrArg List.length hpath
      rw [List.length_reverse, List.length_take, List.length_reverse] at this
      omega
    rcases hkind with ⟨haction, hsub⟩ | ⟨hd', haction, -⟩
    · exact ⟨haction, ⟨hlength ▸ hpath, .inl hsub⟩, hlength⟩
    · exact ⟨haction, ⟨hlength ▸ hpath, .inr (hlength.trans hd')⟩, hlength⟩
  · rintro ⟨haction, ⟨hpath, hkind⟩, rfl⟩
    refine ⟨by rw [hpath], ?_⟩
    cases hsub : e.includeSubdomains with
    | true => exact .inl ⟨haction, rfl⟩
    | false =>
      rcases hkind with hyes | hlength
      · exact absurd (hyes.symm.trans hsub) (by simp)
      · exact .inr ⟨hlength, haction, rfl⟩

/-! ### Lookups -/

/-- What `lookup` reports is what a scan of the rules finds. -/
structure Agrees (entries : List Entry) (q : Name) (result : TrieLookupResult) : Prop where
  matched : result.matched = true ↔ ∃ e ∈ entries, covers e q = true
  allow : result.matched = true →
    (result.action = .allow ↔ ∃ e ∈ entries, e.action = .allow ∧ covers e q = true)
  /-- the domain of the deepest covering rule of that action -/
  rule : result.matched = true → ∃ e ∈ entries, e.action = result.action ∧ covers e q = true ∧
    (∀ e' ∈ entries, e'.action = result.action → covers e' q = true →
      e'.domain.labelCount ≤ e.domain.labelCount) ∧ result.rule = e.domain.toString

theorem labels_foldl_appendLabel : ∀ (labels : List Label) (n : Name),
    (labels.foldl Name.appendLabel n).labels = n.labels ++ labels.map lowerLabel
  | [], n => by simp
  | l :: labels, n => by
    rw [List.foldl_cons, labels_foldl_appendLabel labels, List.map_cons]
    simp [Name.appendLabel]

theorem toString_congr {a b : Name} (h : a.labels = b.labels) : a.toString = b.toString := by
  unfold Name.toString
  rw [h]

/-- The name that `lookup` puts together is the domain of the rule. -/
theorem rule_text {e : Entry} (he : NameOk e.domain) {q : Name} (hcovers : covers e q = true) :
    ((q.labels.drop (q.labels.length - e.domain.labels.length)).foldl Name.appendLabel {}).toString =
      e.domain.toString := by
  obtain ⟨hpath, -⟩ := (covers_iff e q).mp hcovers
  have hdrop : q.labels.drop (q.labels.length - e.domain.labels.length) = e.domain.labels := by
    rw [List.take_reverse] at hpath
    exact (List.reverse_injective hpath).symm
  refine toString_congr ?_
  rw [labels_foldl_appendLabel, hdrop]
  exact List.map_congr_left he.canonical |>.trans (List.map_id _)

theorem length_le_of_covers {e : Entry} {q : Name} (h : covers e q = true) :
    e.domain.labels.length ≤ q.labels.length := by
  have hlength := congrArg List.length ((covers_iff e q).mp h).1
  rw [List.length_reverse, List.length_take, List.length_reverse] at hlength
  omega

/-- The deepest rule of an action that covers `q`. -/
def DeepestRule (entries : List Entry) (q : Name) (action : ListAction) :
    Option (ℕ × UInt16) → Prop
  | none => ∀ e ∈ entries, e.action = action → covers e q = false
  | some (depth, source) => FromFirst (sorted entries) q.labels.reverse action depth source ∧
      ∃ e ∈ entries, e.action = action ∧ covers e q = true ∧ e.domain.labels.length = depth ∧
        ∀ e' ∈ entries, e'.action = action → covers e' q = true → e'.domain.labels.length ≤ depth

theorem deepestRule_of_deepest {entries : List Entry} (hvalid : ∀ e ∈ entries, NameOk e.domain)
    {q : Name} (hq : NameOk q) {action : ListAction} {found : Option (ℕ × UInt16)}
    (h : Deepest (EndsAt (sorted entries) (subtreeFlag action) (exactFlag action) q.labels.reverse)
      (FromFirst (sorted entries) q.labels.reverse action) (q.labels.reverse.length + 1) found) :
    DeepestRule entries q action found := by
  rw [List.length_reverse] at h
  have hends : ∀ e ∈ entries, e.action = action → covers e q = true →
      EndsAt (sorted entries) (subtreeFlag action) (exactFlag action)
        q.labels.reverse e.domain.labels.length := fun e he haction hcovers =>
    (endsAt_iff hvalid hq action (length_le_of_covers hcovers)).mpr ⟨e, he, haction, hcovers, rfl⟩
  cases found with
  | none =>
    intro e he haction
    rw [Bool.eq_false_iff]
    intro hcovers
    exact h _ (Nat.lt_succ_of_le (length_le_of_covers hcovers)) (hends e he haction hcovers)
  | some f =>
    obtain ⟨hlt, hP, hsource, hmax⟩ := h
    obtain ⟨e, he, haction, hcovers, hlength⟩ :=
      (endsAt_iff hvalid hq action (Nat.le_of_lt_succ hlt)).mp hP
    refine ⟨hsource, e, he, haction, hcovers, hlength, fun e' he' haction' hcovers' => ?_⟩
    exact hmax _ (Nat.lt_succ_of_le (length_le_of_covers hcovers')) (hends e' he' haction' hcovers')

/-- What is reported of a rule that was found. -/
def foundAt (entries : List Entry) (q : Name) (action : ListAction) (depth : ℕ) (source : UInt16) :
    TrieLookupResult where
  matched := true
  action := action
  rule := ((q.labels.drop (q.labels.length - depth)).foldl Name.appendLabel {}).toString
  source := (addAll entries).sources.getD source.toNat ""

/-- **`lookup` reports the deepest rule**, and allow rules come first. -/
theorem lookup_found {entries : List Entry} (hvalid : ∀ e ∈ entries, NameOk e.domain)
    (hfits : Fits (trieOf entries).nodes (trieOf entries).labels) {q : Name} (hq : NameOk q) :
    ∃ block allow, DeepestRule entries q .block block ∧ DeepestRule entries q .allow allow ∧
      (trieOf entries).lookup q = match allow, block with
        | some (depth, source), _ => foundAt entries q .allow depth source
        | none, some (depth, source) => foundAt entries q .block depth source
        | none, none => {} := by
  obtain ⟨hkeyed, paths, h⟩ := trieOf_frozen hvalid hfits
  have hroot := h.getD h.placed.root
  unfold BlocklistTrie.lookup
  generalize hnodes : (trieOf entries).nodes = nodes at hroot ⊢
  cases nodes with
  | nil => simp at hroot
  | cons root rest =>
    have hno {P : ℕ → Prop} : ∀ d < 0, ¬ P d := fun d hd => absurd hd (Nat.not_lt_zero d)
    have hfound := lookupLoop_ok h hkeyed hq.valid q.labels.reverse 0 root {} rfl (Nat.zero_le _)
      (h.nodes 0 _ root h.placed.root (by rw [hnodes]; rfl)) ⟨hno, hno⟩
    refine ⟨_, _, deepestRule_of_deepest hvalid hq hfound.1, deepestRule_of_deepest hvalid hq hfound.2, ?_⟩
    dsimp only
    generalize (trieOf entries).lookupLoop q.labels.reverse 0 root {} = found
    match found with
    | ⟨_, some (depth, source)⟩ => rfl
    | ⟨some (depth, source), none⟩ => rfl
    | ⟨none, none⟩ => rfl

theorem agrees_found {entries : List Entry} (hvalid : ∀ e ∈ entries, NameOk e.domain) {q : Name}
    {action : ListAction} {depth : ℕ} {source : UInt16}
    (h : DeepestRule entries q action (some (depth, source)))
    (hno : action = .block → DeepestRule entries q .allow none) :
    Agrees entries q (foundAt entries q action depth source) := by
  obtain ⟨-, e, he, haction, hcovers, rfl, hmax⟩ := h
  refine ⟨⟨fun _ => ⟨e, he, hcovers⟩, fun _ => rfl⟩, fun _ => ?_, fun _ => ?_⟩
  · constructor
    · rintro rfl
      exact ⟨e, he, haction, hcovers⟩
    · rintro ⟨e', he', haction', hcovers'⟩
      cases action with
      | allow => rfl
      | block => exact absurd (hcovers'.symm.trans (hno rfl e' he' haction')) (by simp)
  · exact ⟨e, he, haction, hcovers, hmax, rule_text (hvalid e he) hcovers⟩

theorem lookup_agrees {entries : List Entry} (hvalid : ∀ e ∈ entries, NameOk e.domain)
    (hfits : Fits (trieOf entries).nodes (trieOf entries).labels) {q : Name} (hq : NameOk q) :
    Agrees entries q ((trieOf entries).lookup q) := by
  obtain ⟨block, allow, hblock, hallow, hlookup⟩ := lookup_found hvalid hfits hq
  rw [hlookup]
  match allow, block with
  | some (depth, source), _ => exact agrees_found hvalid hallow (fun h => absurd h (by simp))
  | none, some (depth, source) => exact agrees_found hvalid hblock fun _ => hallow
  | none, none =>
    refine ⟨⟨fun h => absurd h (by simp), ?_⟩, fun h => absurd h (by simp), fun h => absurd h (by simp)⟩
    rintro ⟨e, he, hcovers⟩
    cases haction : e.action with
    | block => exact absurd (hcovers.symm.trans (hblock e he haction)) (by simp)
    | allow => exact absurd (hcovers.symm.trans (hallow e he haction)) (by simp)

/-! ### The number of domains -/

/-- Every path that rules are under has a node. -/
theorem mem_paths (h : Frozen R t paths) (hR : Keyed R) : ∀ (path : List Label), Valid path →
    (∃ r ∈ R, keyOf path <+: r.key) → path ∈ paths := by
  intro path
  induction path using List.reverseRecOn with
  | nil => exact fun _ _ => List.mem_of_getElem? h.placed.root
  | append_singleton p l ih =>
    rintro hvalid ⟨r, hr, hbegins⟩
    have hp : Valid p := fun x hx => hvalid x (by simp [hx])
    have hparent : keyOf p <+: r.key := by
      rw [keyOf_snoc] at hbegins
      exact (List.prefix_append ..).trans hbegins
    obtain ⟨i, hi, hget⟩ := List.getElem_of_mem (ih hp ⟨r, hr, hparent⟩)
    have hpath : paths[i]? = some p := by rw [List.getElem?_eq_getElem hi, hget]
    obtain ⟨ls, -, hmem, -, hpaths⟩ := (h.nodes i p _ hpath (h.getD hpath)).children
    have hbelow : Below p l r := by
      obtain ⟨path', hvalid', hkey⟩ := hR r hr
      rw [hkey] at hbegins
      obtain ⟨tail, rfl⟩ := prefix_of_keyOf_prefix hvalid hvalid' hbegins
      rw [List.append_assoc] at hvalid' hkey
      exact ⟨tail, hvalid', hkey⟩
    obtain ⟨j, hj, hlj⟩ := List.getElem_of_mem ((hmem l).mpr ⟨r, hr, hbelow⟩)
    exact List.mem_of_getElem? (hpaths j l (by rw [List.getElem?_eq_getElem hj, hlj]))

theorem flagsOf_ne_zero (action : ListAction) (includeSubdomains : Bool) :
    flagsOf action includeSubdomains &&& 255 ≠ 0 := by
  cases action <;> cases includeSubdomains <;> decide

/-- The nodes with a rule are those of the domains. -/
theorem flags_ne_zero_iff {entries : List Entry}
    (h : Frozen (sorted entries) t paths) {i : ℕ} (hp : paths[i]? = some p)
    (hn : t.nodes[i]? = some n) :
    n.flags ≠ 0 ↔ ∃ e ∈ entries, keyOf e.domain.labels.reverse = keyOf p := by
  have hall : n.flags &&& 255 = n.flags := by
    rw [← UInt8.toBitVec_inj]
    exact BitVec.and_allOnes
  rw [← hall, (h.nodes i p n hp hn).flags 255,
    exists_rule_iff entries fun key flags => key = keyOf p ∧ flags &&& 255 ≠ 0]
  refine exists_congr fun e => and_congr_right fun _ => ?_
  exact and_iff_left (flagsOf_ne_zero e.action e.includeSubdomains)

theorem ruleCount_eq {entries : List Entry} (hvalid : ∀ e ∈ entries, NameOk e.domain)
    (hfits : Fits (trieOf entries).nodes (trieOf entries).labels) :
    (trieOf entries).ruleCount = (entries.map fun e => e.domain.labels).dedup.length := by
  obtain ⟨hkeyed, paths, h⟩ := trieOf_frozen hvalid hfits
  set domains := (entries.map fun e => e.domain.labels).dedup.map List.reverse with hdomains
  have hmem : ∀ p, p ∈ domains ↔ ∃ e ∈ entries, e.domain.labels.reverse = p := by
    intro p
    simp [hdomains, List.mem_dedup]
  have hnodup : domains.Nodup :=
    (List.nodup_dedup _).map List.reverse_injective
  have hsub : ∀ p ∈ domains, p ∈ paths := by
    intro p hp
    obtain ⟨e, he, rfl⟩ := (hmem p).mp hp
    refine mem_paths h hkeyed _ (hvalid e he).valid ?_
    exact (exists_rule_iff entries fun key _ => _ <+: key).mpr ⟨e, he, List.prefix_rfl⟩
  have hflags : ((trieOf entries).nodes.map fun n => n.flags != 0) =
      paths.map fun p => decide (p ∈ domains) := by
    refine List.ext_getElem? fun i => ?_
    rw [List.getElem?_map, List.getElem?_map]
    cases hp : paths[i]? with
    | none =>
      rw [List.getElem?_eq_none_iff, h.length] at hp
      rw [List.getElem?_eq_none hp]
      rfl
    | some p =>
      have hn := h.getD hp
      have hvalid' := h.placed.valid p (List.mem_of_getElem? hp)
      rw [hn, Option.map_some, Option.map_some, Option.some_inj, Bool.eq_iff_iff, bne_iff_ne,
        decide_eq_true_eq, flags_ne_zero_iff h hp hn, hmem]
      refine exists_congr fun e => and_congr_right fun he => ?_
      exact ⟨keyOf_inj (hvalid e he).valid hvalid', congrArg keyOf⟩
  have hcount : (trieOf entries).ruleCount = (paths.filter fun p => decide (p ∈ domains)).length := by
    rw [← List.countP_eq_length_filter]
    calc (trieOf entries).ruleCount
        = ((trieOf entries).nodes.map fun n => n.flags != 0).countP id := by
          rw [List.countP_map]
          rfl
      _ = paths.countP fun p => decide (p ∈ domains) := by
          rw [hflags, List.countP_map]
          rfl
  have hperm : (paths.filter fun p => decide (p ∈ domains)).Perm domains := by
    refine (List.perm_ext_iff_of_nodup (h.placed.nodup.filter _) hnodup).mpr fun p => ?_
    rw [List.mem_filter, decide_eq_true_eq]
    exact ⟨fun hp => hp.2, fun hp => ⟨hsub p hp, hp⟩⟩
  rw [hcount, hperm.length_eq, hdomains, List.length_map]

/-! ### The order of the rules -/

theorem Agrees.perm {entries entries' : List Entry} (hperm : entries'.Perm entries) {q : Name}
    {result : TrieLookupResult} (h : Agrees entries q result) : Agrees entries' q result := by
  have hmem : ∀ e, e ∈ entries' ↔ e ∈ entries := fun e => hperm.mem_iff
  refine ⟨?_, fun hm => ?_, fun hm => ?_⟩
  · simp only [hmem, h.matched]
  · simp only [hmem, h.allow hm]
  · simpa only [hmem] using h.rule hm

/-- What a scan finds is unique, but for the list a rule came from. -/
theorem Agrees.unique {entries : List Entry} {q : Name} {a b : TrieLookupResult}
    (ha : Agrees entries q a) (hb : Agrees entries q b) :
    a.matched = b.matched ∧ (a.matched = true → a.action = b.action ∧ a.rule = b.rule) := by
  have hmatched : a.matched = b.matched := by rw [Bool.eq_iff_iff, ha.matched, hb.matched]
  refine ⟨hmatched, fun hm => ?_⟩
  have hm' : b.matched = true := hmatched ▸ hm
  have hiff : a.action = .allow ↔ b.action = .allow := (ha.allow hm).trans (hb.allow hm').symm
  have haction : a.action = b.action := by
    cases hx : a.action <;> cases hy : b.action <;> simp_all
  obtain ⟨e, he, heaction, hecovers, hemax, herule⟩ := ha.rule hm
  obtain ⟨f, hf, hfaction, hfcovers, hfmax, hfrule⟩ := hb.rule hm'
  have hcount : e.domain.labels.length = f.domain.labels.length := Nat.le_antisymm
    (hfmax e he (heaction.trans haction) hecovers) (hemax f hf (hfaction.trans haction.symm) hfcovers)
  have hlabels : e.domain.labels = f.domain.labels := by
    refine List.reverse_injective ?_
    rw [((covers_iff e q).mp hecovers).1, ((covers_iff f q).mp hfcovers).1, hcount]
  exact ⟨haction, by rw [herule, hfrule, toString_congr hlabels]⟩

/-- **The trie agrees with the rule list**, whatever the order of the rules. -/
theorem trie_agrees {entries : List Entry} (hvalid : ∀ e ∈ entries, NameOk e.domain)
    (hfits : Fits (trieOf entries).nodes (trieOf entries).labels) :
    (∀ q, NameOk q → Agrees entries q ((trieOf entries).lookup q)) ∧
      (trieOf entries).ruleCount = (entries.map fun e => e.domain.labels).dedup.length ∧
      ∀ entries', entries'.Perm entries →
        (trieOf entries').ruleCount = (trieOf entries).ruleCount ∧ ∀ q, NameOk q →
          ((trieOf entries').lookup q).matched = ((trieOf entries).lookup q).matched ∧
          (((trieOf entries').lookup q).matched = true →
            ((trieOf entries').lookup q).action = ((trieOf entries).lookup q).action ∧
            ((trieOf entries').lookup q).rule = ((trieOf entries).lookup q).rule) := by
  refine ⟨fun q hq => lookup_agrees hvalid hfits hq, ruleCount_eq hvalid hfits, ?_⟩
  intro entries' hperm
  have hkeys : ∀ entries, ((addAll entries).rules.map Rule.key) =
      entries.map fun e => keyOf e.domain.labels.reverse := by
    intro entries
    have hrules := congrArg (List.map Prod.fst) (rules_foldl_add entries {})
    rw [List.map_map, List.map_append, List.map_map, List.map_map] at hrules
    exact hrules
  have hfits' : Fits (trieOf entries').nodes (trieOf entries').labels := by
    refine fits_perm ?_ hfits
    rw [hkeys, hkeys]
    exact hperm.symm.map _
  have hvalid' : ∀ e ∈ entries', NameOk e.domain := fun e he => hvalid e (hperm.mem_iff.mp he)
  refine ⟨?_, fun q hq => ?_⟩
  · rw [ruleCount_eq hvalid hfits, ruleCount_eq hvalid' hfits']
    exact (hperm.map _).dedup.length_eq
  · exact ((lookup_agrees hvalid' hfits' hq).perm hperm.symm).unique (lookup_agrees hvalid hfits hq)

/-- A block list for `c` and what is below, with an exception. -/
def exception : List Entry :=
  [⟨⟨[[99]], [[99]]⟩, .block, "ads", true⟩, ⟨⟨[[97], [99]], [[97], [99]]⟩, .allow, "mine", false⟩]

theorem trie_agrees_exception :
    ((trieOf exception).lookup ⟨[[98], [99]], [[98], [99]]⟩).action = .block ∧
      ((trieOf exception).lookup ⟨[[97], [99]], [[97], [99]]⟩).action = .allow ∧
      (∀ q, NameOk q → Agrees exception q ((trieOf exception).lookup q)) ∧
      (trieOf exception).ruleCount = (exception.map fun e => e.domain.labels).dedup.length := by
  have hvalid : ∀ e ∈ exception, NameOk e.domain := by
    intro e he
    rcases List.mem_cons.mp he with rfl | he
    · exact ⟨by decide, by decide⟩
    · rw [List.mem_singleton.mp he]
      exact ⟨by decide, by decide⟩
  obtain ⟨hagrees, hcount, -⟩ := trie_agrees hvalid ⟨by decide +kernel, by decide +kernel⟩
  exact ⟨by decide +kernel, by decide +kernel, hagrees, hcount⟩

end DNSentinel.Policy.Agreement
