import DNSentinel.Policy.Agreement

/-! # A list that does not fit

The number of a node is a 32-bit field. In the trie of 2³² top-level domains the last one has number 2³²,
which is 0 in that field: its rule is recorded at the root, and every name is blocked. -/

namespace DNSentinel.Policy.Overflow

open DNSentinel.Types Policy.Lists TrieBuild Packing Agreement

variable {g : Growing} {w : Work} {bits : UInt8} {i : ℕ}

/-! ### Flags are only added -/

/-- The node has one of these flags. -/
def Flagged (nodes : List Node) (i : ℕ) (bits : UInt8) : Prop :=
  ∃ n, nodes[i]? = some n ∧ n.flags &&& bits ≠ 0

/-- A turn keeps the flags, and adds those of the rules for the node's own name. -/
theorem pack_flagged (hi : i < g.nodes.length) (h : Flagged g.nodes i bits ∨ i = w.node.toNat ∧
      ∃ r ∈ w.rules.takeWhile (fun r => r.key.length == w.offset), r.flags &&& bits ≠ 0) :
    Flagged (pack g w).1.nodes i bits := by
  obtain ⟨⟨new, hnew⟩, -⟩ := childrenLoop_grows w.offset
    (w.rules.dropWhile fun r => r.key.length == w.offset).length
    (w.rules.dropWhile fun r => r.key.length == w.offset) { g with
      nodes := g.nodes.modify w.node.toNat fun n =>
        (w.rules.takeWhile fun r => r.key.length == w.offset).foldl record n } []
  obtain ⟨n, hn⟩ : ∃ n, g.nodes[i]? = some n := ⟨_, List.getElem?_eq_getElem hi⟩
  dsimp only at hnew
  unfold pack Flagged
  dsimp only
  rw [← hnew, List.getElem?_modify, List.getElem?_append_left (by rwa [List.length_modify]),
    List.getElem?_modify, hn]
  by_cases hik : w.node.toNat = i
  · rw [hik]
    simp only [if_true, Option.map_eq_map, Option.map_some]
    refine ⟨_, rfl, ((foldl_record bits _ n).1).mpr ?_⟩
    rcases h with ⟨m, hm, hbits⟩ | ⟨-, hown⟩
    · exact .inl (Option.some.inj (hn.symm.trans hm) ▸ hbits)
    · exact .inr hown
  · obtain ⟨m, hm, hbits⟩ := h.resolve_right fun hown => hik hown.1.symm
    simp only [if_neg hik, Option.map_eq_map, Option.map_some]
    exact ⟨n, rfl, Option.some.inj (hm.symm.trans hn) ▸ hbits⟩

theorem buildLoop_flagged : ∀ (fuel : ℕ) (g : Growing) (works : List Work), i < g.nodes.length →
    Flagged g.nodes i bits → Flagged (buildLoop fuel g works).nodes i bits
  | 0, _, _, _, h => h
  | _ + 1, _, [], _, h => h
  | fuel + 1, g, w :: _, hi, h =>
    buildLoop_flagged fuel (pack g w).1 _ (hi.trans_le (pack_grows g w).1) (pack_flagged hi (.inl h))

/-- Every node in the queue is filled in, given enough turns. -/
theorem buildLoop_reaches (hi : i = w.node.toNat)
    (hown : ∃ r ∈ w.rules.takeWhile (fun r => r.key.length == w.offset), r.flags &&& bits ≠ 0) :
    ∀ (before : List Work) (fuel : ℕ) (g : Growing) (after : List Work), before.length < fuel →
      i < g.nodes.length → Flagged (buildLoop fuel g (before ++ w :: after)).nodes i bits
  | _, 0, _, _, hfuel, _ => absurd hfuel (Nat.not_lt_zero _)
  | [], fuel + 1, g, after, _, hlt =>
    buildLoop_flagged fuel (pack g w).1 _ (hlt.trans_le (pack_grows g w).1)
      (pack_flagged hlt (.inr ⟨hi, hown⟩))
  | x :: before, fuel + 1, g, after, hfuel, hlt => by
    have hreach := buildLoop_reaches hi hown before fuel (pack g x).1 (after ++ (pack g x).2)
      (Nat.lt_of_succ_lt_succ hfuel) (hlt.trans_le (pack_grows g x).1)
    rw [← List.cons_append, ← List.append_assoc] at hreach
    exact hreach

/-! ### As many domains as there are numbers -/

/-- The binary digits of a number. -/
def digits (i : ℕ) : Label := (List.range 32).map fun k => if i.testBit k then 49 else 48

theorem digits_injective {i j : ℕ} (hi : i < 2 ^ 32) (hj : j < 2 ^ 32) (h : digits i = digits j) :
    i = j := by
  refine Nat.eq_of_testBit_eq fun k => ?_
  rcases Nat.lt_or_ge k 32 with hk | hk
  · have hdigit := List.map_inj_left.mp h k (List.mem_range.mpr hk)
    cases hik : i.testBit k <;> cases hjk : j.testBit k <;> simp_all
  · have hpow : 2 ^ 32 ≤ 2 ^ k := Nat.pow_le_pow_right (by omega) hk
    rw [Nat.testBit_lt_two_pow (hi.trans_le hpow), Nat.testBit_lt_two_pow (hj.trans_le hpow)]

theorem digits_ok (i : ℕ) : NameOk ⟨[digits i], [digits i]⟩ := by
  have hlength : (digits i).length = 32 := by rw [digits, List.length_map, List.length_range]
  refine ⟨fun l hl => ?_, fun l hl => ?_⟩ <;> rw [List.mem_singleton.mp hl]
  · rw [hlength]
    decide
  · refine List.map_congr_left (fun c hc => ?_) |>.trans (List.map_id _)
    obtain ⟨k, -, rfl⟩ := List.mem_map.mp hc
    split_ifs <;> rfl

/-- `n` top-level domains. -/
def domains (n : ℕ) : List Entry :=
  (List.range n).map fun i => ⟨⟨[digits i], [digits i]⟩, .block, "", true⟩

theorem exists_domain_iff (n : ℕ) (P : List UInt8 → UInt8 → Prop) :
    (∃ r ∈ sorted (domains n), P r.key r.flags) ↔
      ∃ i < n, P (keyOf [digits i]) kBlockSubtree := by
  rw [exists_rule_iff]
  constructor
  · rintro ⟨e, he, hP⟩
    obtain ⟨i, hi, rfl⟩ := List.mem_map.mp he
    exact ⟨i, List.mem_range.mp hi, hP⟩
  · rintro ⟨i, hi, hP⟩
    exact ⟨_, List.mem_map.mpr ⟨i, List.mem_range.mpr hi, rfl⟩, hP⟩

theorem domains_ok (n : ℕ) : ∀ e ∈ domains n, NameOk e.domain := by
  intro e he
  obtain ⟨i, -, rfl⟩ := List.mem_map.mp he
  exact digits_ok i

theorem keyed_domains (n : ℕ) : Keyed (sorted (domains n)) := fun r hr =>
  keyed_addAll (domains_ok n) r ((List.perm_insertionSort _ _).mem_iff.mp hr)

/-- The children of a node are numbered from the end of the table on, one for each next label. -/
theorem pack_children {R : List Rule} {p : List Label} (hp : Valid p) (hR : Keyed R)
    (hsorted : Sorted R) (g : Growing) (k : UInt32) : ∃ ls : List Label, ls.Nodup ∧
      (∀ l, l ∈ ls ↔ ∃ r ∈ R, Below p l r) ∧
      (pack g ⟨k, under R p, (keyOf p).length⟩).2 =
        worksOf R g.nodes.length (ls.map fun l => p ++ [l]) := by
  obtain ⟨L, hL, hLsorted, hbelow, hmem, hunder⟩ := below_spec hp hR hsorted
  unfold pack
  dsimp only
  rw [hL]
  generalize hg : { g with nodes := g.nodes.modify k.toNat fun n =>
    ((under R p).takeWhile fun r : Rule => r.key.length == (keyOf p).length).foldl record n } = g'
  have hlength : g'.nodes.length = g.nodes.length := by rw [← hg, List.length_modify]
  obtain ⟨ls, hls⟩ := childrenLoop_ok L.length L g' [] le_rfl hLsorted hbelow hunder
  refine ⟨ls, ?_, fun l => (hls.mem l).trans (hmem l), ?_⟩
  · refine hls.sorted.imp fun {l m} hlt heq => ?_
    rw [heq] at hlt
    exact List.lt_irrefl _ hlt
  · rw [hls.works, List.nil_append, hlength]

theorem below_root_iff {n : ℕ} {l : Label} :
    (∃ r ∈ sorted (domains n), Below [] l r) ↔ ∃ i < n, l = digits i := by
  have hone : ∀ {i tail}, Valid (l :: tail) → keyOf [digits i] = keyOf (l :: tail) → l = digits i := by
    intro i tail hvalid hkey
    have hpath := keyOf_inj (digits_ok i).valid hvalid hkey
    exact (List.cons.inj hpath).1.symm
  constructor
  · rintro ⟨r, hr, tail, hvalid, hkey⟩
    obtain ⟨i, hi, hi'⟩ := (exists_domain_iff n fun key _ => key = r.key).mp ⟨r, hr, rfl⟩
    exact ⟨i, hi, hone hvalid (hi'.trans hkey)⟩
  · rintro ⟨i, hi, rfl⟩
    obtain ⟨r, hr, hkey⟩ :=
      (exists_domain_iff n fun key _ => key = keyOf [digits i]).mpr ⟨i, hi, rfl⟩
    exact ⟨r, hr, [], (digits_ok i).valid, hkey⟩

/-- The labels `ls` are the domains, in some order. -/
theorem length_labels {n : ℕ} (hn : n ≤ 2 ^ 32) {ls : List Label} (hnodup : ls.Nodup)
    (hmem : ∀ l, l ∈ ls ↔ ∃ i < n, l = digits i) : ls.length = n := by
  have hdigits : ((List.range n).map digits).Nodup := by
    refine List.nodup_range.map_on fun i hi j hj h => ?_
    exact digits_injective ((List.mem_range.mp hi).trans_le hn) ((List.mem_range.mp hj).trans_le hn) h
  have hperm : ls.Perm ((List.range n).map digits) := by
    refine (List.perm_ext_iff_of_nodup hnodup hdigits).mpr fun l => ?_
    rw [hmem, List.mem_map]
    constructor
    · rintro ⟨i, hi, rfl⟩
      exact ⟨i, List.mem_range.mpr hi, rfl⟩
    · rintro ⟨i, hi, rfl⟩
      exact ⟨i, List.mem_range.mp hi, rfl⟩
  rw [hperm.length_eq, List.length_map, List.length_range]

/-- There are turns enough to reach all children of the root. -/
theorem le_weight (n : ℕ) : n ≤ ((sorted (domains n)).map fun r => r.key.length).sum := by
  have hlength : (sorted (domains n)).length = n := by
    have hrules := congrArg List.length (rules_foldl_add (domains n) {})
    rw [List.length_append, List.length_map, List.length_map, List.length_map] at hrules
    rw [sorted, sortRules, List.length_insertionSort, addAll, hrules, domains, List.length_map,
      List.length_range]
    exact Nat.zero_add n
  have hpos : ∀ k ∈ (sorted (domains n)).map fun r => r.key.length, 1 ≤ k := by
    intro k hk
    obtain ⟨r, hr, rfl⟩ := List.mem_map.mp hk
    obtain ⟨i, -, hkey⟩ := (exists_domain_iff n fun key _ => key = r.key).mp ⟨r, hr, rfl⟩
    rw [← hkey]
    exact Nat.le_add_left 1 _
  have hsum := List.card_nsmul_le_sum _ 1 hpos
  rw [List.length_map, hlength] at hsum
  simpa using hsum

/-- The rule of the last of 2³² domains is recorded at the root. -/
theorem root_flagged {n : ℕ} (hn : n = 2 ^ 32) :
    Flagged (trieOf (domains n)).nodes 0 kBlockSubtree := by
  have hroot : Valid [] := fun l hl => absurd hl List.not_mem_nil
  have hall : under (sorted (domains n)) [] = sorted (domains n) :=
    List.filter_eq_self.mpr fun r _ => isUnder_iff.mpr List.nil_prefix
  obtain ⟨ls, hnodup, hmem, hchildren⟩ :=
    pack_children hroot (keyed_domains n) (sorted_sortRules _) {} 0
  have hlength : ls.length = n :=
    length_labels hn.le hnodup fun l => (hmem l).trans below_root_iff
  rcases List.eq_nil_or_concat ls with rfl | ⟨first, l, rfl⟩
  · rw [← hlength] at hn
    exact absurd hn (by decide)
  obtain ⟨i, hi, rfl⟩ := below_root_iff.mp ((hmem l).mp (by simp))
  rw [hall, List.concat_eq_append, List.map_append, worksOf_append] at hchildren
  rw [List.concat_eq_append, List.length_append, List.length_singleton] at hlength
  have hown : ∃ r ∈ (under (sorted (domains n)) [digits i]).takeWhile
      (fun r => r.key.length == (keyOf [digits i]).length), r.flags &&& kBlockSubtree ≠ 0 := by
    obtain ⟨r, hr, hkey, hflags⟩ := (exists_domain_iff n fun key flags =>
      key = keyOf [digits i] ∧ flags &&& kBlockSubtree ≠ 0).mpr ⟨i, hi, rfl, by decide⟩
    exact ⟨r, (mem_takeWhile_own (digits_ok i).valid (keyed_domains n) (sorted_sortRules _)).mpr
      ⟨hr, hkey⟩, hflags⟩
  have hnodes : (trieOf (domains n)).nodes = (buildLoop ((sorted (domains n)).map fun r =>
      r.key.length).sum (pack {} ⟨0, sorted (domains n), 0⟩).1
        (pack {} ⟨0, sorted (domains n), 0⟩).2).nodes := by
    rw [trieOf, build, Nat.add_comm 1]
    rfl
  have hnumber : (UInt32.ofNat (1 + first.length)).toNat = 0 := by
    rw [UInt32.toNat_ofNat', Nat.add_comm, hlength, hn, Nat.mod_self]
  have hle := le_weight n
  have hbefore : (worksOf (sorted (domains n)) 1 (first.map fun l => [] ++ [l])).length =
      first.length := by rw [length_worksOf, List.length_map]
  rw [hnodes]
  have hreach := buildLoop_reaches (w := ⟨UInt32.ofNat (1 + first.length), under (sorted (domains n))
    [digits i], (keyOf [digits i]).length⟩) hnumber.symm hown
    (worksOf (sorted (domains n)) 1 (first.map fun l => [] ++ [l]))
    ((sorted (domains n)).map fun r => r.key.length).sum (pack {} ⟨0, sorted (domains n), 0⟩).1 []
    (by rw [hbefore]; omega) (Nat.lt_of_lt_of_le Nat.zero_lt_one (pack_grows {} _).1)
  have hsame : (pack {} ⟨0, sorted (domains n), 0⟩).2 = _ := hchildren
  rw [List.length_map] at hsame
  rw [hsame]
  exact hreach

/-! ### Every name is blocked -/

theorem visit_block {node : Node} {depth : ℕ} {whole : Bool} {found : Found}
    (h : found.block.isSome ∨ node.flags &&& kBlockSubtree ≠ 0) :
    (visit node depth whole found).block.isSome := by
  unfold visit
  dsimp only
  split_ifs with hends
  · rfl
  · refine h.resolve_right fun hflag => hends ?_
    simp [hflag]

theorem lookupLoop_block (t : BlocklistTrie) : ∀ (rest : List Label) (depth : ℕ) (node : Node)
    (found : Found), found.block.isSome ∨ node.flags &&& kBlockSubtree ≠ 0 →
      (t.lookupLoop rest depth node found).block.isSome
  | [], _, _, _, h => visit_block h
  | label :: rest, depth, node, found, h => by
    rw [BlocklistTrie.lookupLoop]
    cases t.child node label with
    | none => exact visit_block h
    | some next => exact lookupLoop_block t rest (depth + 1) next _ (.inl (visit_block h))

theorem matched_of_flagged {t : BlocklistTrie} (h : Flagged t.nodes 0 kBlockSubtree) (q : Name) :
    (t.lookup q).matched = true := by
  obtain ⟨root, hroot, hflag⟩ := h
  unfold BlocklistTrie.lookup
  cases hnodes : t.nodes with
  | nil => simp [hnodes] at hroot
  | cons first rest =>
    rw [hnodes] at hroot
    obtain rfl := Option.some.inj hroot
    have hblock := lookupLoop_block t q.labels.reverse 0 first {} (.inr hflag)
    dsimp only
    generalize t.lookupLoop q.labels.reverse 0 first {} = found at hblock
    obtain ⟨block, allow⟩ := found
    cases allow with
    | some allow => rfl
    | none =>
      cases block with
      | some block => rfl
      | none => exact absurd hblock Bool.false_ne_true

/-- **With 2³² domains on the list a name that no rule covers is matched.** -/
theorem unlisted_name_matched : ∃ (entries : List Entry) (q : Name),
    (∀ e ∈ entries, NameOk e.domain) ∧ NameOk q ∧ (∀ e ∈ entries, covers e q = false) ∧
      ((trieOf entries).lookup q).matched = true ∧
      ¬ Agrees entries q ((trieOf entries).lookup q) := by
  have hq : NameOk ⟨[[103]], [[103]]⟩ := ⟨by decide, by decide⟩
  have hcovers : ∀ n, ∀ e ∈ domains n, covers e ⟨[[103]], [[103]]⟩ = false := by
    intro n e he
    obtain ⟨i, -, rfl⟩ := List.mem_map.mp he
    have hne : digits i ≠ [103] := fun h => absurd (congrArg List.length h) (by simp [digits])
    simp [covers, Name.isSubdomainOf, hne.symm]
  have hmatched : ((trieOf (domains (2 ^ 32))).lookup ⟨[[103]], [[103]]⟩).matched = true :=
    matched_of_flagged (root_flagged rfl) _
  refine ⟨domains (2 ^ 32), _, domains_ok _, hq, hcovers _, hmatched, fun hagrees => ?_⟩
  obtain ⟨e, he, hcover⟩ := hagrees.matched.mp hmatched
  rw [hcovers _ e he] at hcover
  exact Bool.false_ne_true hcover

end DNSentinel.Policy.Overflow
