import DNSentinel.Lib.Walks
import DNSentinel.Policy.Lists

/-! # The CNAME chain of any answer

`cname_chain` goes from name to name along the first readable CNAME record of each, on whatever list it
is given. Its loop has no counter: each turn but the last adds the target of a record that has not been
reached before, and there are only so many records. With at most one CNAME for each owner the order of the
records plays no part. `find_cloaked` is the first blocked name of the chain. -/

namespace DNSentinel.Policy.Cloaking

open DNSentinel.Types Lib.Walks Policy.Lists

variable {qname n target : Name} {answers answers' : List RR} {r : RR} {trie : BlocklistTrie}

/-! ### From a name to the next -/

/-- A readable CNAME record of `n`. -/
def Leads (n : Name) (r : RR) (target : Name) : Prop :=
  r.type = RRType.CNAME ∧ r.name.labels = n.labels ∧ r.rdata = .cname target

/-- `target` is the target of the first readable CNAME record of `n`. -/
def FirstCname (answers : List RR) (n target : Name) : Prop :=
  ∃ before r after, answers = before ++ r :: after ∧ Leads n r target ∧
    ∀ x ∈ before, ∀ t, ¬ Leads n x t

theorem cnameTarget_iff {d : RData} : cnameTarget d = some target ↔ d = .cname target := by
  cases d <;> simp [cnameTarget]

/-- What the loop looks for. -/
theorem readable_iff : (r.type == RRType.CNAME && r.name == n && (cnameTarget r.rdata).isSome) = true ↔
    ∃ t, Leads n r t := by
  rw [Bool.and_eq_true, Bool.and_eq_true, beq_iff_eq, Name.beq_iff, Option.isSome_iff_exists]
  constructor
  · rintro ⟨⟨htype, hname⟩, t, ht⟩
    exact ⟨t, htype, hname, cnameTarget_iff.mp ht⟩
  · rintro ⟨t, htype, hname, ht⟩
    exact ⟨⟨htype, hname⟩, t, cnameTarget_iff.mpr ht⟩

theorem nextHop_iff : nextHop answers n = some target ↔ FirstCname answers n target := by
  unfold nextHop FirstCname
  constructor
  · intro h
    split at h
    · next r hfind =>
      obtain ⟨hread, before, after, hsplit, hbefore⟩ := List.find?_eq_some_iff_append.mp hfind
      obtain ⟨t, ht⟩ := readable_iff.mp hread
      obtain rfl : t = target := Option.some.inj ((cnameTarget_iff.mpr ht.2.2).symm.trans h)
      refine ⟨before, r, after, hsplit, ht, fun x hx t' hlead => ?_⟩
      have hnot := hbefore x hx
      rw [readable_iff.mpr ⟨t', hlead⟩] at hnot
      cases hnot
    · cases h
  · rintro ⟨before, r, after, rfl, hlead, hbefore⟩
    have hfind : (before ++ r :: after).find? (fun r =>
        r.type == RRType.CNAME && r.name == n && (cnameTarget r.rdata).isSome) = some r := by
      refine List.find?_eq_some_iff_append.mpr ⟨readable_iff.mpr ⟨target, hlead⟩, before, after, rfl, ?_⟩
      intro x hx
      rw [Bool.not_eq_true', ← Bool.not_eq_true, readable_iff]
      rintro ⟨t, ht⟩
      exact hbefore x hx t ht
    rw [hfind]
    exact cnameTarget_iff.mpr hlead.2.2

/-- A name the loop goes to is the target of a record. -/
theorem target_mem (h : nextHop answers n = some target) :
    target.labels ∈ answers.filterMap fun r => (cnameTarget r.rdata).map Name.labels := by
  obtain ⟨before, r, after, rfl, hlead, -⟩ := nextHop_iff.mp h
  refine List.mem_filterMap.mpr ⟨r, List.mem_append_right _ List.mem_cons_self, ?_⟩
  rw [cnameTarget_iff.mpr hlead.2.2]
  rfl

/-! ### The chain -/

theorem cnameChainLoop_eq (qname : Name) (answers : List RR) : ∀ (fuel : ℕ) (n : Name) (chain : List Name),
    cnameChainLoop qname answers fuel n chain =
      chain ++ walk (nextHop answers) fuel n (qname :: chain)
  | 0, _, chain => (List.append_nil chain).symm
  | fuel + 1, n, chain => by
    rw [cnameChainLoop, walk]
    cases hnext : nextHop answers n with
    | none => exact (List.append_nil chain).symm
    | some target =>
      have hseen : (target == qname || chain.any fun n => n == target) =
          (qname :: chain).any fun s => s == target := by
        rw [List.any_cons, Name.beq_comm]
      dsimp only
      rw [hseen]
      by_cases hrevisit : ((qname :: chain).any fun s => s == target) = true
      · rw [if_pos hrevisit, if_pos hrevisit, List.append_nil]
      · rw [if_neg hrevisit, if_neg hrevisit, cnameChainLoop_eq qname answers fuel target,
          List.append_assoc]
        rfl

/-- **What the chain is**: the names are distinct and none is the query name, each is the target of the
first readable CNAME record of the name before, and it ends where there is no such record, or where its
target has been seen. -/
structure Follows (answers : List RR) (qname : Name) (chain : List Name) : Prop where
  distinct : ((qname :: chain).map Name.labels).Nodup
  hops : (qname :: chain).IsChain (FirstCname answers)
  stops : ∀ target, FirstCname answers (chain.getLastD qname) target →
    target.labels ∈ (qname :: chain).map Name.labels

theorem unseen_lt (qname : Name) {fuel : ℕ} (hfuel : answers.length < fuel) :
    unseen Name.labels (answers.filterMap fun r => (cnameTarget r.rdata).map Name.labels) [qname] <
      fuel :=
  lt_of_le_of_lt ((unseen_le _ _).trans (List.length_filterMap_le _ _)) hfuel

/-- No number of turns beyond the number of records makes a difference. -/
theorem cnameChainLoop_fuel (qname : Name) (answers : List RR) {fuel : ℕ} (hfuel : answers.length < fuel) :
    cnameChainLoop qname answers fuel qname [] = cnameChain qname answers := by
  unfold cnameChain
  rw [cnameChainLoop_eq, cnameChainLoop_eq]
  exact walk_fuel (fun _ _ => Name.beq_iff) (fun _ _ h => target_mem h) _ _ _ _
    (unseen_lt qname (Nat.lt_succ_self _)) hfuel

theorem cnameChain_follows (qname : Name) (answers : List RR) :
    Follows answers qname (cnameChain qname answers) := by
  have hwalked : Walked (nextHop answers) Name.labels [qname] qname
      (walk (nextHop answers) (answers.length + 1) qname [qname]) :=
    walk_spec (fun _ _ => Name.beq_iff) (fun _ _ h => target_mem h) _ qname [qname]
      (unseen_lt qname (Nat.lt_succ_self _)) (List.nodup_singleton _)
  have hchain : cnameChain qname answers =
      walk (nextHop answers) (answers.length + 1) qname [qname] := by
    unfold cnameChain
    rw [cnameChainLoop_eq, List.nil_append]
  rw [hchain]
  refine ⟨hwalked.distinct, hwalked.steps.imp fun _ _ => nextHop_iff.mp, fun target h => ?_⟩
  exact hwalked.stops target (nextHop_iff.mpr h)

/-! ### The order of the records -/

/-- Each owner has at most one CNAME. -/
def OneEach (answers : List RR) : Prop :=
  answers.Pairwise fun r r' => r.type = RRType.CNAME → r'.type = RRType.CNAME →
    r.name.labels ≠ r'.name.labels

theorem OneEach.perm (h : OneEach answers) (hperm : answers'.Perm answers) : OneEach answers' :=
  (hperm.pairwise_iff fun hxy hy hx => (hxy hx hy).symm).mpr h

/-- With one CNAME each, the first is any. -/
theorem firstCname_iff (h : OneEach answers) :
    FirstCname answers n target ↔ ∃ r ∈ answers, Leads n r target := by
  constructor
  · rintro ⟨before, r, after, rfl, hlead, -⟩
    exact ⟨r, List.mem_append_right _ List.mem_cons_self, hlead⟩
  · rintro ⟨r, hr, hlead⟩
    obtain ⟨before, after, rfl⟩ := List.append_of_mem hr
    refine ⟨before, r, after, rfl, hlead, fun x hx t hx' => ?_⟩
    have hne := (List.pairwise_append.mp h).2.2 x hx r List.mem_cons_self
    exact hne hx'.1 hlead.1 (hx'.2.1.trans hlead.2.1.symm)

theorem nextHop_perm (h : OneEach answers) (hperm : answers'.Perm answers) :
    nextHop answers' = nextHop answers := by
  funext n
  refine Option.ext fun target => ?_
  rw [nextHop_iff, nextHop_iff, firstCname_iff h, firstCname_iff (h.perm hperm)]
  exact exists_congr fun r => and_congr_left fun _ => hperm.mem_iff

/-- **The order of the records plays no part.** -/
theorem cnameChain_perm (qname : Name) (h : OneEach answers) (hperm : answers'.Perm answers) :
    cnameChain qname answers' = cnameChain qname answers := by
  unfold cnameChain
  rw [cnameChainLoop_eq, cnameChainLoop_eq, nextHop_perm h hperm, hperm.length_eq]

/-! ### The first blocked name -/

theorem findCloakedLoop_eq_none : ∀ {names passed : List Name},
    findCloakedLoop trie passed names = none ↔ ∀ n ∈ names, trie.blocks n = false
  | [], _ => by simp [findCloakedLoop]
  | n :: names, passed => by
    unfold findCloakedLoop
    by_cases hn : trie.blocks n = true
    · simp [hn]
    · rw [if_neg hn, findCloakedLoop_eq_none]
      simp [hn]

/-- The names up to the first blocked one, after those that were passed. -/
structure Cloaked (trie : BlocklistTrie) (passed names : List Name) (c : CloakedName) : Prop where
  first : ∃ front n back, names = front ++ n :: back ∧ (∀ x ∈ front, trie.blocks x = false) ∧
    trie.blocks n = true ∧ c.chain = passed ++ front ++ [n] ∧ c.lookup = trie.lookup n

theorem findCloakedLoop_eq_some {c : CloakedName} : ∀ {names passed : List Name},
    findCloakedLoop trie passed names = some c → Cloaked trie passed names c
  | [], _, h => by cases h
  | n :: names, passed, h => by
    unfold findCloakedLoop at h
    by_cases hn : trie.blocks n = true
    · rw [if_pos hn] at h
      obtain rfl := Option.some.inj h
      exact ⟨[], n, names, rfl, by simp, hn, by simp, rfl⟩
    · rw [if_neg hn] at h
      obtain ⟨front, m, back, rfl, hfront, hm, hchain, hlookup⟩ := (findCloakedLoop_eq_some h).first
      refine ⟨n :: front, m, back, rfl, fun x hx => ?_, hm, ?_, hlookup⟩
      · rcases List.mem_cons.mp hx with rfl | hx
        · exact Bool.not_eq_true _ ▸ hn
        · exact hfront x hx
      · rw [hchain, List.append_assoc passed, List.singleton_append]

/-- Where there is no CNAME there is no chain. -/
theorem cnameChain_eq_nil (h : (answers.any fun r => r.type == RRType.CNAME) = false) :
    cnameChain qname answers = [] := by
  have hnone : nextHop answers qname = none := by
    refine Option.eq_none_iff_forall_ne_some.mpr fun target hnext => ?_
    obtain ⟨before, r, after, rfl, hlead, -⟩ := nextHop_iff.mp hnext
    rw [List.any_eq_false] at h
    exact h r (List.mem_append_right _ List.mem_cons_self) (beq_iff_eq.mpr hlead.1)
  unfold cnameChain
  rw [cnameChainLoop, hnone]

theorem findCloaked_eq (qname : Name) (answers : List RR) (trie : BlocklistTrie) :
    findCloaked qname answers trie = findCloakedLoop trie [qname] (cnameChain qname answers) := by
  unfold findCloaked
  cases hcname : answers.any fun r => r.type == RRType.CNAME with
  | false =>
    rw [cnameChain_eq_nil hcname]
    rfl
  | true => rfl

/-- **`cname_chain` and `find_cloaked` on any answer.** -/
theorem cnameChain_spec (qname : Name) (answers : List RR) (trie : BlocklistTrie) :
    (∀ fuel, answers.length < fuel →
      cnameChainLoop qname answers fuel qname [] = cnameChain qname answers) ∧
    Follows answers qname (cnameChain qname answers) ∧
    (OneEach answers → ∀ answers', answers'.Perm answers →
      cnameChain qname answers' = cnameChain qname answers) ∧
    (findCloaked qname answers trie = none ↔
      ∀ n ∈ cnameChain qname answers, trie.blocks n = false) ∧
    ∀ c, findCloaked qname answers trie = some c → Cloaked trie [qname] (cnameChain qname answers) c := by
  refine ⟨fun _ => cnameChainLoop_fuel qname answers, cnameChain_follows qname answers,
    fun h _ hperm => cnameChain_perm qname h hperm, ?_, fun c hc => ?_⟩
  · rw [findCloaked_eq]
    exact findCloakedLoop_eq_none
  · rw [findCloaked_eq] at hc
    exact findCloakedLoop_eq_some hc

end DNSentinel.Policy.Cloaking
