import DNSentinel.Policy.Agreement

/-! # The list that a rule is reported from

A node of the trie keeps one source for each action: that of the first rule added for its name. Rules for a
name alone and rules for what is below it share that source, although they cover different names. -/

namespace DNSentinel.Policy.Sources

open DNSentinel.Types Policy.Lists TrieBuild Packing Agreement

variable {q : Name} {action : ListAction} {entries : List Entry} {b : Builder} {e : Entry}

/-! ### Rules in the order they were added -/

/-- Sorting leaves the rules for one name in order. -/
theorem filter_sortRules (rules : List Rule) (key : List UInt8) :
    (sortRules rules).filter (fun r => r.key == key) = rules.filter fun r => r.key == key := by
  have hsame : (rules.filter fun r => r.key == key).Pairwise fun a b => ¬ b.key < a.key := by
    refine List.pairwise_of_forall_mem_list fun a ha b hb => ?_
    rw [beq_iff_eq.mp (List.mem_filter.mp ha).2, beq_iff_eq.mp (List.mem_filter.mp hb).2]
    exact List.lt_irrefl key
  have hsub : (rules.filter fun r => r.key == key).Sublist (sortRules rules) :=
    List.sublist_insertionSort hsame List.filter_sublist
  have hkept := hsub.filter fun r => r.key == key
  rw [List.filter_filter] at hkept
  simp only [Bool.and_self] at hkept
  exact (hkept.eq_of_length ((List.perm_insertionSort _ rules).filter _).length_eq.symm).symm

theorem firstFor_sortRules (rules : List Rule) (key : List UInt8) (action : ListAction) :
    firstFor (sortRules rules) key action = firstFor rules key action := by
  have hfilter (rules : List Rule) : firstFor rules key action =
      (rules.filter fun r => r.key == key).find? fun r => r.flags &&& kinds action != 0 := by
    rw [List.find?_filter]
    unfold firstFor
    congr 1
    funext r
    rw [Bool.decide_and, Bool.decide_eq_true, Bool.decide_eq_true]
  rw [hfilter, hfilter, filter_sortRules]

/-- A rule of the builder is an entry, and its source has the entry's name. -/
def Stores (b : Builder) (e : Entry) (r : Rule) : Prop :=
  r.key = keyOf e.domain.labels.reverse ∧ r.flags = flagsOf e.action e.includeSubdomains ∧
    b.sources[r.source.toNat]? = some e.source

theorem sourceId_spec (b : Builder) (source : String) :
    (sourceId b source).1.rules = b.rules ∧ b.sources <+: (sourceId b source).1.sources ∧
      ((sourceId b source).1.sources.length ≤ 2 ^ 16 →
        (sourceId b source).1.sources[(sourceId b source).2.toNat]? = some source) := by
  unfold sourceId
  split
  · rename_i i hi
    obtain ⟨hlt, heq, -⟩ := List.findIdx?_eq_some_iff_getElem.mp hi
    refine ⟨rfl, List.prefix_rfl, fun hfits => ?_⟩
    have hsize : i < UInt16.size := hlt.trans_le hfits
    rw [UInt16.toNat_ofNat_of_lt' hsize, List.getElem?_eq_getElem hlt, beq_iff_eq.mp heq]
  · refine ⟨rfl, List.prefix_append _ _, fun hfits => ?_⟩
    dsimp only at hfits ⊢
    rw [List.length_append, List.length_singleton] at hfits
    have hsize : b.sources.length < UInt16.size := hfits
    rw [UInt16.toNat_ofNat_of_lt' hsize, List.getElem?_concat_length]

theorem stores_mono {b' : Builder} {e : Entry} {r : Rule} (h : Stores b e r)
    (hsub : b.sources <+: b'.sources) : Stores b' e r := by
  obtain ⟨hkey, hflags, hsource⟩ := h
  obtain ⟨more, hmore⟩ := hsub
  refine ⟨hkey, hflags, ?_⟩
  rw [← hmore, List.getElem?_append_left (List.getElem?_eq_some_iff.mp hsource).1]
  exact hsource

theorem sources_add (b : Builder) (e : Entry) :
    b.sources <+: (add b e.domain e.action e.source e.includeSubdomains).sources :=
  (sourceId_spec b e.source).2.1

def addEntry (b : Builder) (e : Entry) : Builder := add b e.domain e.action e.source e.includeSubdomains

theorem sources_foldl : ∀ (entries : List Entry) (b : Builder),
    b.sources <+: (entries.foldl addEntry b).sources
  | [], _ => List.prefix_rfl
  | e :: entries, b => (sources_add b e).trans (sources_foldl entries (addEntry b e))

/-- **The builder stores the entries in order.** -/
theorem stores_foldl : ∀ (entries done : List Entry) (b : Builder), List.Forall₂ (Stores b) done b.rules →
    (entries.foldl addEntry b).sources.length ≤ 2 ^ 16 →
    List.Forall₂ (Stores (entries.foldl addEntry b)) (done ++ entries) (entries.foldl addEntry b).rules
  | [], done, b, h, _ => by rwa [List.append_nil]
  | e :: entries, done, b, h, hfits => by
    rw [List.append_cons]
    have hfits' : (addEntry b e).sources.length ≤ 2 ^ 16 :=
      (sources_foldl entries (addEntry b e)).length_le.trans hfits
    refine stores_foldl entries (done ++ [e]) (addEntry b e) ?_ hfits
    obtain ⟨hrules, -, hsource⟩ := sourceId_spec b e.source
    have hall : (addEntry b e).rules = b.rules ++ [⟨keyOf e.domain.labels.reverse,
        flagsOf e.action e.includeSubdomains, (sourceId b e.source).2⟩] := by
      show (sourceId b e.source).1.rules ++ _ = _
      rw [hrules]
      rfl
    rw [hall]
    refine List.rel_append (h.imp fun _ _ hs => stores_mono hs (sources_add b e)) ?_
    exact .cons ⟨rfl, rfl, hsource hfits'⟩ .nil

theorem stores_addAll (hfits : (addAll entries).sources.length ≤ 2 ^ 16) :
    List.Forall₂ (Stores (addAll entries)) entries (addAll entries).rules :=
  stores_foldl entries [] {} .nil hfits

theorem find?_forall₂ {α β : Type} {S : α → β → Prop} {f : α → Bool} {g : β → Bool} :
    ∀ {xs : List α} {ys : List β}, List.Forall₂ S xs ys → (∀ x ∈ xs, ∀ y, S x y → f x = g y) →
      ∀ {x}, xs.find? f = some x → ∃ y, ys.find? g = some y ∧ S x y
  | _, _, .nil, _, _, hfind => by simp at hfind
  | _, _, .cons (a := x₀) (b := y₀) hxy hrest, hfg, x, hfind => by
    have hsame := hfg x₀ List.mem_cons_self y₀ hxy
    by_cases hx : f x₀ = true
    · rw [List.find?_cons_of_pos hx] at hfind
      obtain rfl := Option.some.inj hfind
      exact ⟨y₀, List.find?_cons_of_pos (hsame ▸ hx), hxy⟩
    · rw [List.find?_cons_of_neg hx] at hfind
      obtain ⟨y, hy, hS⟩ := find?_forall₂ hrest (fun x hx => hfg x (List.mem_cons_of_mem _ hx)) hfind
      exact ⟨y, by rw [List.find?_cons_of_neg (hsame ▸ hx), hy], hS⟩

theorem flagsOf_kinds (a action : ListAction) (includeSubdomains : Bool) :
    (flagsOf a includeSubdomains &&& kinds action != 0) = (a == action) := by
  cases a <;> cases action <;> cases includeSubdomains <;> decide

/-! ### The report -/

/-- The entry has the action and is for the domain. -/
def isFor (action : ListAction) (domain : Name) (e : Entry) : Bool :=
  e.action == action && e.domain == domain

/-- The first rule for a name is the first entry for it. -/
theorem firstFor_entry (hvalid : ∀ e ∈ entries, NameOk e.domain)
    (hfits : (addAll entries).sources.length ≤ 2 ^ 16) {domain : Name} (hdomain : NameOk domain)
    {e : Entry} (he : entries.find? (isFor action domain) = some e) :
    ∃ r, firstFor (sorted entries) (keyOf domain.labels.reverse) action = some r ∧
      (addAll entries).sources[r.source.toNat]? = some e.source := by
  have hsame : ∀ x ∈ entries, ∀ r, Stores (addAll entries) x r → isFor action domain x =
      (r.key == keyOf domain.labels.reverse && r.flags &&& kinds action != 0) := by
    rintro x hx r ⟨hkey, hflags, -⟩
    have hdomains : (x.domain == domain) = (keyOf x.domain.labels.reverse == keyOf domain.labels.reverse) := by
      rw [Bool.eq_iff_iff, Name.beq_iff, beq_iff_eq]
      constructor
      · intro hlabels
        rw [hlabels]
      · intro hkeys
        exact List.reverse_injective (keyOf_inj (hvalid x hx).valid hdomain.valid hkeys)
    unfold isFor
    rw [hkey, hflags, flagsOf_kinds, hdomains, Bool.and_comm]
  obtain ⟨r, hr, hstores⟩ := find?_forall₂ (stores_addAll hfits) hsame he
  exact ⟨r, (firstFor_sortRules _ _ _).trans hr, hstores.2.2⟩

/-- The entry that decides about `q`: the deepest that covers it, and an allow rule if one does. -/
structure Decides (entries : List Entry) (q : Name) (e : Entry) : Prop where
  mem : e ∈ entries
  covers : covers e q = true
  preferred : e.action = .block → ∀ e' ∈ entries, e'.action = .allow → Agreement.covers e' q = false
  deepest : ∀ e' ∈ entries, e'.action = e.action → Agreement.covers e' q = true →
    e'.domain.labels.length ≤ e.domain.labels.length

theorem isFor_self (e : Entry) : isFor e.action e.domain e = true := by
  unfold isFor
  rw [beq_self_eq_true, Bool.true_and]
  exact Name.beq_iff.mpr rfl

/-- The rule found for the action of the entry that decides. -/
theorem report_found (hvalid : ∀ e ∈ entries, NameOk e.domain)
    (hsources : (addAll entries).sources.length ≤ 2 ^ 16) (h : Decides entries q e)
    {found : Option (ℕ × UInt16)} (hfound : DeepestRule entries q e.action found) :
    ∃ depth source e₁, found = some (depth, source) ∧
      entries.find? (isFor e.action e.domain) = some e₁ ∧
      foundAt entries q e.action depth source =
        { matched := true, action := e.action, rule := e.domain.toString, source := e₁.source } := by
  match found, hfound with
  | none, hfound => exact absurd (h.covers.symm.trans (hfound e h.mem rfl)) (by simp)
  | some (depth, source), ⟨hsource, e', he', haction, hcovers, hlength, hmax⟩ =>
    obtain rfl : depth = e.domain.labels.length := Nat.le_antisymm
      (hlength ▸ h.deepest e' he' haction hcovers) (hmax e h.mem rfl h.covers)
    obtain ⟨e₁, he₁⟩ := Option.isSome_iff_exists.mp (List.find?_isSome.mpr ⟨e, h.mem, isFor_self e⟩)
    obtain ⟨r, hr, hname⟩ := firstFor_entry hvalid hsources (hvalid e h.mem) he₁
    rw [((covers_iff e q).mp h.covers).1] at hr
    refine ⟨_, source, e₁, rfl, he₁, ?_⟩
    rw [foundAt, rule_text (hvalid e h.mem) h.covers, hsource r hr, List.getD_eq_getElem?_getD, hname]
    rfl

/-- A match is reported from the first entry for the action and the domain that decide. -/
theorem lookup_reports (hvalid : ∀ e ∈ entries, NameOk e.domain)
    (hfits : Fits (trieOf entries).nodes (trieOf entries).labels)
    (hsources : (addAll entries).sources.length ≤ 2 ^ 16) (hq : NameOk q) (h : Decides entries q e) :
    ∃ e₁, entries.find? (isFor e.action e.domain) = some e₁ ∧ (trieOf entries).lookup q =
      { matched := true, action := e.action, rule := e.domain.toString, source := e₁.source } := by
  obtain ⟨block, allow, hblock, hallow, hlookup⟩ := lookup_found hvalid hfits hq
  rw [hlookup]
  cases haction : e.action with
  | allow =>
    rw [← haction] at hallow ⊢
    obtain ⟨depth, source, e₁, rfl, he₁, hreport⟩ := report_found hvalid hsources h hallow
    exact ⟨e₁, he₁, by rw [← hreport, haction]⟩
  | block =>
    have hnone : allow = none := by
      match allow, hallow with
      | none, _ => rfl
      | some _, ⟨_, e', he', hallowed, hcovers, _⟩ =>
        exact absurd (hcovers.symm.trans (h.preferred haction e' he' hallowed)) (by simp)
    rw [← haction] at hblock ⊢
    obtain ⟨depth, source, e₁, rfl, he₁, hreport⟩ := report_found hvalid hsources h hblock
    exact ⟨e₁, he₁, by rw [← hreport, hnone, haction]⟩

theorem decides_of_agrees {result : TrieLookupResult} (h : Agrees entries q result) :
    result.matched = true ↔ ∃ e, Decides entries q e := by
  constructor
  · intro hmatched
    obtain ⟨e, he, haction, hcovers, hdeepest, -⟩ := h.rule hmatched
    refine ⟨e, he, hcovers, fun hblock e' he' hallow => ?_, fun e' he' haction' =>
      hdeepest e' he' (haction'.trans haction)⟩
    rw [Bool.eq_false_iff]
    intro hcovers'
    have hallowed := (h.allow hmatched).mpr ⟨e', he', hallow, hcovers'⟩
    rw [← haction, hblock] at hallowed
    cases hallowed
  · rintro ⟨e, he⟩
    exact h.matched.mpr ⟨e, he.mem, he.covers⟩

/-- **The list reported is the one responsible exactly if no other list was first with a rule that does not
cover the name.** A name is matched if an entry decides about it; the match is reported from the first
entry for the same action and domain, and the first of these that covers the name is from the same list
exactly if the two sources are equal. -/
theorem reported_source_iff (hvalid : ∀ e ∈ entries, NameOk e.domain)
    (hfits : Fits (trieOf entries).nodes (trieOf entries).labels)
    (hsources : (addAll entries).sources.length ≤ 2 ^ 16) (hq : NameOk q) :
    (((trieOf entries).lookup q).matched = true ↔ ∃ e, Decides entries q e) ∧
    ∀ e, Decides entries q e → ((trieOf entries).lookup q).rule = e.domain.toString ∧
      ∃ e₁ e₂, entries.find? (isFor e.action e.domain) = some e₁ ∧
        entries.find? (fun x => isFor e.action e.domain x && covers x q) = some e₂ ∧
        (((trieOf entries).lookup q).source = e₂.source ↔ e₁.source = e₂.source) := by
  refine ⟨decides_of_agrees (lookup_agrees hvalid hfits hq), fun e he => ?_⟩
  obtain ⟨e₁, he₁, hlookup⟩ := lookup_reports hvalid hfits hsources hq he
  have hcovering : (entries.find? fun x => isFor e.action e.domain x && covers x q).isSome = true :=
    List.find?_isSome.mpr ⟨e, he.mem, by rw [isFor_self, he.covers]; rfl⟩
  obtain ⟨e₂, he₂⟩ := Option.isSome_iff_exists.mp hcovering
  rw [hlookup]
  exact ⟨rfl, e₁, e₂, he₁, he₂, Iff.rfl⟩

/-- A rule for `c` alone on one list, and one for what is below on another. -/
def twoLists : List Entry :=
  [⟨⟨[[99]], [[99]]⟩, .block, "first", false⟩, ⟨⟨[[99]], [[99]]⟩, .block, "second", true⟩]

theorem twoLists_ok : ∀ e ∈ twoLists, NameOk e.domain := by
  intro e he
  rcases List.mem_cons.mp he with rfl | he
  · exact ⟨by decide, by decide⟩
  · rw [List.mem_singleton.mp he]
    exact ⟨by decide, by decide⟩

/-- The name `c` is on both lists, and reported from the first. -/
theorem reported_source_iff_whole :
    Decides twoLists ⟨[[99]], [[99]]⟩ ⟨⟨[[99]], [[99]]⟩, .block, "second", true⟩ ∧
    ((trieOf twoLists).lookup ⟨[[99]], [[99]]⟩).source = "first" ∧
    ∃ e₁ e₂, twoLists.find? (isFor .block ⟨[[99]], [[99]]⟩) = some e₁ ∧
      twoLists.find? (fun x => isFor .block ⟨[[99]], [[99]]⟩ x && covers x ⟨[[99]], [[99]]⟩) = some e₂ ∧
      (((trieOf twoLists).lookup ⟨[[99]], [[99]]⟩).source = e₂.source ↔ e₁.source = e₂.source) := by
  have hdecides : Decides twoLists ⟨[[99]], [[99]]⟩ ⟨⟨[[99]], [[99]]⟩, .block, "second", true⟩ :=
    ⟨by simp [twoLists], by decide, by simp [twoLists], by simp [twoLists]⟩
  exact ⟨hdecides, by decide +kernel, ((reported_source_iff twoLists_ok ⟨by decide +kernel, by decide +kernel⟩
    (by decide +kernel) ⟨by decide, by decide⟩).2 _ hdecides).2⟩

/-- A name below `c` is reported from the list that has `c` alone. -/
theorem reported_from_exact_list :
    ((trieOf twoLists).lookup ⟨[[98], [99]], [[98], [99]]⟩).matched = true ∧
      ((trieOf twoLists).lookup ⟨[[98], [99]], [[98], [99]]⟩).source = "first" ∧
      ∀ e ∈ twoLists, e.source = "first" → covers e ⟨[[98], [99]], [[98], [99]]⟩ = false := by
  refine ⟨by decide +kernel, by decide +kernel, fun e he => ?_⟩
  rcases List.mem_cons.mp he with rfl | he
  · exact fun _ => by decide
  · rw [List.mem_singleton.mp he]
    exact fun h => absurd h (by decide)

end DNSentinel.Policy.Sources
