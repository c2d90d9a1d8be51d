import DNSentinel.Resolver.Memory

/-! # Delegations that lead nowhere

A resolution starts at the deepest zone whose NS set is in the cache, with the addresses of its name
servers that are in the cache. The NS set and the addresses are entries of their own. If none of the
addresses is left and every name server is in the zone itself, the resolution cannot go on: finding
the address of a server would take a server of the zone. -/

namespace DNSentinel.Resolver.DeadEnd

open DNSentinel.Types Lib.Runs Store.Model Store.Contents Store.Calls Store.Accounting Store.Recall
open Selection Data Resolver.Core Machine Turns Events Memory

variable {cfg : Config} {env : Random} {sh sh' : Shared} {t : Task} {n z : Name}
  {e : CacheEntry} {sizes : Sizes} {cacheConfig : CacheConfig} {names : List Name} {out : Shared × Task}

/-! ### Lookups do not disturb each other -/

/-- The same entries at the same time. -/
structure SameCache (sh sh' : Shared) : Prop where
  now : sh'.now = sh.now
  content : ∀ k, content sh'.cache k = content sh.cache k
  ok : CacheOk sh'.cache

theorem SameCache.trans {sh'' : Shared} (h : SameCache sh sh') (h' : SameCache sh' sh'') :
    SameCache sh sh'' :=
  ⟨h'.now.trans h.now, fun k => (h'.content k).trans (h.content k), h'.ok⟩

def liveEntry (sh : Shared) (key : CacheKey) : Option CacheEntry := live sh.cache sh.now key

theorem SameCache.same (h : SameCache sh sh') (key : CacheKey) :
    liveEntry sh' key = liveEntry sh key := by
  unfold liveEntry live
  rw [h.content, h.now]

theorem sameCache_lookup (h : CacheOk sh.cache) (key : CacheKey) : SameCache sh (sh.lookup key).2 :=
  ⟨rfl, fun _ => content_lookup h.sharded, h.lookup sh.now key⟩

def nsName (r : RR) : Option Name :=
  match r.rdata with
  | .ns nsdname => some nsdname
  | _ => none

/-- The name servers in an NS set. -/
def nsNames (records : List RR) : List Name := records.filterMap nsName

/-- A lookup changes an entry's hits and TTLs and nothing a resolution goes by. -/
structure SameData (e d : CacheEntry) : Prop where
  negative : e.isNegative = d.isNegative
  empty : e.records.isEmpty = d.records.isEmpty
  addresses : ipv4Addresses e.records = ipv4Addresses d.records
  names : nsNames e.records = nsNames d.records

theorem sameData_served {d : CacheEntry} (h : forgetHits e = Cache.served sh.now d) :
    SameData e d := by
  have hrecords : e.records = (Cache.served sh.now d).records := (congrArg CacheEntry.records h :)
  refine ⟨(congrArg CacheEntry.isNegative h :), ?_, ?_, ?_⟩
  · rw [hrecords]
    exact List.isEmpty_map
  · rw [hrecords]
    exact List.filterMap_map
  · rw [hrecords]
    exact List.filterMap_map

theorem lookup_spec (h : CacheOk sh.cache) (key : CacheKey) :
    ∃ sh', SameCache sh sh' ∧
      (sh.lookup key = (none, sh') ∧ liveEntry sh key = none ∨
        ∃ e d, sh.lookup key = (some e, sh') ∧ liveEntry sh key = some d ∧ SameData e d) := by
  refine ⟨_, sameCache_lookup h key, ?_⟩
  have hlookup : (sh.lookup key).1.map forgetHits = (liveEntry sh key).map (Cache.served sh.now) :=
    lookup_eq
  cases he : (sh.lookup key).1 with
  | none =>
    rw [he, Option.map_none, eq_comm, Option.map_eq_none_iff] at hlookup
    exact .inl ⟨Prod.ext he rfl, hlookup⟩
  | some e =>
    rw [he, Option.map_some, eq_comm, Option.map_eq_some_iff] at hlookup
    obtain ⟨d, hd, hserved⟩ := hlookup
    exact .inr ⟨e, d, Prod.ext he rfl, hd, sameData_served hserved.symm⟩

/-! ### The servers of a zone -/

/-- The addresses of a name server that are in the cache. -/
def known (sh : Shared) (nsdname : Name) : List Address :=
  match liveEntry sh ⟨nsdname, kTypeA, kClassIN⟩ with
  | some e => if e.isNegative then [] else ipv4Addresses e.records
  | none => []

theorem known_congr (h : SameCache sh sh') (nsdname : Name) : known sh' nsdname = known sh nsdname := by
  unfold known
  rw [h.same]

theorem serverAddresses_spec (h : CacheOk sh.cache) (nsdname : Name) :
    (serverAddresses sh [] nsdname).1 = known sh nsdname ∧
      SameCache sh (serverAddresses sh [] nsdname).2 := by
  have hnone : (!(ipv4Addresses (collect [] nsdname kTypeA)).isEmpty) = false := rfl
  unfold serverAddresses known
  dsimp only
  rw [hnone, if_neg Bool.false_ne_true]
  obtain ⟨sh', hsame, ⟨hmiss, hdead⟩ | ⟨e, d, hhit, hlive, hdata⟩⟩ :=
    lookup_spec h ⟨nsdname, kTypeA, kClassIN⟩
  · rw [hmiss, hdead]
    exact ⟨rfl, hsame⟩
  · rw [hhit, hlive]
    dsimp only
    rw [hdata.negative, hdata.addresses]
    exact ⟨rfl, hsame⟩

theorem mem_foldl_addServer {a : Address} : ∀ (addresses : List Address) (t : Task),
    a ∈ (addresses.foldl addServer t).servers ↔ a ∈ t.servers ∨ a ∈ addresses
  | [], t => by simp
  | b :: rest, t => by
    have hone : a ∈ (addServer t b).servers ↔ a ∈ t.servers ∨ a = b := by
      unfold addServer
      split_ifs with hb
      · constructor
        · exact .inl
        · rintro (ha | rfl)
          · exact ha
          · exact hb
      · simp
    rw [List.foldl_cons, mem_foldl_addServer rest, hone, List.mem_cons, or_assoc]

theorem foldl_addServer_frame : ∀ (addresses : List Address) (t : Task),
    (addresses.foldl addServer t).unresolved = t.unresolved ∧
      (addresses.foldl addServer t).zone = t.zone
  | [], _ => ⟨rfl, rfl⟩
  | b :: rest, t => by
    have hone : (addServer t b).unresolved = t.unresolved ∧ (addServer t b).zone = t.zone := by
      unfold addServer
      split_ifs <;> exact ⟨rfl, rfl⟩
    obtain ⟨hunresolved, hzone⟩ := foldl_addServer_frame rest (addServer t b)
    exact ⟨hunresolved.trans hone.1, hzone.trans hone.2⟩

/-- The zone's servers, and the name servers without an address, after the loop over the NS set. -/
structure Entered (sh : Shared) (t : Task) (names : List Name) (out : Shared × Task) : Prop where
  cache : SameCache sh out.1
  zone : out.2.zone = t.zone
  servers : ∀ a, a ∈ out.2.servers ↔ a ∈ t.servers ∨ ∃ n ∈ names, a ∈ known sh n
  unresolved : ∀ m, m ∈ out.2.unresolved ↔
    m ∈ t.unresolved ∨ m ∈ names ∧ known sh m = []

theorem Entered.weaken (h : SameCache sh sh') (he : Entered sh' t names out) :
    Entered sh t names out where
  cache := h.trans he.cache
  zone := he.zone
  servers a := by simp only [he.servers, known_congr h]
  unresolved m := by simp only [he.unresolved, known_congr h]

theorem Entered.cons {nsdname : Name} {t' : Task} (he : Entered sh t' names out)
    (hzone : t'.zone = t.zone)
    (hservers : ∀ a, a ∈ t'.servers ↔ a ∈ t.servers ∨ a ∈ known sh nsdname)
    (hunresolved : ∀ m, m ∈ t'.unresolved ↔ m ∈ t.unresolved ∨ m = nsdname ∧ known sh m = []) :
    Entered sh t (nsdname :: names) out := by
  refine ⟨he.cache, he.zone.trans hzone, fun a => ?_, fun m => ?_⟩
  · rw [he.servers, hservers]
    simp only [List.mem_cons, exists_eq_or_imp, or_assoc]
  · rw [he.unresolved, hunresolved]
    simp only [List.mem_cons, or_and_right, or_assoc]

theorem enterZoneLoop_entered : ∀ (records : List RR) (sh : Shared) (t : Task), CacheOk sh.cache →
    Entered sh t (nsNames records) (enterZoneLoop [] records sh t)
  | [], sh, t, h => ⟨⟨rfl, fun _ => rfl, h⟩, rfl, by simp [nsNames, enterZoneLoop],
      by simp [nsNames, enterZoneLoop]⟩
  | r :: rest, sh, t, h => by
    cases hr : nsName r with
    | none =>
      have hskip : enterZoneLoop [] (r :: rest) sh t = enterZoneLoop [] rest sh t := by
        unfold nsName at hr
        rw [enterZoneLoop]
        cases hdata : r.rdata <;> simp_all
      have hnames : nsNames (r :: rest) = nsNames rest := List.filterMap_cons_none hr
      rw [hskip, hnames]
      exact enterZoneLoop_entered rest sh t h
    | some nsdname =>
      have hdata : r.rdata = .ns nsdname := by
        unfold nsName at hr
        cases hdata : r.rdata <;> simp_all
      have hnames : nsNames (r :: rest) = nsdname :: nsNames rest := List.filterMap_cons_some hr
      obtain ⟨haddresses, hsame⟩ := serverAddresses_spec h nsdname
      rw [enterZoneLoop, hdata, hnames]
      dsimp only
      rw [haddresses]
      set t' := if (known sh nsdname).isEmpty then { t with unresolved := t.unresolved ++ [nsdname] }
        else t with ht'
      have hkeep : t'.servers = t.servers ∧ t'.zone = t.zone ∧
          ∀ m, m ∈ t'.unresolved ↔ m ∈ t.unresolved ∨ m = nsdname ∧ known sh m = [] := by
        rw [ht']
        split_ifs with hnone
        · rw [List.isEmpty_iff] at hnone
          refine ⟨rfl, rfl, fun m => ?_⟩
          rw [List.mem_append, List.mem_singleton]
          refine or_congr_right ⟨fun hm => ⟨hm, hm ▸ hnone⟩, And.left⟩
        · rw [List.isEmpty_iff] at hnone
          refine ⟨rfl, rfl, fun m => ⟨.inl, ?_⟩⟩
          rintro (hm | ⟨rfl, hm⟩)
          · exact hm
          · exact absurd hm hnone
      obtain ⟨hservers, hzone, hunresolved⟩ := hkeep
      obtain ⟨hframe, hframeZone⟩ := foldl_addServer_frame (known sh nsdname) t'
      have hrest := enterZoneLoop_entered rest _ ((known sh nsdname).foldl addServer t') hsame.ok
      refine (hrest.weaken hsame).cons (hframeZone.trans hzone) (fun a => ?_) fun m => ?_
      · rw [mem_foldl_addServer, hservers]
      · rw [hframe, hunresolved]

/-! ### The closest zone -/

/-- The NS set at `y` that a resolution would start with. -/
def usableNs (sh : Shared) (y : Name) : Option CacheEntry :=
  (liveEntry sh ⟨y, kTypeNS, kClassIN⟩).filter fun e => !e.isNegative && !e.records.isEmpty

theorem usableNs_congr (h : SameCache sh sh') (y : Name) : usableNs sh' y = usableNs sh y := by
  unfold usableNs
  rw [h.same]

theorem zoneCutAt_none (h : CacheOk sh.cache) (t : Task) (hstub : cfg.stub z = none)
    (hns : usableNs sh z = none) :
    ∃ sh', SameCache sh sh' ∧ zoneCutAt cfg sh t z = (sh', none) := by
  obtain ⟨sh', hsame, ⟨hmiss, -⟩ | ⟨e, d, hhit, hlive, hdata⟩⟩ :=
    lookup_spec h ⟨z, kTypeNS, kClassIN⟩
  · refine ⟨sh', hsame, ?_⟩
    unfold zoneCutAt
    rw [hstub, hmiss]
  · refine ⟨sh', hsame, ?_⟩
    unfold usableNs at hns
    unfold zoneCutAt
    rw [hlive, Option.filter_some] at hns
    rw [hstub, hhit]
    dsimp only
    rw [hdata.negative, hdata.empty]
    split_ifs at hns ⊢ with hgood
    rfl

theorem zoneCutAt_some (h : CacheOk sh.cache) (t : Task) (hstub : cfg.stub z = none)
    (hns : usableNs sh z = some e) (hz : z.labelCount ≠ 0) :
    ∃ sh' t', zoneCutAt cfg sh t z = (sh', some t') ∧
      Entered sh (resetZone t z) (nsNames e.records) (sh', t') := by
  obtain ⟨hfound, husable⟩ := Option.filter_eq_some_iff.1 hns
  obtain ⟨sh', hsame, ⟨-, hdead⟩ | ⟨f, d, hhit, hlive, hdata⟩⟩ :=
    lookup_spec h ⟨z, kTypeNS, kClassIN⟩
  · rw [hfound] at hdead
    cases hdead
  · rw [hfound] at hlive
    cases hlive
    have hentered := enterZoneLoop_entered f.records sh' (resetZone t z) hsame.ok
    have hkeep : enterZone cfg sh' t z f.records =
        enterZoneLoop [] f.records sh' (resetZone t z) := by
      unfold enterZone
      dsimp only
      rw [hentered.zone, if_neg (show (resetZone t z).zone.labelCount ≠ 0 from hz)]
    rw [hdata.names] at hentered
    refine ⟨_, _, ?_, hentered.weaken hsame⟩
    unfold zoneCutAt
    rw [hstub, hhit]
    dsimp only
    rw [hdata.negative, hdata.empty, if_pos husable, hkeep]

/-- The zone `z` is the closest zone above `n` because of the NS set `e` in the cache: no zone
further down is a stub zone or has an NS set of its own. -/
structure ChosenFromCache (cfg : Config) (sh : Shared) (n z : Name) (e : CacheEntry) : Prop where
  stub : cfg.stub z = none
  ns : usableNs sh z = some e
  notRoot : z.labelCount ≠ 0
  closest : ∃ k, Name.parent^[k] n = z ∧
    ∀ j < k, cfg.stub (Name.parent^[j] n) = none ∧ usableNs sh (Name.parent^[j] n) = none

theorem labelCount_parents (k : ℕ) : (Name.parent^[k] n).labelCount = n.labelCount - k := by
  induction k generalizing n with
  | zero => rfl
  | succ k ih =>
    have hparent : n.parent.labelCount = n.labelCount - 1 := by
      unfold Name.labelCount
      rw [Name.labels_parent, List.length_tail]
    rw [Function.iterate_succ_apply, ih, hparent]
    omega

theorem closestZoneLoop_entered (hz : z.labelCount ≠ 0) (hstub : cfg.stub z = none) :
    ∀ (k : ℕ) (sh : Shared) (t : Task) (n : Name), CacheOk sh.cache → usableNs sh z = some e →
      Name.parent^[k] n = z →
      (∀ j < k, cfg.stub (Name.parent^[j] n) = none ∧ usableNs sh (Name.parent^[j] n) = none) →
      ∀ fuel, Entered sh (resetZone t z) (nsNames e.records)
        (closestZoneLoop cfg (k + fuel + 1) sh t n)
  | 0, sh, t, n, h, hns, hk, _, fuel => by
    obtain rfl : n = z := hk
    obtain ⟨sh', t', hcut, hentered⟩ := zoneCutAt_some h t hstub hns hz
    rw [closestZoneLoop, hcut]
    exact hentered
  | k + 1, sh, t, n, h, hns, hk, hbelow, fuel => by
    obtain ⟨hnostub, hnone⟩ := hbelow 0 (Nat.succ_pos k)
    obtain ⟨sh', hsame, hcut⟩ := zoneCutAt_none h t hnostub hnone
    have hroot : n.labelCount ≠ 0 := by
      rw [← hk, labelCount_parents] at hz
      omega
    rw [closestZoneLoop, show zoneCutAt cfg sh t n = _ from hcut]
    dsimp only
    rw [if_neg hroot, show k + 1 + fuel = k + fuel + 1 by omega]
    refine (closestZoneLoop_entered hz hstub k sh' t n.parent hsame.ok
      ((usableNs_congr hsame z).trans hns) hk (fun j hj => ?_) fuel).weaken hsame
    rw [usableNs_congr hsame]
    exact hbelow (j + 1) (Nat.succ_lt_succ hj)

theorem startAtClosestZone_entered (h : CacheOk sh.cache)
    (hchosen : ChosenFromCache cfg sh t.qname z e) :
    Entered sh (resetZone t z) (nsNames e.records) (startAtClosestZone cfg sh t) := by
  obtain ⟨hstub, hns, hroot, k, hk, hbelow⟩ := hchosen
  have hle : k ≤ t.qname.labelCount := by
    rw [← hk, labelCount_parents] at hroot
    omega
  have hloop := closestZoneLoop_entered hroot hstub k sh t t.qname h hns hk hbelow
    (t.qname.labelCount - k)
  rwa [Nat.add_sub_of_le hle] at hloop

/-- A server of the zone is known, or one can be found without asking the zone's own servers. -/
def CanGoOn (t : Task) : Prop := t.servers ≠ [] ∨ ∃ m ∈ t.unresolved, m.isSubdomainOf t.zone = false

/-- **A resolution that starts from a cached delegation can go on exactly if the cache still has the
address of one of the name servers, or one of them is outside the zone.** -/
theorem delegation_leads_on_iff {src : Option Source} {u : Task} {es : List Event} {w : World}
    (h : Run (Step cfg env) (start cfg sizes cacheConfig) es w)
    (hmoves : Moves cfg src (w.shared, u) (sh, t))
    (hchosen : ChosenFromCache cfg sh t.qname z e) :
    (startAtClosestZone cfg sh t).2.zone = z ∧
      (CanGoOn (startAtClosestZone cfg sh t).2 ↔
        ∃ m ∈ nsNames e.records, known sh m ≠ [] ∨ m.isSubdomainOf z = false) := by
  have hentered := startAtClosestZone_entered (remembers_moves hmoves (remembers_run h)).ok hchosen
  have hzone : (startAtClosestZone cfg sh t).2.zone = z := hentered.zone
  have hservers : ∀ a, a ∈ (startAtClosestZone cfg sh t).2.servers ↔
      ∃ m ∈ nsNames e.records, a ∈ known sh m := fun a => by
    simp [hentered.servers a, resetZone]
  have hunresolved : ∀ m, m ∈ (startAtClosestZone cfg sh t).2.unresolved ↔
      m ∈ nsNames e.records ∧ known sh m = [] := fun m => by
    simp [hentered.unresolved m, resetZone]
  refine ⟨hzone, ?_⟩
  unfold CanGoOn
  rw [hzone]
  constructor
  · rintro (hknown | ⟨m, hm, houtside⟩)
    · obtain ⟨a, ha⟩ := List.exists_mem_of_ne_nil _ hknown
      obtain ⟨m, hm, ham⟩ := (hservers a).1 ha
      exact ⟨m, hm, .inl (List.ne_nil_of_mem ham)⟩
    · exact ⟨m, ((hunresolved m).1 hm).1, .inr houtside⟩
  · rintro ⟨m, hm, hcase⟩
    by_cases hknown : known sh m = []
    · exact .inr ⟨m, (hunresolved m).2 ⟨hm, hknown⟩, hcase.resolve_left (absurd hknown)⟩
    · obtain ⟨a, ha⟩ := List.exists_mem_of_ne_nil _ hknown
      exact .inl (List.ne_nil_of_mem ((hservers a).2 ⟨m, hm, ha⟩))

/-- A name in the zone `a`. -/
def inZone (c : UInt8) : Name := ⟨[[c], [97]], [[c], [97]]⟩

/-- The root refers to the zone `a`, whose name server is in the zone. The NS record lives for a day,
the address that comes with it for a minute. -/
def delegatedEvents : List Event :=
  [.resolve ⟨inZone 98, RRType.A, kClassIN⟩, .timer 1,
    .upstream 1 (.ok (reply ⟨inZone 98, RRType.A, kClassIN⟩
      { authority :=
          [{ name := letter 97, type := RRType.NS, rdata := .ns (inZone 110), ttl := 86400 }]
        additional := [{ name := inZone 110, rdata := .a 7, ttl := 60 }] })),
    .upstream 2 (.ok (reply ⟨inZone 98, RRType.A, kClassIN⟩
      { header := { aa := true }
        answers := [{ name := inZone 98, rdata := .a 9, ttl := 60 }] })), .call]

/-- A resolution of another name in the zone. -/
def laterTask : Task :=
  { question := ⟨inZone 99, RRType.A, kClassIN⟩, qname := inZone 99, budget := 2, started := 0
    done := .callback 1 }

/-- The delegation is in the cache. -/
theorem chosen_delegation (hns : usableNs sh (letter 97) = some e)
    (hbelow : usableNs sh (inZone 99) = none) :
    ChosenFromCache sampleConfig sh laterTask.qname (letter 97) e where
  stub := rfl
  ns := hns
  notRoot := by decide
  closest := ⟨1, rfl, fun j hj => by
    obtain rfl : j = 0 := by omega
    exact ⟨rfl, hbelow⟩⟩

theorem delegation_leads_on_iff_delegated :
    ∃ w e, Run (Step sampleConfig fun _ => 0) sampleStart delegatedEvents w ∧
      usableNs w.shared (letter 97) = some e ∧ known w.shared (inZone 110) = [7] ∧
      (CanGoOn (startAtClosestZone sampleConfig w.shared laterTask).2 ↔
        ∃ m ∈ nsNames e.records, known w.shared m ≠ [] ∨ m.isSubdomainOf (letter 97) = false) := by
  obtain ⟨w, hrun, hw⟩ := exists_run delegatedEvents
    (P := fun w => (usableNs w.shared (letter 97)).isSome &&
      (usableNs w.shared (inZone 99)).isNone && known w.shared (inZone 110) == [7])
    (by decide +kernel)
  simp only [Bool.and_eq_true, Option.isSome_iff_exists, Option.isNone_iff_eq_none,
    beq_iff_eq] at hw
  obtain ⟨⟨⟨e, hns⟩, hbelow⟩, hknown⟩ := hw
  have hmoves : Moves sampleConfig none (w.shared, laterTask) (w.shared, laterTask) := .refl
  exact ⟨w, e, hrun, hns, hknown,
    (delegation_leads_on_iff hrun hmoves (chosen_delegation hns hbelow)).2⟩

/-- The response an NS set was taken from has the address of one of the name servers. -/
def glued (i : Insert) : Bool :=
  (nsNames i.records).any fun m =>
    !(ipv4Addresses (collect i.source.response.additional m kTypeA)).isEmpty

/-- **A delegation that leads nowhere.** A minute later the address is gone and the NS set is still
there. The next name in the zone fails, and the root is not asked again. -/
theorem delegation_dead_end :
    ∃ w e i w' trace,
      Run (Step sampleConfig fun _ => 0) sampleStart (delegatedEvents ++ [.wait (61 * 10 ^ 9)]) w ∧
      ChosenFromCache sampleConfig w.shared laterTask.qname (letter 97) e ∧
      lastFor ⟨letter 97, kTypeNS, kClassIN⟩ w.shared.inserts = some i ∧ e = made i ∧
      glued i = true ∧ ¬ CanGoOn (startAtClosestZone sampleConfig w.shared laterTask).2 ∧
      Run (Step sampleConfig fun _ => 0) w
        [.resolve laterTask.question, .timer 3, .timer 5, .call] w' ∧
      w'.trace = .called 1 (.error .allServersFailed) :: trace := by
  obtain ⟨w, hrun, hw⟩ := exists_run (delegatedEvents ++ [.wait (61 * 10 ^ 9)])
    (P := fun w => (usableNs w.shared (letter 97)).isSome &&
      (usableNs w.shared (inZone 99)).isNone &&
      (lastFor ⟨letter 97, kTypeNS, kClassIN⟩ w.shared.inserts).any glued &&
      (startAtClosestZone sampleConfig w.shared laterTask).2.servers.isEmpty &&
      (startAtClosestZone sampleConfig w.shared laterTask).2.unresolved.all (fun m =>
        m.isSubdomainOf (startAtClosestZone sampleConfig w.shared laterTask).2.zone) &&
      (Run.applyAll (apply sampleConfig (fun _ => 0) 16) w
        [.resolve laterTask.question, .timer 3, .timer 5, .call]).any fun w' =>
          (lastCall w').any fun c => c.1 == 1 && failure c.2 == some .allServersFailed)
    (by decide +kernel)
  simp only [Bool.and_eq_true, Option.isSome_iff_exists, Option.isNone_iff_eq_none,
    Option.any_eq_true, List.isEmpty_iff, List.all_eq_true, beq_iff_eq] at hw
  obtain ⟨⟨⟨⟨⟨⟨e, hns⟩, hbelow⟩, i, hlast, hglued⟩, hservers⟩, hinside⟩, w', hplay, ⟨cb, result⟩,
    hcall, rfl, hfailed⟩ := hw
  obtain ⟨trace, htrace⟩ := trace_of_lastCall hcall
  rw [eq_error_of_failure hfailed] at htrace
  have hrun' := Run.of_applyAll
    (fun _ _ _ h => (⟨16, h⟩ : Step sampleConfig (fun _ => 0) _ _ _)) _ _ hplay
  have hmade : e = made i := by
    obtain ⟨hlive, -⟩ := Option.filter_eq_some_iff.1 hns
    obtain ⟨hcontent, -⟩ := Option.filter_eq_some_iff.1 hlive
    obtain ⟨j, hj, rfl⟩ := (remembers_run hrun).entries _ _ hcontent
    rw [Option.some.inj (hj.symm.trans hlast)]
  have hstuck : ¬ CanGoOn (startAtClosestZone sampleConfig w.shared laterTask).2 := by
    rintro (hsome | ⟨m, hm, houtside⟩)
    · exact hsome hservers
    · exact absurd (hinside m hm) (by simp [houtside])
  exact ⟨w, e, i, w', trace, hrun, chosen_delegation hns hbelow, hlast, hmade, hglued, hstuck, hrun',
    htrace⟩

end DNSentinel.Resolver.DeadEnd
