import DNSentinel.Lib.Runs
import DNSentinel.Resolver.Selection
import Mathlib.Data.List.Range
import Mathlib.Data.Prod.Lex
import Mathlib.Order.BooleanAlgebra.Basic

/-! # What is known about servers

`server_selection.cpp` over whole histories. All that `pick`, `timeout` and `info` read is what `fresh`
returns, and that follows from what was reported about the server since the last time it was forgotten. How
often the table is swept makes no difference. -/

namespace DNSentinel.Resolver.Standing

open Lib.Runs Selection Selection.ServerSelection

/-! ### Reports -/

inductive Report where
  | answer (rtt : Option ℕ)
  | unusable
  | failure
deriving DecidableEq

/-- What `record_answer`, `record_unusable` and `record_failure` change about a server. -/
def Report.update : Report → Info → Info
  | .answer rtt, info =>
    let info := { info with failures := 0 }
    match rtt with
    | none => info
    | some sample =>
      if !info.measured then { info with srtt := sample, rttvar := sample / 2, measured := true }
      else
        let error := if sample < info.srtt then info.srtt - sample else sample - info.srtt
        { info with rttvar := (3 * info.rttvar + error) / 4, srtt := (7 * info.srtt + sample) / 8 }
  | .unusable, info => { info with failures := info.failures + 1 }
  | .failure, info =>
    let info := if !info.measured then { info with srtt := kUnmeasured, measured := true } else info
    { info with
      srtt := min (info.srtt + kTimeoutPenalty) kMaxSrtt
      failures := info.failures + 1 }

/-- `touched`, with `kPruneEvery` another number, or without sweeps. -/
def touchedEvery (every : Option ℕ) (s : ServerSelection) (now : ℕ) (server : Address) (info : Info) :
    ServerSelection :=
  let s := { s with
    servers := Function.update s.servers server (some { info with updated := now })
    updates := s.updates + 1 }
  if every.any fun n => s.updates.toNat % n == 0 then
    { s with servers := fun a => (s.servers a).filter fun i => !decide (kForgetAfter < now - i.updated) }
  else s

def record (every : Option ℕ) (s : ServerSelection) (now : ℕ) (server : Address) (r : Report) :
    ServerSelection := touchedEvery every s now server (r.update (s.entry now server))

/-- What is known about the server, if it is not forgotten. -/
def info (s : ServerSelection) (now : ℕ) (server : Address) : Option Info := s.fresh now server

variable {s s' : ServerSelection} {now later : ℕ} {server other : Address} {r : Report} {i : Info}
  {every every' : Option ℕ} {env : Random} {draws : ℕ} {candidates : List Address}

theorem touched_eq (s : ServerSelection) (now : ℕ) (server : Address) (i : Info) :
    s.touched now server i = touchedEvery (some kPruneEvery) s now server i := by
  unfold ServerSelection.touched touchedEvery
  simp only [Option.any_some, beq_iff_eq]

theorem recordAnswer_eq (s : ServerSelection) (now : ℕ) (server : Address) (rtt : Option ℕ) :
    s.recordAnswer now server rtt = record (some kPruneEvery) s now server (.answer rtt) :=
  touched_eq _ _ _ _

theorem recordUnusable_eq (s : ServerSelection) (now : ℕ) (server : Address) :
    s.recordUnusable now server = record (some kPruneEvery) s now server .unusable :=
  touched_eq _ _ _ _

theorem recordFailure_eq (s : ServerSelection) (now : ℕ) (server : Address) :
    s.recordFailure now server = record (some kPruneEvery) s now server .failure :=
  touched_eq _ _ _ _

/-! ### What is fresh -/

theorem fresh_eq (s : ServerSelection) (now : ℕ) (server : Address) :
    s.fresh now server = (s.servers server).filter fun i => !decide (kForgetAfter < now - i.updated) := by
  unfold ServerSelection.fresh
  cases s.servers server with
  | none => rfl
  | some i => by_cases h : kForgetAfter < now - i.updated <;> simp [h, Option.filter]

/-- What is forgotten stays so. -/
theorem filter_fresh (hlater : now ≤ later) (o : Option Info) :
    ((o.filter fun i => !decide (kForgetAfter < now - i.updated)).filter fun i =>
      !decide (kForgetAfter < later - i.updated)) =
      o.filter fun i => !decide (kForgetAfter < later - i.updated) := by
  cases o with
  | none => rfl
  | some i =>
    by_cases hnow : kForgetAfter < now - i.updated
    · have hforgotten : kForgetAfter < later - i.updated := hnow.trans_le (Nat.sub_le_sub_right hlater _)
      simp [Option.filter, hnow, hforgotten]
    · simp [Option.filter, hnow]

/-- A report is all that is new, whether the table is swept or not. -/
theorem fresh_touched (hlater : now ≤ later) :
    (touchedEvery every s now server i).fresh later other =
      if other = server then
        if kForgetAfter < later - now then none else some { i with updated := now }
      else s.fresh later other := by
  have hupdate : ((Function.update s.servers server (some { i with updated := now }) other).filter
      fun i => !decide (kForgetAfter < later - i.updated)) =
      if other = server then
        if kForgetAfter < later - now then none else some { i with updated := now }
      else s.fresh later other := by
    by_cases ho : other = server
    · subst ho
      rw [Function.update_self, if_pos rfl, Option.filter_some]
      by_cases hforget : kForgetAfter < later - now
      · simp [hforget]
      · simp [hforget]
    · rw [Function.update_of_ne ho, if_neg ho, fresh_eq]
  rw [fresh_eq, ← hupdate]
  unfold touchedEvery
  dsimp only
  split_ifs
  · exact filter_fresh hlater _
  · rfl

/-! ### A failure -/

theorem rank_eq (s : ServerSelection) (now : ℕ) (server : Address) :
    s.rank now server = match s.fresh now server with
      | none => (false, kUnmeasured)
      | some i => (decide (kMaxFailures ≤ i.failures), if i.measured then i.srtt else kUnmeasured) := rfl

theorem rankLt_iff {a b : Rank} : rankLt a b = true ↔ toLex a < toLex b := by
  rw [Prod.Lex.toLex_lt_toLex]
  unfold rankLt
  cases a.1 <;> cases b.1 <;> simp

theorem rankLt_false_iff {a b : Rank} : rankLt a b = false ↔ toLex b ≤ toLex a := by
  rw [← Bool.not_eq_true, rankLt_iff, not_lt]

/-- What is known of the server leaves room for a penalty: the estimate is not above its limit, and the
failures can be counted. The fifth failure in a row makes up for any estimate. -/
def Steady (s : ServerSelection) (now : ℕ) (server : Address) : Prop :=
  ∀ i, s.fresh now server = some i →
    i.failures = 4 ∨ i.failures ≠ 0xFFFFFFFF ∧ (i.measured = true → i.srtt ≤ kMaxSrtt)

theorem rank_failure (s : ServerSelection) (now : ℕ) (server other : Address) :
    (s.recordFailure now server).rank now other =
      if other = server then
        (decide (kMaxFailures ≤ (s.entry now server).failures + 1),
          min ((if (s.entry now server).measured then (s.entry now server).srtt else kUnmeasured) +
            kTimeoutPenalty) kMaxSrtt)
      else s.rank now other := by
  rw [recordFailure_eq, rank_eq, record, fresh_touched le_rfl]
  by_cases ho : other = server
  · have hnow : ¬ kForgetAfter < now - now := by simp
    rw [if_pos ho, if_neg hnow, if_pos ho]
    cases hmeasured : (s.entry now server).measured with
    | true | false => simp [Report.update, hmeasured]
  · rw [if_neg ho, if_neg ho]
    rfl

/-- The information of a server that is not forgotten is what is updated. -/
theorem entry_of_fresh (h : s.fresh now server = some i) : s.entry now server = i := by
  unfold ServerSelection.fresh at h
  unfold ServerSelection.entry
  cases hs : s.servers server with
  | none => simp [hs] at h
  | some j =>
    rw [hs] at h
    dsimp only at h ⊢
    split_ifs at h with hforget
    obtain rfl := Option.some.inj h
    rw [if_neg fun hboth => hforget hboth.2]

/-- The fifth failure in a row is the one that counts. -/
theorem failures_succ (n : UInt32) :
    (kMaxFailures ≤ n + 1 ∧ ¬ kMaxFailures ≤ n ↔ n = 4) ∧
    (¬ kMaxFailures ≤ n + 1 ∧ kMaxFailures ≤ n ↔ n = 0xFFFFFFFF) := by
  have hlt := n.toNat_lt
  have hadd : (n + 1).toNat = (n.toNat + 1) % 2 ^ 32 := UInt32.toNat_add n 1
  simp only [kMaxFailures, UInt32.le_iff_toNat_le, ← UInt32.toNat_inj, hadd]
  have h5 : (5 : UInt32).toNat = 5 := rfl
  have h4 : (4 : UInt32).toNat = 4 := rfl
  have hmax : (0xFFFFFFFF : UInt32).toNat = 4294967295 := rfl
  omega

theorem le_kMaxSrtt_iff (i : Info) : (if i.measured then i.srtt else kUnmeasured) ≤ kMaxSrtt ↔
    (i.measured = true → i.srtt ≤ kMaxSrtt) := by
  cases i.measured <;> simp [kUnmeasured, kMaxSrtt]

theorem steady_iff_of_fresh (h : s.fresh now server = some i) : Steady s now server ↔
    i.failures = 4 ∨
      i.failures ≠ 0xFFFFFFFF ∧ (if i.measured then i.srtt else kUnmeasured) ≤ kMaxSrtt := by
  unfold Steady
  rw [h, le_kMaxSrtt_iff]
  exact ⟨fun hall => hall i rfl, fun hi j hj => (Option.some.inj hj) ▸ hi⟩

theorem rank_failure_le_iff (s : ServerSelection) (now : ℕ) (server : Address) :
    toLex (s.rank now server) ≤ toLex ((s.recordFailure now server).rank now server) ↔
      Steady s now server := by
  rw [rank_failure, if_pos rfl, rank_eq]
  cases hfresh : s.fresh now server with
  | none =>
    have hsteady : Steady s now server := fun i hi => by simp [hfresh] at hi
    refine iff_of_true ?_ hsteady
    -- nothing is known, or all of it is forgotten
    rw [Prod.Lex.toLex_le_toLex]
    generalize (if (s.entry now server).measured then (s.entry now server).srtt else kUnmeasured) = srtt
    have hpenalty : kUnmeasured ≤ min (srtt + kTimeoutPenalty) kMaxSrtt := by
      unfold kUnmeasured kTimeoutPenalty kMaxSrtt
      omega
    rcases (Bool.false_le (decide (kMaxFailures ≤ (s.entry now server).failures + 1))).lt_or_eq with hlt | heq
    · exact .inl hlt
    · exact .inr ⟨heq, hpenalty⟩
  | some i =>
    rw [steady_iff_of_fresh hfresh, entry_of_fresh hfresh, Prod.Lex.toLex_le_toLex]
    dsimp only
    generalize (if i.measured then i.srtt else kUnmeasured) = srtt
    obtain ⟨hfifth, hwrap⟩ := failures_succ i.failures
    have hpenalty : srtt ≤ min (srtt + kTimeoutPenalty) kMaxSrtt ↔ srtt ≤ kMaxSrtt := by omega
    rw [hpenalty, ← hfifth, ne_eq, ← hwrap]
    by_cases hbefore : kMaxFailures ≤ i.failures <;> by_cases hafter : kMaxFailures ≤ i.failures + 1 <;>
      simp [hbefore, hafter]

/-- **A failure does not make a server more attractive exactly if there is room for its penalty.** No other
server's rank changes, so that it does not move ahead of a server that it was behind. -/
theorem failure_ranks_iff (s : ServerSelection) (now : ℕ) (server : Address) :
    (rankLt ((s.recordFailure now server).rank now server) (s.rank now server) = false ↔
      Steady s now server) ∧
    (∀ other, other ≠ server → (s.recordFailure now server).rank now other = s.rank now other) ∧
    (Steady s now server → ∀ other, rankLt (s.rank now other) (s.rank now server) = true →
      rankLt ((s.recordFailure now server).rank now other)
        ((s.recordFailure now server).rank now server) = true) := by
  have hothers (other : Address) (ho : other ≠ server) :
      (s.recordFailure now server).rank now other = s.rank now other := by
    rw [rank_failure, if_neg ho]
  refine ⟨rankLt_false_iff.trans (rank_failure_le_iff s now server), hothers, fun h other hbehind => ?_⟩
  rw [rankLt_iff] at hbehind ⊢
  have ho : other ≠ server := by
    rintro rfl
    exact lt_irrefl _ hbehind
  rw [hothers other ho]
  exact hbehind.trans_le ((rank_failure_le_iff s now server).mpr h)

/-- A server that takes ten seconds to answer looks better after it has not answered, and moves ahead of one
that takes six. -/
theorem failure_improves_slow_server :
    let s := ((({ exploreOneIn := 0 } : ServerSelection).recordAnswer 1 1 (some 10000000)).recordAnswer
      1 2 (some 6000000))
    s.rank 2 1 = (false, 10000000) ∧ (s.recordFailure 2 1).rank 2 1 = (false, 5000000) ∧
      (s.pick (fun _ => 0) 0 2 [1, 2]).1 = 2 ∧ ((s.recordFailure 2 1).pick (fun _ => 0) 0 2 [1, 2]).1 = 1 := by
  decide +kernel

/-! ### What follows from the reports -/

structure Touch where
  server : Address
  time : ℕ
  report : Report

/-- The reports, most recent first, until a server was forgotten. -/
def recent : ℕ → List Touch → List Touch
  | _, [] => []
  | now, x :: xs => if kForgetAfter < now - x.time then [] else x :: recent x.time xs

/-- The reports that count about a server at `now`, most recent first. -/
def counted (log : List Touch) (now : ℕ) (server : Address) : List Touch :=
  recent now (log.filter fun x => x.server = server)

/-- The failures since the last usable answer. -/
def failuresIn : List Touch → ℕ
  | [] => 0
  | x :: xs =>
    match x.report with
    | .answer _ => 0
    | _ => failuresIn xs + 1

/-- The estimates that the reports lead to. -/
def infoOf (touches : List Touch) : Info :=
  touches.foldr (fun x i => { x.report.update i with updated := x.time }) {}

def failures (log : List Touch) (now : ℕ) (server : Address) : ℕ := failuresIn (counted log now server)

/-- The smoothed round trip, or the guess for a server without a measurement. -/
def srtt (log : List Touch) (now : ℕ) (server : Address) : ℕ :=
  let i := infoOf (counted log now server)
  if i.measured then i.srtt else kUnmeasured

/-- What `fresh` returns is what the reports lead to. -/
def known (log : List Touch) (now : ℕ) (server : Address) : Option Info :=
  if counted log now server = [] then none else some (infoOf (counted log now server))

/-- The state of knowledge at `clock`. The epoch stands for a server that was never heard of. -/
structure Knows (s : ServerSelection) (clock : ℕ) (log : List Touch) : Prop where
  dated : ∀ a i, s.servers a = some i → i.updated ≠ 0
  fresh : ∀ now, clock ≤ now → ∀ a, s.fresh now a = known log now a

variable {clock : ℕ} {log : List Touch} {x : Touch}

theorem knows_init (exploreOneIn : UInt32) : Knows { exploreOneIn } clock [] :=
  ⟨fun _ _ h => (by cases h), fun _ _ _ => rfl⟩

theorem entry_eq (h : ∀ i, s.servers server = some i → i.updated ≠ 0) :
    s.entry now server = (s.fresh now server).getD {} := by
  unfold ServerSelection.entry ServerSelection.fresh
  cases hs : s.servers server with
  | none => rfl
  | some i =>
    have hdated := h i hs
    by_cases hforget : kForgetAfter < now - i.updated
    · simp [hdated, hforget]
    · simp [hforget]

theorem getD_known (log : List Touch) (now : ℕ) (server : Address) :
    (known log now server).getD {} = infoOf (counted log now server) := by
  unfold known
  split_ifs with hnil
  · rw [hnil]
    rfl
  · rfl

theorem counted_cons_of_ne (h : x.server ≠ server) : counted (x :: log) now server = counted log now server := by
  unfold counted
  rw [List.filter_cons_of_neg (by simpa using h)]

theorem counted_cons_self : counted (x :: log) now x.server =
    if kForgetAfter < now - x.time then [] else x :: counted log x.time x.server := by
  unfold counted
  rw [List.filter_cons_of_pos (by simp), recent]

theorem known_cons (log : List Touch) (x : Touch) (server : Address) : known (x :: log) later server =
    if server = x.server then
      if kForgetAfter < later - x.time then none
      else some { x.report.update (infoOf (counted log x.time x.server)) with updated := x.time }
    else known log later server := by
  unfold known
  by_cases hserver : server = x.server
  · subst hserver
    rw [counted_cons_self, if_pos rfl]
    by_cases hforget : kForgetAfter < later - x.time
    · simp [hforget]
    · rw [if_neg hforget, if_neg hforget, if_neg (by simp)]
      rfl
  · rw [counted_cons_of_ne (Ne.symm hserver), if_neg hserver]

theorem dated_touched (h : ∀ a i, s.servers a = some i → i.updated ≠ 0) (hnow : 0 < now) :
    ∀ a j, (touchedEvery every s now server i).servers a = some j → j.updated ≠ 0 := by
  have hupdate : ∀ a j, Function.update s.servers server (some { i with updated := now }) a = some j →
      j.updated ≠ 0 := by
    intro a j hj
    by_cases ha : a = server
    · subst ha
      rw [Function.update_self] at hj
      obtain rfl := Option.some.inj hj
      exact hnow.ne'
    · rw [Function.update_of_ne ha] at hj
      exact h a j hj
  intro a j hj
  unfold touchedEvery at hj
  dsimp only at hj
  split_ifs at hj
  · exact hupdate a j (Option.filter_eq_some_iff.mp hj).1
  · exact hupdate a j hj

/-- A report adds to what is known, however often the table is swept. -/
theorem Knows.record (h : Knows s clock log) (hclock : clock ≤ now) (hnow : 0 < now) (server : Address)
    (r : Report) (every : Option ℕ) :
    Knows (record every s now server r) now (⟨server, now, r⟩ :: log) := by
  refine ⟨dated_touched h.dated hnow, fun later hlater a => ?_⟩
  have hentry : s.entry now server = infoOf (counted log now server) := by
    rw [entry_eq (h.dated server), h.fresh now hclock, getD_known]
  rw [known_cons, Standing.record, fresh_touched hlater, hentry, h.fresh later (hclock.trans hlater)]

/-- The counter of failures, which runs over after 2 ^ 32 of them. -/
theorem failures_infoOf : ∀ touches : List Touch,
    (infoOf touches).failures.toNat = failuresIn touches % 2 ^ 32
  | [] => rfl
  | x :: xs => by
    have ih := failures_infoOf xs
    have hinfo : infoOf (x :: xs) = { x.report.update (infoOf xs) with updated := x.time } := rfl
    have hsucc : ((infoOf xs).failures + 1).toNat = (failuresIn xs + 1) % 2 ^ 32 := by
      rw [UInt32.toNat_add, ih]
      exact Nat.mod_add_mod _ _ _
    rw [hinfo, failuresIn]
    cases hreport : x.report with
    | answer rtt =>
      cases rtt with
      | none => rfl
      | some sample =>
        simp only [Report.update]
        split_ifs <;> rfl
    | unusable => exact hsucc
    | failure =>
      simp only [Report.update]
      split_ifs <;> exact hsucc

/-- The rank that `pick` gives to a server, by its history. -/
theorem rank_known (h : Knows s clock log) (hclock : clock ≤ now) (server : Address)
    (hrange : failures log now server < 2 ^ 32) :
    s.rank now server =
      (decide (kMaxFailures.toNat ≤ failures log now server), srtt log now server) := by
  rw [rank_eq, h.fresh now hclock]
  have hfailures := failures_infoOf (counted log now server)
  have hexact : (infoOf (counted log now server)).failures.toNat = failures log now server :=
    hfailures.trans (Nat.mod_eq_of_lt hrange)
  unfold known srtt
  split_ifs with hnil
  · unfold failures
    rw [hnil]
    rfl
  · simp only [UInt32.le_iff_toNat_le, hexact]

/-! ### The pick -/

/-- A random candidate is picked. -/
def explores (s : ServerSelection) (env : Random) (draws : ℕ) (candidates : List Address) : Bool :=
  decide (1 < candidates.length) && s.exploreOneIn != 0 && env draws % s.exploreOneIn.toNat == 0

/-- The best of the candidates seen so far, and their rank. -/
structure Best (s : ServerSelection) (now : ℕ) (seen : List Address) (best : List Address × Rank) :
    Prop where
  ranked : ∀ a ∈ best.1, s.rank now a = best.2
  least : ∀ a ∈ seen, toLex best.2 ≤ toLex (s.rank now a)
  found : best.1 = [] → seen = []

variable {seen : List Address} {best : List Address × Rank} {a : Address}

theorem Best.better (h : Best s now seen best) (a : Address) :
    Best s now (seen ++ [a]) (s.better now best a) := by
  unfold ServerSelection.better
  dsimp only
  split_ifs with hnew hsame
  · -- the first candidate, or a better one
    have hle : ∀ b ∈ seen, toLex (s.rank now a) ≤ toLex (s.rank now b) := by
      intro b hb
      rcases Bool.or_eq_true_iff.mp hnew with hempty | hlt
      · rw [h.found (List.isEmpty_iff.mp hempty)] at hb
        cases hb
      · exact (rankLt_iff.mp hlt).le.trans (h.least b hb)
    refine ⟨fun b hb => by rw [List.mem_singleton.mp hb], fun b hb => ?_, fun hnil => by simp at hnil⟩
    rcases List.mem_append.mp hb with hb | hb
    · exact hle b hb
    · rw [List.mem_singleton.mp hb]
  · have heq : s.rank now a = best.2 := beq_iff_eq.mp hsame
    refine ⟨fun b hb => ?_, fun b hb => ?_, fun hnil => by simp at hnil⟩
    · rcases List.mem_append.mp hb with hb | hb
      · exact h.ranked b hb
      · rw [List.mem_singleton.mp hb, heq]
    · rcases List.mem_append.mp hb with hb | hb
      · exact h.least b hb
      · rw [List.mem_singleton.mp hb, heq]
  · rw [Bool.or_eq_true, not_or, List.isEmpty_iff, Bool.not_eq_true, rankLt_false_iff] at hnew
    refine ⟨h.ranked, fun b hb => ?_, fun hnil => absurd hnil hnew.1⟩
    rcases List.mem_append.mp hb with hb | hb
    · exact h.least b hb
    · rw [List.mem_singleton.mp hb]
      exact hnew.2

theorem best_foldl : ∀ (candidates seen : List Address) (best : List Address × Rank),
    Best s now seen best → Best s now (seen ++ candidates) (candidates.foldl (s.better now) best)
  | [], seen, best, h => by rwa [List.append_nil]
  | a :: rest, seen, best, h => by
    have hrest := best_foldl rest (seen ++ [a]) (s.better now best a) (h.better a)
    rwa [List.append_assoc] at hrest

/-- If it does not explore, the pick has the least rank. -/
theorem pick_least (h : explores s env draws candidates = false) (hne : candidates ≠ [])
    {b : Address} (hb : b ∈ candidates) :
    toLex (s.rank now (s.pick env draws now candidates).1) ≤ toLex (s.rank now b) := by
  have hbest : Best s now candidates (candidates.foldl (s.better now) ([], (false, 0))) :=
    best_foldl candidates [] _ ⟨fun _ ha => (by cases ha), fun _ ha => (by cases ha), fun _ => rfl⟩
  generalize hfold : candidates.foldl (s.better now) ([], (false, 0)) = best at hbest
  have hfound : best.1 ≠ [] := fun hnil => hne (hbest.found hnil)
  have hpicked : (s.pick env draws now candidates).1 ∈ best.1 := by
    unfold ServerSelection.pick
    unfold explores at h
    dsimp only
    rw [h, hfold, if_neg (by simp)]
    generalize (if (decide (1 < candidates.length) && s.exploreOneIn != 0) = true then draws + 1 else draws) =
      drawn
    split_ifs
    · rw [List.headD_eq_head?_getD, List.head?_eq_some_head hfound]
      exact List.head_mem hfound
    · exact getD_mod_mem hfound _
  rw [hbest.ranked _ hpicked]
  exact hbest.least b hb

theorem pick_congr (hexplore : s.exploreOneIn = s'.exploreOneIn)
    (hfresh : ∀ a, s.fresh now a = s'.fresh now a) :
    s.pick env draws now candidates = s'.pick env draws now candidates := by
  have hrank : s.rank now = s'.rank now := by
    funext a
    rw [rank_eq, rank_eq, hfresh]
  have hbetter : s.better now = s'.better now := by
    funext best a
    unfold ServerSelection.better
    rw [hrank]
  unfold ServerSelection.pick
  rw [hexplore, hbetter]

theorem timeout_congr (hfresh : s.fresh now server = s'.fresh now server) (ceiling : ℕ) :
    s.timeout now server ceiling = s'.timeout now server ceiling := by
  unfold ServerSelection.timeout
  rw [hfresh]

/-! ### Histories -/

structure History where
  selection : ServerSelection
  clock : ℕ := 0
  draws : ℕ := 0
  /-- the reports, most recent first -/
  log : List Touch := []
  /-- what was picked, waited for and told, most recent first -/
  results : List (Address ⊕ ℕ ⊕ Option Info) := []

inductive Action where
  | report (server : Address) (r : Report)
  | pick (candidates : List Address)
  | timeout (server : Address) (ceiling : ℕ)
  | info (server : Address)

structure Call where
  now : ℕ
  action : Action

def act (env : Random) (every : Option ℕ) (h : History) (now : ℕ) : Action → Option History
  | .report server r =>
    some
      { h with
        selection := record every h.selection now server r
        log := ⟨server, now, r⟩ :: h.log }
  | .pick [] => none
  | .pick candidates =>
    let picked := h.selection.pick env h.draws now candidates
    some { h with draws := picked.2, results := .inl picked.1 :: h.results }
  | .timeout server ceiling =>
    some { h with results := .inr (.inl (h.selection.timeout now server ceiling)) :: h.results }
  | .info server => some { h with results := .inr (.inr (info h.selection now server)) :: h.results }

/-- A call, at a time that has not passed. -/
def apply (env : Random) (every : Option ℕ) (h : History) (c : Call) : Option History :=
  if h.clock ≤ c.now ∧ 0 < c.now then
    (act env every h c.now c.action).map fun h => { h with clock := c.now }
  else none

/-- **One call of a history**, with a sweep of the table every so many updates. -/
def Step (env : Random) (every : Option ℕ) (h : History) (c : Call) (h' : History) : Prop :=
  apply env every h c = some h'

variable {h h' h₁ : History} {c : Call} {calls : List Call} {exploreOneIn : UInt32}

/-- Two histories that differ at most in what is left in the table. -/
structure Alike (h h' : History) : Prop where
  explore : h.selection.exploreOneIn = h'.selection.exploreOneIn
  clock : h.clock = h'.clock
  draws : h.draws = h'.draws
  log : h.log = h'.log
  results : h.results = h'.results
  knows : Knows h.selection h.clock h.log
  knows' : Knows h'.selection h'.clock h'.log

theorem exploreOneIn_record (every : Option ℕ) (s : ServerSelection) (now : ℕ) (server : Address)
    (r : Report) : (record every s now server r).exploreOneIn = s.exploreOneIn := by
  unfold record touchedEvery
  dsimp only
  split_ifs <;> rfl

theorem Knows.wait (hknows : Knows s clock log) (hclock : clock ≤ now) : Knows s now log :=
  ⟨hknows.dated, fun later hlater => hknows.fresh later (hclock.trans hlater)⟩

theorem alike_step (halike : Alike h h') (hs : Step env every h c h₁) :
    ∃ h₁', Step env every' h' c h₁' ∧ Alike h₁ h₁' := by
  obtain ⟨s, clock, draws, log, results⟩ := h
  obtain ⟨s', clock', draws', log', results'⟩ := h'
  obtain ⟨hexplore, rfl, rfl, rfl, rfl, hknows, hknows'⟩ := halike
  dsimp only at hexplore hknows hknows'
  unfold Step apply at hs ⊢
  obtain ⟨now, action⟩ := c
  dsimp only at hs ⊢
  split_ifs at hs with htime
  obtain ⟨h₂, hact, rfl⟩ := Option.map_eq_some_iff.mp hs
  rw [if_pos htime]
  obtain ⟨hclock, hnow⟩ := htime
  have hsame (a : Address) : s.fresh now a = s'.fresh now a := by
    rw [hknows.fresh now hclock, hknows'.fresh now hclock]
  cases action with
  | report server r =>
    obtain rfl := Option.some.inj hact
    refine ⟨_, rfl, ?_, rfl, rfl, rfl, rfl, ?_, ?_⟩
    · simp only [exploreOneIn_record, hexplore]
    · exact hknows.record hclock hnow server r every
    · exact hknows'.record hclock hnow server r every'
  | pick candidates =>
    cases candidates with
    | nil => cases hact
    | cons a rest =>
      obtain rfl := Option.some.inj hact
      refine ⟨_, rfl, hexplore, rfl, ?_, rfl, ?_, hknows.wait hclock, hknows'.wait hclock⟩
      · dsimp only
        rw [pick_congr hexplore hsame]
      · dsimp only
        rw [pick_congr hexplore hsame]
  | timeout server ceiling =>
    obtain rfl := Option.some.inj hact
    refine ⟨_, rfl, hexplore, rfl, rfl, rfl, ?_, hknows.wait hclock, hknows'.wait hclock⟩
    dsimp only
    rw [timeout_congr (hsame server)]
  | info server =>
    obtain rfl := Option.some.inj hact
    refine ⟨_, rfl, hexplore, rfl, rfl, rfl, ?_, hknows.wait hclock, hknows'.wait hclock⟩
    dsimp only
    rw [info, info, hsame]

theorem alike_run (hrun : Run (Step env every) h calls h₁) : ∀ {h' : History}, Alike h h' →
    ∃ h₁', Run (Step env every') h' calls h₁' ∧ Alike h₁ h₁' := by
  induction hrun with
  | nil h => exact fun halike => ⟨_, .nil _, halike⟩
  | cons hstep _ ih =>
    intro h' halike
    obtain ⟨h₂, hstep', halike₂⟩ := alike_step halike hstep
    obtain ⟨h₁', hrest, halike₁⟩ := ih halike₂
    exact ⟨h₁', .cons hstep' hrest, halike₁⟩

theorem alike_init (exploreOneIn : UInt32) :
    Alike { selection := { exploreOneIn } } { selection := { exploreOneIn } } :=
  ⟨rfl, rfl, rfl, rfl, rfl, knows_init _, knows_init _⟩

theorem knows_run (hrun : Run (Step env every) { selection := { exploreOneIn } } calls h) :
    Knows h.selection h.clock h.log := by
  have hnever : ∃ h', Run (Step env none) { selection := { exploreOneIn } } calls h' ∧ Alike h h' :=
    alike_run hrun (alike_init exploreOneIn)
  obtain ⟨h', -, halike⟩ := hnever
  exact halike.knows

/-- **The choice of a server follows its history, and sweeps are invisible.** A candidate is picked. If it is
not picked at random, then no other candidate is better by its history, as long as failures in a row can be
counted: none has fewer than `kMaxFailures` if the picked one has not, and none of the same group has a
smaller round trip. And with a sweep every so many other updates, or none, all results are the same. -/
theorem choice_follows_history
    (hrun : Run (Step env (some kPruneEvery)) { selection := { exploreOneIn } } calls h) :
    (∀ now candidates, h.clock ≤ now → candidates ≠ [] →
      (h.selection.pick env h.draws now candidates).1 ∈ candidates ∧
      (explores h.selection env h.draws candidates = false →
        (∀ b ∈ candidates, failures h.log now b < 2 ^ 32) → ∀ a,
          (h.selection.pick env h.draws now candidates).1 = a → ∀ b ∈ candidates,
          (failures h.log now b < kMaxFailures.toNat → failures h.log now a < kMaxFailures.toNat) ∧
          ((failures h.log now a < kMaxFailures.toNat ↔ failures h.log now b < kMaxFailures.toNat) →
            srtt h.log now a ≤ srtt h.log now b))) ∧
    ∀ every, ∃ h', Run (Step env every) { selection := { exploreOneIn } } calls h' ∧
      h'.results = h.results := by
  refine ⟨fun now candidates hclock hne => ⟨pick_mem _ _ _ _ hne, ?_⟩, fun every => ?_⟩
  · rintro hexplores hrange a rfl b hb
    have hknows := knows_run hrun
    have hmem := pick_mem h.selection env h.draws now hne
    have hleast : toLex (h.selection.rank now (h.selection.pick env h.draws now candidates).1) ≤ _ :=
      pick_least hexplores hne hb
    rw [rank_known hknows hclock _ (hrange _ hmem), rank_known hknows hclock _ (hrange b hb),
      Prod.Lex.toLex_le_toLex] at hleast
    generalize (h.selection.pick env h.draws now candidates).1 = a at hleast ⊢
    dsimp only at hleast
    constructor
    · intro hfew
      rw [decide_eq_false (not_le.mpr hfew)] at hleast
      rcases hleast with hlt | ⟨heq, -⟩
      · exact absurd hlt (not_lt.mpr (Bool.false_le _))
      · exact not_le.mp (of_decide_eq_false heq)
    · intro hgroup
      have heq : decide (kMaxFailures.toNat ≤ failures h.log now a) =
          decide (kMaxFailures.toNat ≤ failures h.log now b) := by
        rw [decide_eq_decide, ← not_lt, ← not_lt, hgroup]
      rcases hleast with hlt | ⟨-, hsrtt⟩
      · rw [heq] at hlt
        exact absurd hlt (lt_irrefl _)
      · exact hsrtt
  · obtain ⟨h', hrun', halike⟩ := alike_run hrun (alike_init exploreOneIn)
    exact ⟨h', hrun', halike.results.symm⟩

/-- Two servers, with a sweep after the last call: the second one is asked although it is slower. -/
theorem choice_follows_history_swept : ∃ h : History,
    Run (Step (fun _ => 0) (some kPruneEvery)) { selection := { exploreOneIn := 0 } }
      (⟨1, .report 1 (.answer (some 10))⟩ :: ⟨2, .report 2 (.answer (some 20))⟩ ::
        List.replicate 5 ⟨3, .report 1 .unusable⟩) h ∧
      (h.selection.pick (fun _ => 0) h.draws 3 [1, 2]).1 = 2 ∧ failures h.log 3 1 = 5 ∧
      ∃ h', Run (Step (fun _ => 0) (some 7)) { selection := { exploreOneIn := 0 } }
        (⟨1, .report 1 (.answer (some 10))⟩ :: ⟨2, .report 2 (.answer (some 20))⟩ ::
          List.replicate 5 ⟨3, .report 1 .unusable⟩) h' ∧ h'.results = h.results := by
  have hcomputed : (Run.applyAll (apply (fun _ => 0) (some kPruneEvery)) { selection := { exploreOneIn := 0 } }
      (⟨1, .report 1 (.answer (some 10))⟩ :: ⟨2, .report 2 (.answer (some 20))⟩ ::
        List.replicate 5 ⟨3, .report 1 .unusable⟩)).any (fun h =>
      (h.selection.pick (fun _ => 0) h.draws 3 [1, 2]).1 == 2 && failures h.log 3 1 == 5) = true := by
    decide +kernel
  obtain ⟨h, hrun, hh⟩ := Run.exists_of_applyAll (fun _ _ _ h => (h : Step _ _ _ _ _)) hcomputed
  rw [Bool.and_eq_true, beq_iff_eq, beq_iff_eq] at hh
  exact ⟨h, hrun, hh.1, hh.2, (choice_follows_history hrun).2 (some 7)⟩

/-! ### A server that is down for long -/

theorem recent_replicate (now : ℕ) (x : Touch) (hx : x.time = now) : ∀ n,
    recent now (List.replicate n x) = List.replicate n x
  | 0 => rfl
  | n + 1 => by
    subst hx
    rw [List.replicate_succ, recent, if_neg (by simp), recent_replicate x.time x rfl n]

theorem failuresIn_replicate (server : Address) (now : ℕ) : ∀ n,
    failuresIn (List.replicate n ⟨server, now, .failure⟩) = n
  | 0 => rfl
  | n + 1 => by
    rw [List.replicate_succ, failuresIn, failuresIn_replicate server now n]

/-- After three failures the estimate has reached its limit. -/
theorem infoOf_replicate (server : Address) (now : ℕ) : ∀ n,
    (infoOf (List.replicate (n + 3) ⟨server, now, .failure⟩)).measured = true ∧
      (infoOf (List.replicate (n + 3) ⟨server, now, .failure⟩)).srtt = kMaxSrtt
  | 0 => by simp [infoOf, Report.update, kUnmeasured, kTimeoutPenalty, kMaxSrtt, List.replicate]
  | n + 1 => by
    obtain ⟨hmeasured, hsrtt⟩ := infoOf_replicate server now n
    have hinfo : infoOf (List.replicate (n + 1 + 3) ⟨server, now, .failure⟩) =
        { Report.failure.update (infoOf (List.replicate (n + 3) ⟨server, now, .failure⟩)) with
          updated := now } := rfl
    rw [hinfo]
    simp [Report.update, hmeasured, hsrtt]

/-- A report at time 1. -/
def reported (every : Option ℕ) (h : History) (server : Address) (r : Report) : History :=
  { h with
    selection := record every h.selection 1 server r
    clock := 1
    log := ⟨server, 1, r⟩ :: h.log }

theorem step_reported (env : Random) (every : Option ℕ) (server : Address) (r : Report)
    (hclock : h.clock ≤ 1) : Step env every h ⟨1, .report server r⟩ (reported every h server r) := by
  unfold Step apply
  rw [if_pos ⟨hclock, Nat.one_pos⟩]
  rfl

theorem run_replicate (env : Random) (every : Option ℕ) (server : Address) (r : Report) :
    ∀ (n : ℕ) (h : History), h.clock ≤ 1 →
      ∃ h', Run (Step env every) h (List.replicate n ⟨1, .report server r⟩) h' ∧ h'.clock ≤ 1 ∧
        h'.selection.exploreOneIn = h.selection.exploreOneIn ∧
        h'.log = List.replicate n ⟨server, 1, r⟩ ++ h.log
  | 0, h, hclock => ⟨h, .nil h, hclock, rfl, rfl⟩
  | n + 1, h, hclock => by
    obtain ⟨h', hrun, hclock', hexplore, hlog⟩ :=
      run_replicate env every server r n (reported every h server r) le_rfl
    refine ⟨h', .cons (step_reported env every server r hclock) hrun, hclock', ?_, ?_⟩
    · exact hexplore.trans (exploreOneIn_record _ _ _ _ _)
    · rw [hlog, List.replicate_succ', List.append_assoc]
      rfl

/-- A server that has failed 2 ^ 32 times in a row is asked although there is one that has not failed. -/
theorem failures_run_over : ∃ calls h,
    Run (Step (fun _ => 0) (some kPruneEvery)) { selection := { exploreOneIn := 0 } } calls h ∧
      h.clock ≤ 1 ∧ explores h.selection (fun _ => 0) h.draws [1, 2] = false ∧
      (h.selection.pick (fun _ => 0) h.draws 1 [1, 2]).1 = 1 ∧
      kMaxFailures.toNat ≤ failures h.log 1 1 ∧ failures h.log 1 2 = 0 := by
  obtain ⟨n, hn⟩ : ∃ n, n + 3 = 2 ^ 32 := ⟨4294967293, rfl⟩
  have hslow := step_reported (fun _ => 0) (some kPruneEvery) 2 (.answer (some 6000000))
    (h := { selection := { exploreOneIn := 0 } }) (Nat.zero_le 1)
  obtain ⟨h, hrest, hclock, hexplore, hlog⟩ := run_replicate (fun _ => 0) (some kPruneEvery) 1 .failure
    (n + 3) (reported (some kPruneEvery) { selection := { exploreOneIn := 0 } } 2 (.answer (some 6000000)))
    le_rfl
  have hrun := Run.cons hslow hrest
  have hknows := knows_run hrun
  replace hexplore : h.selection.exploreOneIn = 0 := hexplore.trans (exploreOneIn_record _ _ _ _ _)
  replace hlog : h.log = List.replicate (n + 3) ⟨1, 1, .failure⟩ ++ [⟨2, 1, .answer (some 6000000)⟩] := hlog
  have hcounted : counted h.log 1 1 = List.replicate (n + 3) ⟨1, 1, .failure⟩ := by
    unfold counted
    rw [hlog, List.filter_append, List.filter_replicate_of_pos (by simp), List.filter_cons_of_neg (by decide),
      List.filter_nil, List.append_nil, recent_replicate 1 _ rfl]
  have hcounted₂ : counted h.log 1 2 = [⟨2, 1, .answer (some 6000000)⟩] := by
    unfold counted
    rw [hlog, List.filter_append, List.filter_replicate_of_neg (by decide)]
    exact recent_replicate 1 _ rfl 1
  have hexplores : explores h.selection (fun _ => 0) h.draws [1, 2] = false := by
    simp [explores, hexplore]
  -- the counter has run over, and the estimate is at its limit
  have hrank : h.selection.rank 1 1 = (false, kMaxSrtt) := by
    obtain ⟨hmeasured, hsrtt⟩ := infoOf_replicate 1 1 n
    have hfailures : (infoOf (List.replicate (n + 3) ⟨1, 1, .failure⟩)).failures.toNat = 0 := by
      rw [failures_infoOf, failuresIn_replicate, hn, Nat.mod_self]
    rw [rank_eq, hknows.fresh 1 hclock, known, hcounted, if_neg (by simp)]
    simp only [hmeasured, hsrtt, UInt32.le_iff_toNat_le, hfailures]
    rfl
  have hrank₂ : h.selection.rank 1 2 = (false, 6000000) := by
    rw [rank_eq, hknows.fresh 1 hclock, known, hcounted₂]
    rfl
  refine ⟨_, h, hrun, hclock, hexplores, ?_, ?_, ?_⟩
  · have hmem := pick_mem h.selection (fun _ => 0) h.draws 1 (List.cons_ne_nil 1 [2])
    have hleast : toLex (h.selection.rank 1 (h.selection.pick (fun _ => 0) h.draws 1 [1, 2]).1) ≤ _ :=
      pick_least hexplores (List.cons_ne_nil 1 [2]) List.mem_cons_self
    rcases List.mem_cons.mp hmem with hone | htwo
    · exact hone
    · rw [List.mem_singleton.mp htwo, hrank, hrank₂] at hleast
      exact absurd hleast (by decide)
  · rw [failures, hcounted, failuresIn_replicate, hn]
    decide
  · rw [failures, hcounted₂]
    rfl

end DNSentinel.Resolver.Standing
