import DNSentinel.Types
import Mathlib.Data.List.GetD

/-! # Which server to ask

`server_selection.cpp`. Times are in nanoseconds, round trips in microseconds. What the clock and
the random generator return are arguments: the `i`-th draw from `[0, n)` is `env i % n`, and `draws`
counts the draws made. `std::unordered_map` is a partial function. -/

namespace DNSentinel.Resolver.Selection

/-- IPv4, as in `RDataA`. -/
abbrev Address := UInt32

/-- The random generator: the value of each draw. -/
abbrev Random := ℕ → ℕ

def kUnmeasured : ℕ := 400000
def kTimeoutPenalty : ℕ := 2000000
def kMaxSrtt : ℕ := 5000000
def kMaxFailures : UInt32 := 5
def kMinTimeout : ℕ := 100
def kForgetAfter : ℕ := 15 * 60 * 1000000000
def kPruneEvery : ℕ := 1024

structure Info where
  measured : Bool := false
  srtt : ℕ := 0
  rttvar : ℕ := 0
  failures : UInt32 := 0
  updated : ℕ := 0

structure ServerSelection where
  exploreOneIn : UInt32
  servers : Address → Option Info := fun _ => none
  updates : UInt32 := 0

/-- Deprioritised servers last, then by SRTT. -/
abbrev Rank := Bool × ℕ

/-- `<` of `std::pair<bool, microseconds>`. -/
def rankLt (a b : Rank) : Bool := (!a.1 && b.1) || (a.1 == b.1 && decide (a.2 < b.2))

namespace ServerSelection

def fresh (s : ServerSelection) (now : ℕ) (server : Address) : Option Info :=
  match s.servers server with
  | none => none
  | some info => if kForgetAfter < now - info.updated then none else some info

/-- The information to update, made anew when there is none or it is forgotten. -/
def entry (s : ServerSelection) (now : ℕ) (server : Address) : Info :=
  match s.servers server with
  | none => {}
  | some info =>
    if info.updated ≠ 0 ∧ kForgetAfter < now - info.updated then {} else info

/-- Store the updated information; every so often, forget what is old. -/
def touched (s : ServerSelection) (now : ℕ) (server : Address) (info : Info) : ServerSelection :=
  let s := { s with
    servers := Function.update s.servers server (some { info with updated := now })
    updates := s.updates + 1 }
  if s.updates.toNat % kPruneEvery = 0 then
    { s with servers := fun a => (s.servers a).filter fun i => !decide (kForgetAfter < now - i.updated) }
  else s

def rank (s : ServerSelection) (now : ℕ) (server : Address) : Rank :=
  match s.fresh now server with
  | none => (false, kUnmeasured)
  | some info => (decide (kMaxFailures ≤ info.failures), if info.measured then info.srtt else kUnmeasured)

/-- One turn of the loop of `pick`: the best candidates so far and their rank. -/
def better (s : ServerSelection) (now : ℕ) (best : List Address × Rank) (a : Address) :
    List Address × Rank :=
  let r := s.rank now a
  if best.1.isEmpty || rankLt r best.2 then ([a], r)
  else if r == best.2 then (best.1 ++ [a], best.2)
  else best

/-- The candidate to ask next, and the draws made so far. -/
def pick (s : ServerSelection) (env : Random) (draws now : ℕ) (candidates : List Address) :
    Address × ℕ :=
  let n := candidates.length
  let asks := decide (1 < n) && s.exploreOneIn != 0
  let draws' := if asks then draws + 1 else draws
  if asks && env draws % s.exploreOneIn.toNat == 0 then
    (candidates.getD (env draws' % n) 0, draws' + 1)
  else
    let best := (candidates.foldl (s.better now) ([], (false, 0))).1
    if best.length = 1 then (best.headD 0, draws')
    else (best.getD (env draws' % best.length) 0, draws' + 1)

/-- How long to wait for `server`, in milliseconds. -/
def timeout (s : ServerSelection) (now : ℕ) (server : Address) (ceiling : ℕ) : ℕ :=
  match s.fresh now server with
  | none => ceiling
  | some info =>
    if !info.measured then ceiling
    else
      let rto := (info.srtt + 4 * info.rttvar + 999) / 1000
      let low := min kMinTimeout ceiling
      if rto < low then low else if ceiling < rto then ceiling else rto

def recordAnswer (s : ServerSelection) (now : ℕ) (server : Address) (rtt : Option ℕ) :
    ServerSelection :=
  let info := { s.entry now server with failures := 0 }
  let info := match rtt with
    | none => info
    | some sample =>
      if !info.measured then { info with srtt := sample, rttvar := sample / 2, measured := true }
      else
        let error := if sample < info.srtt then info.srtt - sample else sample - info.srtt
        { info with rttvar := (3 * info.rttvar + error) / 4, srtt := (7 * info.srtt + sample) / 8 }
  s.touched now server info

def recordUnusable (s : ServerSelection) (now : ℕ) (server : Address) : ServerSelection :=
  let info := s.entry now server
  s.touched now server { info with failures := info.failures + 1 }

def recordFailure (s : ServerSelection) (now : ℕ) (server : Address) : ServerSelection :=
  let info := s.entry now server
  let info := if !info.measured then { info with srtt := kUnmeasured, measured := true } else info
  s.touched now server
    { info with
      srtt := min (info.srtt + kTimeoutPenalty) kMaxSrtt
      failures := info.failures + 1 }

/-! ### A candidate is picked -/

variable {s : ServerSelection} {now : ℕ}

theorem better_subset {best : List Address × Rank} {a x : Address}
    (h : x ∈ (s.better now best a).1) : x ∈ best.1 ∨ x = a := by
  unfold better at h
  dsimp only at h
  split_ifs at h
  · exact .inr (List.mem_singleton.mp h)
  · simpa using h
  · exact .inl h

theorem better_ne_nil (best : List Address × Rank) (a : Address) :
    (s.better now best a).1 ≠ [] := by
  unfold better
  dsimp only
  split_ifs with h1 h2
  · simp
  · simp
  · intro hnil
    simp [hnil] at h1

/-- The loop of `pick` keeps candidates, and keeps one if there is one. -/
theorem foldl_better (s : ServerSelection) (now : ℕ) : ∀ (candidates : List Address) (best : List Address × Rank),
    (∀ x ∈ (candidates.foldl (s.better now) best).1, x ∈ best.1 ∨ x ∈ candidates) ∧
      (best.1 ≠ [] ∨ candidates ≠ [] → (candidates.foldl (s.better now) best).1 ≠ [])
  | [], best => ⟨fun _ h => .inl h, fun h => by simpa using h⟩
  | a :: rest, best => by
    obtain ⟨hsub, hne⟩ := foldl_better s now rest (s.better now best a)
    refine ⟨fun x hx => ?_, fun _ => hne (.inl (better_ne_nil best a))⟩
    rcases hsub x hx with h | h
    · rcases better_subset h with h | rfl
      · exact .inl h
      · exact .inr List.mem_cons_self
    · exact .inr (List.mem_cons_of_mem _ h)

theorem getD_mod_mem {xs : List Address} (h : xs ≠ []) (i : ℕ) : xs.getD (i % xs.length) 0 ∈ xs := by
  have hlt := Nat.mod_lt i (List.length_pos_of_ne_nil h)
  rw [List.getD_eq_getElem _ _ hlt]
  exact List.getElem_mem hlt

/-- **`pick` returns one of the candidates.** -/
theorem pick_mem (s : ServerSelection) (env : Random) (draws now : ℕ) {candidates : List Address}
    (h : candidates ≠ []) : (s.pick env draws now candidates).1 ∈ candidates := by
  obtain ⟨hsub, hne⟩ := s.foldl_better now candidates ([], (false, 0))
  have hbest := hne (.inr h)
  have hmem : ∀ x ∈ (candidates.foldl (s.better now) ([], (false, 0))).1, x ∈ candidates := by
    intro x hx
    rcases hsub x hx with hx | hx
    · exact absurd hx List.not_mem_nil
    · exact hx
  unfold pick
  dsimp only
  generalize (decide (1 < candidates.length) && s.exploreOneIn != 0) = asks
  split
  · exact getD_mod_mem h _
  split
  · refine hmem _ ?_
    rw [List.headD_eq_head?_getD, List.head?_eq_some_head hbest]
    exact List.head_mem hbest
  · exact hmem _ (getD_mod_mem hbest _)

end ServerSelection

end DNSentinel.Resolver.Selection
