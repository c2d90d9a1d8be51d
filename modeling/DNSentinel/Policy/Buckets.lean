import DNSentinel.Policy.RateLimits
import DNSentinel.Lib.Runs
import DNSentinel.Lib.Lanes
import DNSentinel.Lib.Metering

/-! # Queries per client are bounded

Histories of the rate limiter: calls of `allow` at times that never go backwards, from any clients. A
query is charged to the bucket of its client, or to the one that clients share once the table is full. A
client without a bucket counts as one whose bucket is full. So the level of a lane is not changed when
`forget_idle` erases a bucket, and the takings of every lane are metered. -/

namespace DNSentinel.Policy.Buckets

open Lib.Runs Lib.Lanes Lib.Metering Addresses RateLimits

/-! ### Histories -/

/-- The table of a limiter. -/
def table (l : RateLimiter) : Laned IpAddress Bucket := ⟨l.buckets, l.overflow, l.lastSweep⟩

def withTable (l : RateLimiter) (t : Laned IpAddress Bucket) : RateLimiter :=
  { l with buckets := t.entries, overflow := t.overflow, lastSweep := t.lastSweep }

def rules (l : RateLimiter) (now : ℕ) : Rules Bucket Bool where
  room := l.config.maxClients
  period := kSecond
  now := now
  idle b := decide ((l.config.burst.toNat : ℚ) ≤ l.refilled b now)
  fresh := ⟨l.config.burst.toNat, now⟩
  use b := l.take b now

/-- The address that a query is charged to, if it is charged at all. -/
def payer (l : RateLimiter) (client : SockAddr) : Option IpAddress :=
  if !l.enabled then none
  else
    match ipAddress client with
    | none => none
    | some ip => if l.config.exempt.any fun s => s.contains client then none else some ip

/-- The bucket that a query is charged to. -/
def lane (l : RateLimiter) (client : SockAddr) (now : ℕ) : Option (Lane IpAddress) :=
  (payer l client).map ((table l).lane (rules l now))

structure History where
  limiter : RateLimiter
  clock : ℕ := 0
  /-- the queries that were charged and let through, the last one first -/
  log : List (Lane IpAddress × ℕ) := []

structure Call where
  client : SockAddr
  now : ℕ

/-- What is let through. -/
def record (log : List (Lane IpAddress × ℕ)) (lane : Option (Lane IpAddress)) (ok : Bool) (now : ℕ) :
    List (Lane IpAddress × ℕ) :=
  match lane with
  | some lane => if ok then (lane, now) :: log else log
  | none => log

/-- A call, if its time has not passed. -/
def apply (h : History) (c : Call) : Option History :=
  if h.clock ≤ c.now then
    some
      { limiter := (h.limiter.allow c.client c.now).2
        clock := c.now
        log := record h.log (lane h.limiter c.client c.now) (h.limiter.allow c.client c.now).1 c.now }
  else none

/-- **One call of a history.** -/
def Step (h : History) (c : Call) (h' : History) : Prop := apply h c = some h'

/-- The times at which queries were let through on a lane. -/
def takings (log : List (Lane IpAddress × ℕ)) (lane : Lane IpAddress) : List ℕ :=
  (log.filter fun e => e.1 = lane).map Prod.snd

/-! ### What a call does -/

variable {l l' : RateLimiter} {client : SockAddr} {now now' : ℕ} {ip : IpAddress} {b : Bucket}
  {config : RateLimitConfig} {calls : List Call} {s s' : History} {c : Call}

/-- A full table is swept, but not twice in a second. -/
def sweep (l : RateLimiter) (now : ℕ) : RateLimiter :=
  if decide (l.config.maxClients ≤ l.buckets.length) && decide (l.lastSweep + kSecond ≤ now) then
    l.forgetIdle now
  else l

theorem config_sweep (l : RateLimiter) (now : ℕ) : (sweep l now).config = l.config := by
  unfold sweep
  split_ifs <;> rfl

theorem sweep_table (l : RateLimiter) (now : ℕ) : (table l).sweep (rules l now) = table (sweep l now) := by
  rw [sweep, apply_ite table]
  rfl

/-- **What `allow` does**: it lets the query through, or charges it to a lane. -/
theorem allow_eq (l : RateLimiter) (client : SockAddr) (now : ℕ) :
    l.allow client now = match payer l client with
      | none => (true, l)
      | some ip => ((table l).charge (rules l now) ip).map id (withTable l) := by
  unfold RateLimiter.allow payer
  by_cases henabled : (!l.enabled) = true
  · rw [if_pos henabled, if_pos henabled]
  rw [if_neg henabled, if_neg henabled]
  cases ipAddress client with
  | none => rfl
  | some ip =>
    dsimp only
    by_cases hexempt : (l.config.exempt.any fun s => s.contains client) = true
    · rw [if_pos hexempt, if_pos hexempt]
    rw [if_neg hexempt, if_neg hexempt]
    show _ = Prod.map id (withTable l) ((table l).charge (rules l now) ip)
    cases hb : l.buckets.lookup ip with
    | some b =>
      have htable : (table l).entries.lookup ip = some b := hb
      rw [Laned.charge, htable]
      rfl
    | none =>
      have htable : (table l).entries.lookup ip = none := hb
      rw [Laned.charge, htable]
      dsimp only
      rw [sweep_table]
      rw [← sweep]
      have hconfig := config_sweep l now
      generalize sweep l now = l₁ at hconfig ⊢
      obtain ⟨config, buckets, overflow, lastSweep⟩ := l₁
      obtain rfl : config = l.config := hconfig
      rw [apply_ite (Prod.map id (withTable l))]
      rfl

/-! ### Levels -/

def burst (l : RateLimiter) : ℚ := l.config.burst.toNat

/-- Tokens per nanosecond. -/
def rate (l : RateLimiter) : ℚ := (l.config.qps.toNat : ℚ) / kSecond

/-- What a bucket holds. A client that has none counts as one whose bucket is full. -/
def level (l : RateLimiter) (b : Option Bucket) (now : ℕ) : ℚ :=
  match b with
  | some b => min (burst l) (l.refilled b now)
  | none => burst l

theorem rate_nonneg (l : RateLimiter) : 0 ≤ rate l := by
  unfold rate
  positivity

theorem refilled_eq (hlast : b.last ≤ now) :
    l.refilled b now = b.tokens + rate l * ((now : ℚ) - b.last) := by
  unfold RateLimiter.refilled rate
  rw [Nat.cast_sub hlast]
  ring

theorem level_le_burst (l : RateLimiter) (b : Option Bucket) (now : ℕ) : level l b now ≤ burst l := by
  cases b with
  | none => exact le_rfl
  | some b => exact min_le_left _ _

theorem level_nonneg {b : Option Bucket} (hb : ∀ b' ∈ b, 0 ≤ b'.tokens ∧ b'.last ≤ now) :
    0 ≤ level l b now := by
  have hburst : 0 ≤ burst l := by
    unfold burst
    positivity
  cases b with
  | none => exact hburst
  | some b =>
    obtain ⟨htokens, hlast⟩ := hb b rfl
    refine le_min hburst ?_
    rw [refilled_eq hlast]
    have hlater : (0 : ℚ) ≤ (now : ℚ) - b.last := sub_nonneg.mpr (by exact_mod_cast hlast)
    have hgrown := mul_nonneg (rate_nonneg l) hlater
    linarith

theorem level_rise {b : Option Bucket} (hb : ∀ b' ∈ b, b'.last ≤ now) (hnow : now ≤ now') :
    level l b now' ≤ level l b now + rate l * ((now' : ℚ) - now) := by
  have hlater : (0 : ℚ) ≤ (now' : ℚ) - now := sub_nonneg.mpr (by exact_mod_cast hnow)
  have hgrown := mul_nonneg (rate_nonneg l) hlater
  cases b with
  | none => exact le_add_of_nonneg_right hgrown
  | some b =>
    have hlast : b.last ≤ now := hb b rfl
    have hrefilled : l.refilled b now' = l.refilled b now + rate l * ((now' : ℚ) - now) := by
      rw [refilled_eq hlast, refilled_eq (hlast.trans hnow)]
      ring
    show min (burst l) (l.refilled b now') ≤ min (burst l) (l.refilled b now) + _
    rw [hrefilled, ← min_add_add_right]
    exact min_le_min_right _ (le_add_of_nonneg_right hgrown)

theorem refilled_now (l : RateLimiter) (tokens : ℚ) (now : ℕ) : l.refilled ⟨tokens, now⟩ now = tokens := by
  rw [refilled_eq le_rfl]
  ring

theorem level_fresh (l : RateLimiter) (now : ℕ) :
    level l (some ⟨l.config.burst.toNat, now⟩) now = burst l := by
  show min (burst l) (l.refilled ⟨l.config.burst.toNat, now⟩ now) = burst l
  rw [refilled_now]
  exact min_self _

theorem level_take (hb : 0 ≤ b.tokens ∧ b.last ≤ now) :
    level l (some (l.take b now).2) now =
        level l (some b) now - (if (l.take b now).1 then 1 else 0) ∧
      ((l.take b now).1 = true → 1 ≤ level l (some b) now) ∧
      0 ≤ (l.take b now).2.tokens ∧ (l.take b now).2.last = now := by
  have hnonneg : 0 ≤ level l (some b) now := level_nonneg fun b' hb' => by
    obtain rfl := Option.some.inj hb'
    exact hb
  have hcap := level_le_burst l (some b) now
  have htake : l.take b now = if level l (some b) now < 1 then (false, ⟨level l (some b) now, now⟩)
      else (true, ⟨level l (some b) now - 1, now⟩) := rfl
  have hnew : ∀ x ≤ burst l, level l (some ⟨x, now⟩) now = x := by
    intro x hx
    show min (burst l) (l.refilled ⟨x, now⟩ now) = x
    rw [refilled_now]
    exact min_eq_right hx
  rw [htake]
  by_cases hempty : level l (some b) now < 1
  · rw [if_pos hempty]
    refine ⟨?_, fun hno => by simp at hno, hnonneg, rfl⟩
    rw [hnew _ hcap]
    simp
  · rw [if_neg hempty]
    refine ⟨?_, fun _ => not_lt.mp hempty, by simpa using hempty, rfl⟩
    rw [hnew _ (by linarith)]
    simp

/-! ### The invariant -/

/-- What a bucket, or the lack of one, says of the takings of its lane. -/
structure BucketOk (l : RateLimiter) (now : ℕ) (takings : List ℕ) (b : Option Bucket) : Prop where
  filled : ∀ b' ∈ b, 0 ≤ b'.tokens ∧ b'.last ≤ now
  metered : Metered (burst l) (rate l) takings now (level l b now)

/-- The table has one bucket per client and not too many, and the takings of every lane are metered. -/
structure Sound (config : RateLimitConfig) (l : RateLimiter) (now : ℕ) (log : List (Lane IpAddress × ℕ)) :
    Prop where
  same : l.config = (RateLimiter.create config).config
  sized : (table l).Sized l.config.maxClients
  lanes : ∀ lane, BucketOk l now (takings log lane) ((table l).entry lane)

variable {log : List (Lane IpAddress × ℕ)} {taken : List ℕ} {o : Option Bucket}

theorem sound_create (config : RateLimitConfig) : Sound config (.create config) 0 [] where
  same := rfl
  sized := ⟨List.nodup_nil, Nat.zero_le _⟩
  lanes lane := by
    have hburst : 0 ≤ burst (.create config) := by
      unfold burst
      positivity
    have hnone : (table (.create config)).entry lane = none := by cases lane <;> rfl
    rw [hnone]
    exact ⟨fun b hb => (by cases hb), .start hburst (rate_nonneg _) 0⟩

theorem BucketOk.wait (h : BucketOk l now taken o) (hnow : now ≤ now') : BucketOk l now' taken o := by
  have hfilled : ∀ b ∈ o, 0 ≤ b.tokens ∧ b.last ≤ now' := fun b hb =>
    ⟨(h.filled b hb).1, (h.filled b hb).2.trans hnow⟩
  exact ⟨hfilled, h.metered.wait (rate_nonneg l) hnow (level_nonneg hfilled) (level_le_burst ..)
    (level_rise (fun b hb => (h.filled b hb).2) hnow)⟩

/-- A full bucket is as good as none. -/
theorem BucketOk.forget (h : BucketOk l now taken (some b)) (hfull : burst l ≤ l.refilled b now) :
    BucketOk l now taken none := by
  have hsame : level l (some b) now = level l none now := min_eq_left hfull
  exact ⟨fun b hb => (by cases hb), hsame ▸ h.metered⟩

theorem BucketOk.take (h : BucketOk l now taken o) (hb : o.getD ⟨l.config.burst.toNat, now⟩ = b) :
    BucketOk l now (if (l.take b now).1 then now :: taken else taken) (some (l.take b now).2) := by
  have hfilled : 0 ≤ b.tokens ∧ b.last ≤ now := by
    subst hb
    cases o with
    | none => exact ⟨Nat.cast_nonneg _, le_rfl⟩
    | some b => exact h.filled b rfl
  have hlevel : level l (some b) now = level l o now := by
    subst hb
    cases o with
    | none => exact level_fresh l now
    | some b => rfl
  obtain ⟨htaken, hone, htokens, hlast⟩ := level_take (l := l) hfilled
  refine ⟨fun b hb => ?_, ?_⟩
  · obtain rfl := Option.some.inj hb
    exact ⟨htokens, hlast.le⟩
  · rw [htaken]
    rw [hlevel] at hone ⊢
    cases hok : (l.take b now).1 with
    | false => simpa using h.metered
    | true => exact h.metered.take (rate_nonneg l) (hone hok)

theorem Sound.wait (h : Sound config l now log) (hnow : now ≤ now') : Sound config l now' log :=
  ⟨h.same, h.sized, fun lane => (h.lanes lane).wait hnow⟩

theorem takings_record (log : List (Lane IpAddress × ℕ)) (lane lane' : Lane IpAddress) (ok : Bool) (now : ℕ) :
    takings (record log (some lane) ok now) lane' =
      if ok = true ∧ lane = lane' then now :: takings log lane' else takings log lane' := by
  unfold record takings
  cases ok with
  | false => simp
  | true =>
    by_cases hlane : lane = lane'
    · simp [hlane]
    · simp [hlane]

theorem BucketOk.withTable (h : BucketOk l now taken o) (t : Laned IpAddress Bucket) :
    BucketOk (withTable l t) now taken o := by
  refine ⟨h.filled, ?_⟩
  cases o with
  | none | some b => exact h.metered

theorem Sound.charge (h : Sound config l now log) (ip : IpAddress) :
    Sound config (withTable l ((table l).charge (rules l now) ip).2) now
      (record log (some ((table l).lane (rules l now) ip)) ((table l).charge (rules l now) ip).1 now) := by
  obtain ⟨⟨o, ho, hok, hcharged⟩, hothers, hsized⟩ := Laned.charge_spec (r := rules l now) h.sized h.lanes
    (fun lane b hb hidle => hb.forget (of_decide_eq_true hidle)) ip
  refine ⟨h.same, hsized, fun lane => BucketOk.withTable ?_ _⟩
  show BucketOk l now _ (((table l).charge (rules l now) ip).2.entry lane)
  rw [takings_record]
  by_cases hlane : (table l).lane (rules l now) ip = lane
  · subst hlane
    simp only [hcharged, hok, and_true]
    exact ho.take rfl
  · rw [if_neg fun hand => hlane hand.2]
    exact hothers lane fun heq => hlane heq.symm

theorem sound_step (h : Sound config s.limiter s.clock s.log) (hs : Step s c s') :
    Sound config s'.limiter s'.clock s'.log := by
  simp only [Step, apply] at hs
  split_ifs at hs with hnow
  obtain rfl := Option.some.inj hs
  have hwait := h.wait hnow
  rw [allow_eq, lane]
  cases payer s.limiter c.client with
  | none => exact hwait
  | some ip => exact hwait.charge ip

theorem sound_run (h : Run Step { limiter := .create config } calls s) :
    Sound config s.limiter s.clock s.log :=
  h.invariant (P := fun s => Sound config s.limiter s.clock s.log)
    (fun _ _ _ hs hstep => sound_step hs hstep) (sound_create config)

/-! ### The bound -/

/-- A bucket that a call erases would be full from then on. -/
theorem erased_full (h : Sound config s.limiter s.clock s.log) (hs : Step s c s')
    (hb : s.limiter.buckets.lookup ip = some b) (hgone : s'.limiter.buckets.lookup ip = none)
    (hnow : c.now ≤ now) : level s.limiter (some b) now = burst s.limiter := by
  simp only [Step, apply] at hs
  split_ifs at hs with hclock
  obtain rfl := Option.some.inj hs
  have hfull : burst s.limiter ≤ s.limiter.refilled b c.now := by
    rw [allow_eq] at hgone
    cases hpayer : payer s.limiter c.client with
    | none =>
      rw [hpayer] at hgone
      exact absurd (hb.symm.trans hgone) (by simp)
    | some payer =>
      rw [hpayer] at hgone
      exact of_decide_eq_true (Laned.idle_of_dropped (r := rules s.limiter c.now) (.own ip) h.sized hb hgone)
  have hlast : b.last ≤ c.now := ((h.lanes (.own ip)).filled b hb).2.trans hclock
  have hlater : (c.now : ℚ) ≤ now := by exact_mod_cast hnow
  refine min_eq_left (hfull.trans ?_)
  rw [refilled_eq hlast, refilled_eq (hlast.trans hnow)]
  have hrate := rate_nonneg s.limiter
  gcongr

/-- **The bound survives sweeping and overflow.** In every history the queries let through on the bucket
of one client, and those let through on the shared bucket, are at most `burst + qps * (b - a)` from `a`
to `b`; the table does not grow beyond its size; and a call erases only buckets that would be full
from then on. -/
theorem queries_bounded (h : Run Step { limiter := .create config } calls s) :
    (∀ lane a b, a ≤ b → (within (takings s.log lane) a b : ℚ) ≤
      (RateLimiter.create config).config.burst.toNat +
        config.qps.toNat * (((b : ℚ) - a) / kSecond)) ∧
    s.limiter.buckets.length ≤ config.maxClients ∧
    ∀ c s', Step s c s' → ∀ ip b, s.limiter.buckets.lookup ip = some b →
      s'.limiter.buckets.lookup ip = none → ∀ t, c.now ≤ t →
        min ((RateLimiter.create config).config.burst.toNat : ℚ) (s.limiter.refilled b t) =
          (RateLimiter.create config).config.burst.toNat := by
  have hsound := sound_run h
  have hburst : burst s.limiter = (RateLimiter.create config).config.burst.toNat := by
    rw [burst, hsound.same]
  refine ⟨fun lane a b hab => ?_, ?_, fun c s' hstep ip b hb hgone t ht => ?_⟩
  · have hwithin := (hsound.lanes lane).metered.within_le a b hab
    have hrate : rate s.limiter * ((b : ℚ) - a) = config.qps.toNat * (((b : ℚ) - a) / kSecond) := by
      rw [rate, hsound.same]
      show (config.qps.toNat : ℚ) / kSecond * ((b : ℚ) - a) = _
      ring
    rwa [hburst, hrate] at hwithin
  · have hsized := hsound.sized.length_le
    rwa [hsound.same] at hsized
  · have hfull := erased_full hsound hstep hb hgone ht
    rwa [level, hburst] at hfull

/-- One query a second, and room for one client. -/
def oneClient : RateLimitConfig := { qps := 1, burst := 1, maxClients := 1 }

/-- A second client finds the table full; a third one comes when the first can be forgotten. -/
def threeClients : List Call :=
  [⟨.inet 1, 0⟩, ⟨.inet 1, 0⟩, ⟨.inet 2, 0⟩, ⟨.inet 3, 2 * kSecond⟩]

theorem queries_bounded_threeClients : ∃ s,
    Run Step { limiter := .create oneClient } threeClients s ∧ takings s.log .shared = [0] ∧
      (within (takings s.log (.own ⟨.inet, [0, 0, 0, 1]⟩)) 0 kSecond : ℚ) ≤ 2 := by
  have hcomputed : (Run.applyAll apply { limiter := .create oneClient } threeClients).any
      (fun s => takings s.log .shared == [0]) = true := by
    decide +kernel
  obtain ⟨s, hrun, hs⟩ := Run.exists_of_applyAll (fun _ _ _ h => (h : Step _ _ _)) hcomputed
  have hbound := (queries_bounded hrun).1 (.own ⟨.inet, [0, 0, 0, 1]⟩) 0 kSecond (Nat.zero_le _)
  have hburst : (RateLimiter.create oneClient).config.burst.toNat = 1 := rfl
  have hqps : oneClient.qps.toNat = 1 := rfl
  rw [hburst, hqps] at hbound
  refine ⟨s, hrun, by simpa using hs, hbound.trans ?_⟩
  norm_num [kSecond]

end DNSentinel.Policy.Buckets
