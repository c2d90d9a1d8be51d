import DNSentinel.Policy.RateLimits
import DNSentinel.Wire.ByteIo
import DNSentinel.Wire.Presentation
import DNSentinel.Lib.Runs
import DNSentinel.Lib.Lanes
import DNSentinel.Lib.Windows

/-! # Identical responses are capped

Histories of response rate limiting: calls of `check` at times that never go backwards. A response is
counted on the entry of its fingerprint, or on the one shared once the table is full (`Lane`), in the
window that the entry is in then. The verdicts of a window are a function of the position alone
(`verdictOf`), and an entry is forgotten only when its window is over, so that the windows of a lane
begin at least one window apart. -/

namespace DNSentinel.Policy.Responses

open DNSentinel.Types Lib.Runs Lib.Lanes Lib.Windows Addresses RateLimits Wire.WellFormed
open Wire.ByteIo Wire.Presentation

/-! ### Histories -/

/-- The table of a limiter. -/
def table (l : ResponseRateLimiter) : Laned Fingerprint RrlEntry := ⟨l.entries, l.overflow, l.lastSweep⟩

def withTable (l : ResponseRateLimiter) (t : Laned Fingerprint RrlEntry) : ResponseRateLimiter :=
  { l with entries := t.entries, overflow := t.overflow, lastSweep := t.lastSweep }

def rules (l : ResponseRateLimiter) (now : ℕ) : Rules RrlEntry RrlVerdict where
  room := l.config.maxEntries
  period := kSecond
  now := now
  idle e := l.expired e now
  fresh := ⟨now, 0, 0⟩
  use e := l.count e now

/-- What a response is counted under, if it is counted at all. -/
def countedUnder (l : ResponseRateLimiter) (client : SockAddr) (response : Message) : Option Fingerprint :=
  if !l.enabled then none
  else
    match ipAddress client with
    | none => none
    | some ip =>
      if l.config.exempt.any fun s => s.contains client then none else some (l.fingerprint ip response)

/-- The entry that a response is counted on. -/
def lane (l : ResponseRateLimiter) (client : SockAddr) (response : Message) (now : ℕ) :
    Option (Lane Fingerprint) :=
  (countedUnder l client response).map ((table l).lane (rules l now))

def entryOf (l : ResponseRateLimiter) : Lane Fingerprint → Option RrlEntry := (table l).entry

/-- A response that was counted, at `time` in the window that began at `start`. -/
structure Item where
  lane : Lane Fingerprint
  start : ℕ
  time : ℕ
  verdict : RrlVerdict

structure History where
  limiter : ResponseRateLimiter
  clock : ℕ := 0
  log : List Item := []

structure Call where
  client : SockAddr
  response : Message
  now : ℕ

/-- What is counted: the window is the one that the entry is in now. -/
def record (log : List Item) (lane : Option (Lane Fingerprint)) (l : ResponseRateLimiter) (now : ℕ)
    (verdict : RrlVerdict) : List Item :=
  match lane with
  | some lane => log ++ [⟨lane, ((entryOf l lane).map RrlEntry.windowStart).getD now, now, verdict⟩]
  | none => log

/-- A call, if its time has not passed. -/
def apply (h : History) (c : Call) : Option History :=
  if h.clock ≤ c.now then
    let checked := h.limiter.check c.client c.response c.now
    some
      { limiter := checked.2
        clock := c.now
        log := record h.log (lane h.limiter c.client c.response c.now) checked.2 c.now checked.1 }
  else none

/-- **One call of a history.** -/
def Step (h : History) (c : Call) (h' : History) : Prop := apply h c = some h'

/-- The responses counted on a lane in the window that began at `w`. -/
def counted (log : List Item) (lane : Lane Fingerprint) (w : ℕ) : List Item :=
  log.filter fun x => x.lane = lane ∧ x.start = w

/-! ### What a call does -/

variable {l l' : ResponseRateLimiter} {client : SockAddr} {now now' : ℕ}
  {ip : IpAddress} {key : Fingerprint} {e : RrlEntry} {config : RrlConfig} {calls : List Call}
  {s s' : History} {c : Call} {verdict : RrlVerdict} {log : List Item}

/-- A full table is swept, but not twice in a second. -/
def sweep (l : ResponseRateLimiter) (now : ℕ) : ResponseRateLimiter :=
  if decide (l.config.maxEntries ≤ l.entries.length) && decide (l.lastSweep + kSecond ≤ now) then
    l.forgetExpired now
  else l

theorem config_sweep (l : ResponseRateLimiter) (now : ℕ) : (sweep l now).config = l.config := by
  unfold sweep
  split_ifs <;> rfl

theorem sweep_table (l : ResponseRateLimiter) (now : ℕ) :
    (table l).sweep (rules l now) = table (sweep l now) := by
  rw [sweep, apply_ite table]
  rfl

theorem count_congr (h : l'.config = l.config) : l'.count = l.count := by
  funext e now
  unfold ResponseRateLimiter.count ResponseRateLimiter.expired ResponseRateLimiter.window
  rw [h]

/-- **What `check` does**: it sends the response, or counts it on a lane. -/
theorem check_eq (l : ResponseRateLimiter) (client : SockAddr) (response : Message) (now : ℕ) :
    l.check client response now = match countedUnder l client response with
      | none => (.send, l)
      | some key => ((table l).charge (rules l now) key).map id (withTable l) := by
  have hconfig := config_sweep l now
  have hsweep := sweep_table l now
  have hcongr := count_congr hconfig
  unfold rules at hsweep ⊢
  unfold ResponseRateLimiter.check countedUnder
  -- `count` is left open: the kernel must not unfold the numbers in it
  obtain ⟨count, hcount⟩ : ∃ count, ResponseRateLimiter.count = count := ⟨_, rfl⟩
  rw [hcount] at hcongr hsweep ⊢
  by_cases henabled : (!l.enabled) = true
  · rw [if_pos henabled, if_pos henabled]
  rw [if_neg henabled, if_neg henabled]
  cases ipAddress client with
  | none => rfl
  | some ip =>
    dsimp only
    by_cases hexempt : (l.config.exempt.any fun s => s.contains client) = true
    · rw [if_pos hexempt, if_pos hexempt]
    rw [if_neg hexempt, if_neg hexempt]
    generalize l.fingerprint ip response = key
    dsimp only
    cases he : l.entries.lookup key with
    | some e =>
      have htable : (table l).entries.lookup key = some e := he
      rw [Laned.charge, htable]
      rfl
    | none =>
      have htable : (table l).entries.lookup key = none := he
      rw [Laned.charge, htable]
      dsimp only
      rw [hsweep, ← sweep, hcongr]
      generalize sweep l now = l₁ at hconfig ⊢
      obtain ⟨config, entries, overflow, lastSweep⟩ := l₁
      obtain rfl : config = l.config := hconfig
      rw [apply_ite (Prod.map id (withTable l))]
      rfl

/-! ### The verdicts of a window -/

/-- Responses that a window lets through. -/
def cap (l : ResponseRateLimiter) : ℕ := l.config.responsesPerSecond.toNat * l.window

/-- The length of a window, in nanoseconds. -/
def windowLength (l : ResponseRateLimiter) : ℕ := l.window * kSecond

/-- The verdict on the `k`th response of a window, from one on. -/
def verdictOf (cap slip k : ℕ) : RrlVerdict :=
  if k ≤ cap then .send else if 0 < slip ∧ (k - cap) % slip = 0 then .slip else .drop

theorem windowLength_pos (l : ResponseRateLimiter) : 0 < windowLength l := by
  have hwindow : 1 ≤ l.window := by
    unfold ResponseRateLimiter.window
    rw [UInt32.max_def]
    split_ifs with hle
    · decide
    · rw [UInt32.le_iff_toNat_le, UInt32.toNat_one] at hle
      omega
  unfold windowLength kSecond
  omega

/-- An entry that has its window begun anew if that is over. -/
def renewed (l : ResponseRateLimiter) (e : RrlEntry) (now : ℕ) : RrlEntry :=
  if l.expired e now then ⟨now, 0, 0⟩ else e

/-- `count`, once the entry is in the window. -/
def tally (cap : ℕ) (slip : UInt32) (e : RrlEntry) : RrlVerdict × RrlEntry :=
  if (e.sent + 1).toNat ≤ cap then (.send, { e with sent := e.sent + 1 })
  else
    (if 0 < slip ∧ (e.excess + 1) % slip = 0 then .slip else .drop,
      { e with sent := e.sent + 1, excess := e.excess + 1 })

theorem count_eq (l : ResponseRateLimiter) (e : RrlEntry) (now : ℕ) :
    l.count e now = tally (cap l) l.config.slip (renewed l e now) := by
  unfold ResponseRateLimiter.count
  rw [← renewed, ← cap]
  generalize renewed l e now = e'
  generalize cap l = cap'
  generalize l.config.slip = slip
  obtain ⟨start, sent, excess⟩ := e'
  unfold tally
  dsimp only

theorem tally_spec {n limit : ℕ} {slip : UInt32} {e' : RrlEntry} (hsent : e.sent.toNat = n)
    (hexcess : e.excess.toNat = n - limit) (hrange : n + 1 < 2 ^ 32)
    (htally : tally limit slip e = (verdict, e')) :
    verdict = verdictOf limit slip.toNat (n + 1) ∧ e'.windowStart = e.windowStart ∧
      e'.sent.toNat = n + 1 ∧ e'.excess.toNat = n + 1 - limit := by
  have hnext : (e.sent + 1).toNat = n + 1 := by
    rw [UInt32.toNat_add, hsent]
    exact Nat.mod_eq_of_lt hrange
  unfold tally at htally
  rw [hnext] at htally
  unfold verdictOf
  by_cases hcap : n + 1 ≤ limit
  · rw [if_pos hcap] at htally ⊢
    obtain ⟨rfl, rfl⟩ := Prod.mk.inj htally
    refine ⟨rfl, rfl, hnext, ?_⟩
    dsimp only
    omega
  · have hover : (e.excess + 1).toNat = n + 1 - limit := by
      rw [UInt32.toNat_add, hexcess, UInt32.toNat_one, Nat.mod_eq_of_lt (by omega)]
      omega
    have hslip : (0 < slip ∧ (e.excess + 1) % slip = 0) ↔
        0 < slip.toNat ∧ (n + 1 - limit) % slip.toNat = 0 := by
      rw [UInt32.lt_iff_toNat_lt, ← UInt32.toNat_inj, UInt32.toNat_mod, hover]
      rfl
    rw [if_neg hcap] at htally ⊢
    obtain ⟨rfl, rfl⟩ := Prod.mk.inj htally
    refine ⟨?_, rfl, hnext, hover⟩
    by_cases hslipped : 0 < slip.toNat ∧ (n + 1 - limit) % slip.toNat = 0
    · rw [if_pos hslipped, if_pos (hslip.mpr hslipped)]
    · rw [if_neg hslipped, if_neg fun h => hslipped (hslip.mp h)]

/-! ### The invariant -/

/-- The responses counted on a lane. -/
def onLane (log : List Item) (lane : Lane Fingerprint) : List Item := log.filter fun x => x.lane = lane

/-- What an entry of a lane says of the log: how many responses its window has, and that the windows
before it are over. -/
structure EntryOk (W limit : ℕ) (log : List Item) (lane : Lane Fingerprint) (now : ℕ) (e : RrlEntry) : Prop where
  begun : e.windowStart ≤ now
  sent : e.sent.toNat = (counted log lane e.windowStart).length
  excess : e.excess.toNat = (counted log lane e.windowStart).length - limit
  earlier : ∀ x ∈ onLane log lane, x.start = e.windowStart ∨ x.start + W ≤ e.windowStart

structure LaneOk (W limit slip : ℕ) (log : List Item) (now : ℕ) (lane : Lane Fingerprint) (e : Option RrlEntry) :
    Prop where
  windowed : Windowed W Item.start Item.time (onLane log lane)
  verdicts : ∀ w, (counted log lane w).map Item.verdict =
    (List.range (counted log lane w).length).map fun i => verdictOf limit slip (i + 1)
  entry : ∀ e' ∈ e, EntryOk W limit log lane now e'
  gone : e = none → ∀ x ∈ onLane log lane, x.start + W ≤ now

structure Sound (config : RrlConfig) (l : ResponseRateLimiter) (now : ℕ) (log : List Item) : Prop where
  same : l.config = config
  sized : (table l).Sized l.config.maxEntries
  lanes : ∀ lane, LaneOk (windowLength l) (cap l) l.config.slip.toNat log now lane (entryOf l lane)

variable {lane' : Lane Fingerprint} {W limit slip : ℕ} {o : Option RrlEntry}

theorem counted_eq (log : List Item) (lane : Lane Fingerprint) (w : ℕ) :
    counted log lane w = (onLane log lane).filter fun x => x.start = w := by
  unfold counted onLane
  rw [List.filter_filter]
  refine List.filter_congr fun x _ => ?_
  simp [and_comm]

theorem onLane_snoc (log : List Item) (x : Item) (lane : Lane Fingerprint) :
    onLane (log ++ [x]) lane = if x.lane = lane then onLane log lane ++ [x] else onLane log lane := by
  unfold onLane
  rw [List.filter_append]
  by_cases hx : x.lane = lane
  · simp [hx]
  · simp [hx]

theorem counted_snoc (log : List Item) (x : Item) (lane : Lane Fingerprint) (w : ℕ) :
    counted (log ++ [x]) lane w =
      if x.lane = lane ∧ x.start = w then counted log lane w ++ [x] else counted log lane w := by
  unfold counted
  rw [List.filter_append]
  by_cases hx : x.lane = lane ∧ x.start = w
  · simp [hx]
  · rw [if_neg hx, List.filter_singleton]
    simp [hx]

/-- Nothing has been counted in a window that begins later than all others. -/
theorem counted_nil {w : ℕ} (h : ∀ x ∈ onLane log lane', x.start ≠ w) : counted log lane' w = [] := by
  rw [counted_eq, List.filter_eq_nil_iff]
  intro x hx
  simpa using h x hx

theorem entryOk_new (hgone : ∀ x ∈ onLane log lane', x.start + W ≤ now) (hW : 0 < W) :
    EntryOk W limit log lane' now ⟨now, 0, 0⟩ := by
  have hnil : counted log lane' now = [] := counted_nil fun x hx heq => by
    have hbefore := hgone x hx
    omega
  refine ⟨le_rfl, ?_, ?_, fun x hx => .inr (hgone x hx)⟩
  · simp [hnil]
  · simp [hnil]

/-- The entry, in the window that `count` counts in. -/
theorem EntryOk.renewed (h : EntryOk (windowLength l) limit log lane' now e) :
    EntryOk (windowLength l) limit log lane' now (renewed l e now) ∧
      now < (Responses.renewed l e now).windowStart + windowLength l := by
  unfold Responses.renewed
  by_cases hexpired : l.expired e now = true
  · rw [if_pos hexpired]
    have hover : e.windowStart + windowLength l ≤ now := by
      simpa [ResponseRateLimiter.expired, windowLength] using hexpired
    have hpos := windowLength_pos l
    refine ⟨entryOk_new (fun x hx => ?_) hpos, by dsimp only; omega⟩
    rcases h.earlier x hx with heq | hbefore
    · omega
    · omega
  · rw [if_neg hexpired]
    refine ⟨h, ?_⟩
    simpa [ResponseRateLimiter.expired, windowLength] using hexpired

theorem windowStart_tally {limit : ℕ} {slip : UInt32} {e' : RrlEntry}
    (htally : tally limit slip e = (verdict, e')) : e'.windowStart = e.windowStart := by
  unfold tally at htally
  split_ifs at htally
  · obtain ⟨-, rfl⟩ := Prod.mk.inj htally
    rfl
  · obtain ⟨-, rfl⟩ := Prod.mk.inj htally
    rfl
  · obtain ⟨-, rfl⟩ := Prod.mk.inj htally
    rfl

/-- A response is counted on an entry of the lane, in its window. -/
theorem LaneOk.tally {slip : UInt32} {e' : RrlEntry} (h : LaneOk W limit slip.toNat log now lane' o)
    (he : EntryOk W limit log lane' now e) (hinside : now < e.windowStart + W)
    (htally : tally limit slip e = (verdict, e'))
    (hrange : ∀ w, (counted (log ++ [⟨lane', e'.windowStart, now, verdict⟩]) lane' w).length < 2 ^ 32) :
    LaneOk W limit slip.toNat (log ++ [⟨lane', e'.windowStart, now, verdict⟩]) now lane' (some e') := by
  have hsame := windowStart_tally htally
  have hlength : (counted (log ++ [⟨lane', e'.windowStart, now, verdict⟩]) lane' e'.windowStart).length =
      (counted log lane' e.windowStart).length + 1 := by
    rw [counted_snoc, if_pos ⟨rfl, rfl⟩, List.length_append, List.length_singleton, hsame]
  have hlast := hrange e'.windowStart
  rw [hlength] at hlast
  obtain ⟨hverdict, -, hsent, hexcess⟩ := tally_spec he.sent he.excess hlast htally
  have hstarts : ∀ x ∈ onLane log lane', x.start = e'.windowStart ∨ x.start + W ≤ e'.windowStart := by
    rw [hsame]
    exact he.earlier
  have hbegun : e'.windowStart ≤ now := hsame.le.trans he.begun
  refine ⟨?_, fun w => ?_, fun e'' he'' => ?_, fun hnone => by simp at hnone⟩
  · rw [onLane_snoc, if_pos rfl]
    exact h.windowed.snoc ⟨hbegun, hsame ▸ hinside⟩ hstarts
  · rw [counted_snoc]
    by_cases hw : e'.windowStart = w
    · subst hw
      rw [if_pos ⟨rfl, rfl⟩, List.map_append, h.verdicts, List.length_append, List.length_singleton,
        List.range_succ, List.map_append, List.map_singleton, List.map_singleton, hsame]
      rw [hverdict]
    · rw [if_neg fun hand => hw hand.2]
      exact h.verdicts w
  · obtain rfl := Option.some.inj he''
    refine ⟨hbegun, hsent.trans hlength.symm, by rw [hlength, hexcess], fun x hx => ?_⟩
    rw [onLane_snoc, if_pos rfl] at hx
    rcases List.mem_append.mp hx with hx | hx
    · exact hstarts x hx
    · rw [List.mem_singleton.mp hx]
      exact .inl rfl

/-- A response is counted on another lane. -/
theorem LaneOk.frame (h : LaneOk W limit slip log now lane' o) {x : Item} (hx : x.lane ≠ lane') :
    LaneOk W limit slip (log ++ [x]) now lane' o := by
  have honLane : onLane (log ++ [x]) lane' = onLane log lane' := by rw [onLane_snoc, if_neg hx]
  have hcounted : ∀ w, counted (log ++ [x]) lane' w = counted log lane' w := by
    intro w
    rw [counted_snoc, if_neg fun hand => hx hand.1]
  refine ⟨by rw [honLane]; exact h.windowed, fun w => by rw [hcounted]; exact h.verdicts w,
    fun e he => ?_, fun hnone => by rw [honLane]; exact h.gone hnone⟩
  obtain ⟨hbegun, hsent, hexcess, hearlier⟩ := h.entry e he
  exact ⟨hbegun, by rw [hcounted]; exact hsent, by rw [hcounted]; exact hexcess,
    by rw [honLane]; exact hearlier⟩

theorem LaneOk.wait (h : LaneOk W limit slip log now lane' o) (hnow : now ≤ now') :
    LaneOk W limit slip log now' lane' o where
  windowed := h.windowed
  verdicts := h.verdicts
  entry e he := ⟨(h.entry e he).begun.trans hnow, (h.entry e he).sent, (h.entry e he).excess,
    (h.entry e he).earlier⟩
  gone hnone x hx := (h.gone hnone x hx).trans hnow

/-- An entry is forgotten whose window is over. -/
theorem LaneOk.forget (h : LaneOk W limit slip log now lane' (some e)) (hover : e.windowStart + W ≤ now) :
    LaneOk W limit slip log now lane' none where
  windowed := h.windowed
  verdicts := h.verdicts
  entry e he := by simp at he
  gone _ x hx := by
    rcases (h.entry e rfl).earlier x hx with heq | hbefore
    · omega
    · omega

theorem sound_init (config : RrlConfig) : Sound config { config } 0 [] where
  same := rfl
  sized := ⟨List.nodup_nil, Nat.zero_le _⟩
  lanes lane := by
    have hnone : entryOf { config } lane = none := by cases lane <;> rfl
    rw [hnone]
    exact ⟨.empty, fun w => rfl, fun e he => by simp at he, fun _ x hx => by simp [onLane] at hx⟩

theorem Sound.wait (h : Sound config l now log) (hnow : now ≤ now') : Sound config l now' log :=
  ⟨h.same, h.sized, fun lane => (h.lanes lane).wait hnow⟩

theorem expired_iff : l.expired e now = true ↔ e.windowStart + windowLength l ≤ now := by
  unfold ResponseRateLimiter.expired windowLength
  exact decide_eq_true_iff

theorem windowLength_congr (h : l'.config = l.config) : windowLength l' = windowLength l := by
  unfold windowLength ResponseRateLimiter.window
  rw [h]

theorem cap_congr (h : l'.config = l.config) : cap l' = cap l := by
  unfold cap ResponseRateLimiter.window
  rw [h]

/-- The entry that a response is counted on, in a new window if there is none. -/
theorem LaneOk.getD (h : LaneOk (windowLength l) limit slip log now lane' o) :
    EntryOk (windowLength l) limit log lane' now (o.getD ⟨now, 0, 0⟩) := by
  cases o with
  | none => exact entryOk_new (h.gone rfl) (windowLength_pos l)
  | some e => exact h.entry e rfl

theorem Sound.charge (h : Sound config l now log) {x : RrlVerdict × Laned Fingerprint RrlEntry}
    (hx : (table l).charge (rules l now) key = x)
    (hrange : ∀ lane w, (counted (record log (some ((table l).lane (rules l now) key)) (withTable l x.2) now
      x.1) lane w).length < 2 ^ 32) :
    Sound config (withTable l x.2) now
      (record log (some ((table l).lane (rules l now) key)) (withTable l x.2) now x.1) := by
  obtain ⟨⟨o, ho, hverdict, hentry⟩, hothers, hsized⟩ := Laned.charge_spec (r := rules l now) h.sized h.lanes
    (fun lane e he hidle => he.forget (expired_iff.mp hidle)) key
  rw [hx] at hverdict hentry hothers hsized
  generalize (table l).lane (rules l now) key = lane' at hrange ho hverdict hentry hothers ⊢
  obtain ⟨hrenewed, hinside⟩ := ho.getD.renewed
  cases hcount : l.count (o.getD ⟨now, 0, 0⟩) now with
  | mk verdict e' =>
    have huse : (rules l now).use (o.getD (rules l now).fresh) = (verdict, e') := hcount
    rw [huse] at hverdict hentry
    rw [count_eq] at hcount
    obtain ⟨verdict', t⟩ := x
    obtain rfl : verdict' = verdict := hverdict
    have hrecord : record log (some lane') (withTable l t) now verdict' =
        log ++ [⟨lane', e'.windowStart, now, verdict'⟩] := by
      have hentryOf : entryOf (withTable l t) lane' = some e' := hentry
      rw [record, hentryOf]
      rfl
    dsimp only at hrange ⊢
    rw [hrecord] at hrange ⊢
    refine ⟨h.same, hsized, fun lane => ?_⟩
    rw [windowLength_congr (rfl : (withTable l t).config = l.config),
      cap_congr (rfl : (withTable l t).config = l.config)]
    show LaneOk (windowLength l) (cap l) l.config.slip.toNat _ now lane (t.entry lane)
    by_cases hlane : lane = lane'
    · subst hlane
      have hentry : t.entry lane = some e' := hentry
      rw [hentry]
      exact ho.tally hrenewed hinside hcount (hrange lane)
    · exact (hothers lane hlane).frame fun heq => hlane heq.symm

/-- The counters do not run over: there are fewer than `2 ^ 32` responses in each window. -/
def InRange (log : List Item) : Prop := ∀ lane w, (counted log lane w).length < 2 ^ 32

theorem inRange_of_append {rest : List Item} (h : InRange (log ++ rest)) : InRange log := by
  intro lane w
  refine lt_of_le_of_lt ?_ (h lane w)
  unfold counted
  rw [List.filter_append, List.length_append]
  exact Nat.le_add_right _ _

theorem sound_step (h : InRange s.log → Sound config s.limiter s.clock s.log) (hs : Step s c s') :
    InRange s'.log → Sound config s'.limiter s'.clock s'.log := by
  intro hrange
  unfold Step apply at hs
  split_ifs at hs with hnow
  obtain rfl := Option.some.inj hs
  dsimp only at hrange ⊢
  rw [check_eq, lane] at hrange ⊢
  cases hkey : countedUnder s.limiter c.client c.response with
  | none =>
    rw [hkey] at hrange
    exact (h hrange).wait hnow
  | some key =>
    rw [hkey] at hrange
    exact ((h (inRange_of_append hrange)).wait hnow).charge rfl hrange

theorem sound_run (h : Run Step { limiter := { config } } calls s) (hrange : InRange s.log) :
    Sound config s.limiter s.clock s.log :=
  h.invariant (P := fun s => InRange s.log → Sound config s.limiter s.clock s.log)
    (fun _ _ _ hs hstep => sound_step hs hstep) (fun _ => sound_init config) hrange

/-! ### Fingerprints -/

def familyByte : Family → UInt8
  | .inet => 2
  | .inet6 => 10

/-- The string that `check` makes of a fingerprint. -/
def keyBytes (f : Fingerprint) : List UInt8 :=
  familyByte f.network.family :: (f.network.bytes ++ List.replicate (16 - f.network.bytes.length) 0) ++
    f.rcode :: putU16 f.qtype ++ f.name

/-- The name that a response is counted under, if it has one. -/
def countedOwner (response : Message) : Option Name :=
  let negative := response.header.rcode == RCode.NXDomain ||
    (response.header.rcode == RCode.NoError && response.answers.isEmpty)
  let zone := if negative then response.authority.find? fun r => r.type == RRType.SOA else none
  (zone.map RR.name).or (response.questions.head?.map Question.qname)

/-- Equal as names are: in any case of letters. -/
def SameName : Option Name → Option Name → Prop
  | some n, some m => (n == m) = true
  | none, none => True
  | _, _ => False

/-- The two responses are identical, as far as the limiter is concerned. -/
structure Identical (l : ResponseRateLimiter) (ip ip' : IpAddress) (r r' : Message) : Prop where
  network : (l.fingerprint ip r).network = (l.fingerprint ip' r').network
  rcode : r.header.rcode = r'.header.rcode
  qtype : (r.questions.head?.map Question.qtype).getD 0 = (r'.questions.head?.map Question.qtype).getD 0
  name : SameName (countedOwner r) (countedOwner r')

theorem countedName_eq (r : Message) :
    countedName r = ((countedOwner r).map Name.toString).getD [] := by
  unfold countedName countedOwner
  dsimp only
  generalize (if (r.header.rcode == RCode.NXDomain ||
    r.header.rcode == RCode.NoError && r.answers.isEmpty) = true then
      r.authority.find? fun r => r.type == RRType.SOA else none) = zone
  cases zone with
  | some r => rfl
  | none =>
    cases r.questions with
    | nil => rfl
    | cons q rest => rfl

theorem toString_ne_nil (n : Name) : n.toString ≠ [] := by
  unfold Name.toString
  split_ifs with hroot
  · simp
  · obtain ⟨l, labels, hcons⟩ := List.exists_cons_of_ne_nil hroot
    simp [hcons]

theorem toString_congr {n m : Name} (h : (n == m) = true) : n.toString = m.toString := by
  unfold Name.toString
  rw [Name.beq_iff.mp h]

theorem countedName_inj {r r' : Message} (hr : ∀ n ∈ countedOwner r, NameWf n)
    (hr' : ∀ n ∈ countedOwner r', NameWf n) :
    countedName r = countedName r' ↔ SameName (countedOwner r) (countedOwner r') := by
  rw [countedName_eq, countedName_eq]
  cases hn : countedOwner r with
  | none =>
    cases hm : countedOwner r' with
    | none => simp [SameName]
    | some m => simp [SameName, (toString_ne_nil m).symm]
  | some n =>
    cases hm : countedOwner r' with
    | none => simp [SameName, toString_ne_nil n]
    | some m => exact ⟨toString_inj (hr n hn) (hr' m hm), toString_congr⟩

/-- An address has 4 bytes or 16, by its family. -/
def AddressWf (ip : IpAddress) : Prop := ip.bytes.length = if ip.family = .inet then 4 else 16

theorem addressWf_ipAddress (h : ipAddress client = some ip) : AddressWf ip := by
  unfold AddressWf
  cases client with
  | inet addr =>
    obtain rfl := Option.some.inj h
    rfl
  | inet6 addr =>
    obtain ⟨bytes, hbytes⟩ := addr
    simp only [ipAddress] at h
    split_ifs at h
    · obtain rfl := Option.some.inj h
      simp [hbytes]
    · obtain rfl := Option.some.inj h
      simp [hbytes]
  | other => simp [ipAddress] at h

theorem AddressWf.network (h : AddressWf ip) (prefixLength : UInt8) :
    AddressWf (ip.network prefixLength) := by
  unfold AddressWf IpAddress.network mask
  rw [List.length_mapIdx]
  exact h

theorem keyBytes_inj {f g : Fingerprint} (hf : AddressWf f.network) (hg : AddressWf g.network) :
    keyBytes f = keyBytes g ↔ f = g := by
  refine ⟨fun h => ?_, fun h => by rw [h]⟩
  obtain ⟨⟨family, bytes⟩, rcode, qtype, name⟩ := f
  obtain ⟨⟨family', bytes'⟩, rcode', qtype', name'⟩ := g
  unfold AddressWf at hf hg
  unfold keyBytes at h
  simp only [List.cons_append, List.append_assoc, List.cons.injEq] at hf hg h
  obtain ⟨hfamily, hrest⟩ := h
  obtain rfl : family = family' := by
    cases family <;> cases family' <;> simp [familyByte] at hfamily ⊢
  have hlength : bytes.length = bytes'.length := hf.trans hg.symm
  rw [hlength] at hrest
  have hpadded : (bytes ++ List.replicate (16 - bytes'.length) (0 : UInt8)).length =
      (bytes' ++ List.replicate (16 - bytes'.length) (0 : UInt8)).length := by
    rw [List.length_append, List.length_append, hlength]
  rw [← List.append_assoc, ← List.append_assoc bytes'] at hrest
  obtain ⟨hbytes, htail⟩ := List.append_inj hrest hpadded
  obtain rfl := (List.append_inj hbytes hlength).1
  obtain ⟨rfl, hlast⟩ := List.cons.inj htail
  obtain ⟨hqtype, rfl⟩ := List.append_inj hlast rfl
  simp only [putU16, List.cons.injEq, and_true] at hqtype
  obtain rfl : qtype = qtype' := by
    rw [← u16_put qtype, ← u16_put qtype', hqtype.1, hqtype.2]
  rfl

/-- Two responses are counted on one entry exactly if they are identical. -/
theorem shares_iff {client' : SockAddr} {ip' : IpAddress} {r r' : Message}
    (hip : ipAddress client = some ip) (hip' : ipAddress client' = some ip')
    (hr : ∀ n ∈ countedOwner r, NameWf n) (hr' : ∀ n ∈ countedOwner r', NameWf n) :
    keyBytes (l.fingerprint ip r) = keyBytes (l.fingerprint ip' r') ↔ Identical l ip ip' r r' := by
  rw [keyBytes_inj ((addressWf_ipAddress hip).network _) ((addressWf_ipAddress hip').network _),
    Fingerprint.mk.injEq]
  constructor
  · rintro ⟨hnetwork, hrcode, hqtype, hname⟩
    exact ⟨hnetwork, hrcode, hqtype, (countedName_inj hr hr').mp hname⟩
  · rintro ⟨hnetwork, hrcode, hqtype, hname⟩
    exact ⟨hnetwork, hrcode, hqtype, (countedName_inj hr hr').mpr hname⟩

/-! ### The cap -/

/-- The responses that a window sends are its first ones. -/
theorem sends_le (h : LaneOk W limit slip log now lane' o) (w : ℕ) :
    (counted log lane' w).countP (fun x => x.verdict == .send) ≤ limit := by
  have hverdicts := h.verdicts w
  have hcount : (counted log lane' w).countP (fun x => x.verdict == .send) =
      ((counted log lane' w).map Item.verdict).countP (fun v => v == .send) := by
    rw [List.countP_map]
    rfl
  have hsend : ∀ i, (verdictOf limit slip (i + 1) == .send) = decide (i < limit) := by
    intro i
    unfold verdictOf
    by_cases hi : i + 1 ≤ limit
    · have hbelow : i < limit := hi
      simp [hi, hbelow]
    · have hnot : ¬ i < limit := hi
      rw [if_neg hi]
      split_ifs <;> simp [hnot]
  rw [hcount, hverdicts, List.countP_map]
  have hbelow : ∀ n, (List.range n).countP (fun i => decide (i < limit)) ≤ limit := by
    intro n
    induction n with
    | zero => simp
    | succ n ih =>
      rw [List.range_succ, List.countP_append, List.countP_singleton]
      by_cases hn : n < limit
      · have hall : (List.range n).countP (fun i => decide (i < limit)) ≤ n := by
          simpa using List.countP_le_length (l := List.range n) (p := fun i => decide (i < limit))
        simp only [hn, decide_true, if_true]
        omega
      · simp only [hn, decide_false, Bool.false_eq_true, if_false]
        omega
  calc (List.range _).countP ((fun v => v == .send) ∘ fun i => verdictOf limit slip (i + 1))
    _ = (List.range _).countP fun i => decide (i < limit) := List.countP_congr fun i _ => by
        rw [Function.comp_apply, hsend]
    _ ≤ limit := hbelow _

/-- In a time shorter than a window, twice as many are sent at most. -/
theorem sends_span_le (h : LaneOk W limit slip log now lane' o) {a b : ℕ} (hab : b < a + W) :
    (onLane log lane').countP (fun x => x.verdict == .send && (decide (a ≤ x.time) &&
      decide (x.time ≤ b))) ≤ 2 * limit := by
  refine h.windowed.span_le _ (fun w => ?_) hab
  have hwindow := sends_le h w
  rw [counted_eq, List.countP_filter] at hwindow
  refine le_of_eq_of_le (List.countP_congr fun x _ => ?_) hwindow
  simp

/-- An entry that a call forgets would be reset on its next use. -/
theorem forgotten_expired (h : Sound config s.limiter s.clock s.log) (hs : Step s c s')
    (he : s.limiter.entries.lookup key = some e) (hgone : s'.limiter.entries.lookup key = none)
    (hnow : c.now ≤ now) : renewed s.limiter e now = ⟨now, 0, 0⟩ := by
  have hexpired : s.limiter.expired e c.now = true := by
    unfold Step apply at hs
    split_ifs at hs with hclock
    obtain rfl := Option.some.inj hs
    dsimp only at hgone
    rw [check_eq] at hgone
    cases hkey : countedUnder s.limiter c.client c.response with
    | none =>
      rw [hkey] at hgone
      exact absurd (he.symm.trans hgone) (by simp)
    | some counted =>
      rw [hkey] at hgone
      exact Laned.idle_of_dropped (r := rules s.limiter c.now) (.own key) h.sized he hgone
  have hover := expired_iff.mp hexpired
  exact if_pos (expired_iff.mpr (hover.trans hnow))

/-- **Identical responses are capped.** In every history in which no counter runs over: the verdicts on
the responses of a lane in a window are given by their position alone, the first `cap` being sent, and
in a time shorter than a window at most `2 * cap` are sent; the table does not grow beyond its size,
and an entry is only forgotten if it would be reset on its next use; and the strings of two responses
are equal exactly if the responses are identical. -/
theorem responses_capped (h : Run Step { limiter := { config } } calls s) (hrange : InRange s.log) :
    (∀ lane w, (counted s.log lane w).map Item.verdict = (List.range (counted s.log lane w).length).map
      fun i => verdictOf (cap { config }) config.slip.toNat (i + 1)) ∧
    (∀ lane w, (counted s.log lane w).countP (fun x => x.verdict == .send) ≤ cap { config }) ∧
    (∀ lane a b, b < a + windowLength { config } → (onLane s.log lane).countP (fun x =>
      x.verdict == .send && (decide (a ≤ x.time) && decide (x.time ≤ b))) ≤ 2 * cap { config }) ∧
    s.limiter.entries.length ≤ config.maxEntries ∧
    (∀ c s', Step s c s' → ∀ key e, s.limiter.entries.lookup key = some e →
      s'.limiter.entries.lookup key = none → ∀ t, c.now ≤ t → renewed s.limiter e t = ⟨t, 0, 0⟩) ∧
    ∀ client client' ip ip' r r', ipAddress client = some ip → ipAddress client' = some ip' →
      (∀ n ∈ countedOwner r, NameWf n) → (∀ n ∈ countedOwner r', NameWf n) →
      (keyBytes (s.limiter.fingerprint ip r) = keyBytes (s.limiter.fingerprint ip' r') ↔
        Identical s.limiter ip ip' r r') := by
  have hsound := sound_run h hrange
  have hcap : cap s.limiter = cap { config } := cap_congr hsound.same
  have hwindow : windowLength s.limiter = windowLength { config } := windowLength_congr hsound.same
  have hlanes := hsound.lanes
  rw [hcap, hwindow, hsound.same] at hlanes
  refine ⟨fun lane w => (hlanes lane).verdicts w, fun lane w => sends_le (hlanes lane) w,
    fun lane a b hab => sends_span_le (hlanes lane) hab, ?_, ?_, ?_⟩
  · have hsized := hsound.sized.length_le
    rwa [hsound.same] at hsized
  · exact fun c s' hstep key e he hgone t ht => forgotten_expired hsound hstep he hgone ht
  · exact fun client client' ip ip' r r' hip hip' hr hr' => shares_iff hip hip' hr hr'

/-- One response a second, and one entry. -/
def oneEntry : RrlConfig := { responsesPerSecond := 1, windowSeconds := 1, slip := 2, maxEntries := 1 }

/-- Three responses to a client, and one to a client of another network, that finds the table full; then
one more when the first window is over. -/
def fiveResponses : List Call :=
  [⟨.inet 1, {}, 0⟩, ⟨.inet 1, {}, 0⟩, ⟨.inet 1, {}, 1⟩, ⟨.inet 0xff000001, {}, 1⟩,
    ⟨.inet 0xff000001, {}, 2 * kSecond⟩]

theorem responses_capped_oneEntry : ∃ s, Run Step { limiter := { config := oneEntry } } fiveResponses s ∧
    s.log.map Item.verdict = [.send, .drop, .slip, .send, .send] ∧
    (counted s.log .shared 1).length = 1 ∧ s.limiter.entries.length ≤ 1 := by
  have hcomputed : (Run.applyAll apply { limiter := { config := oneEntry } } fiveResponses).any
      (fun s => s.log.map Item.verdict == [.send, .drop, .slip, .send, .send] &&
        (counted s.log .shared 1).length == 1) = true := by
    decide +kernel
  obtain ⟨s, hrun, hs⟩ := Run.exists_of_applyAll (fun _ _ _ h => (h : Step _ _ _)) hcomputed
  rw [Bool.and_eq_true, beq_iff_eq, beq_iff_eq] at hs
  have hlength : s.log.length = 5 := by
    rw [← List.length_map (f := Item.verdict), hs.1]
    rfl
  have hrange : InRange s.log := by
    intro lane w
    have hle : (counted s.log lane w).length ≤ s.log.length := List.length_filter_le _ _
    omega
  exact ⟨s, hrun, hs.1, hs.2, (responses_capped hrun hrange).2.2.2.1⟩

end DNSentinel.Policy.Responses
