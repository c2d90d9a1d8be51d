import DNSentinel.Net.EventLoop

/-! # Events reach the watch they are for

A descriptor may be removed, closed and used again by the callbacks of a batch while events for it wait
in that batch. Tokens are never used twice, so an event finds the registration that it was collected for
or none. What is registered can be read off the trace (`live`); a batch calls back in the order of its
events, for every one of them whose descriptor was not removed before its turn (`BatchOk`). -/

namespace DNSentinel.Net.Dispatch

open Lib.Pairs Lib.Runs EventLoop

variable {α β : Type} {f f' : Fds β} {s s' : System β α} {e : Event β α} {es : List (Event β α)}
  {trace between older : List (Obs β)} {events ready rest : List Ready} {o : Obs β} {w w' : Watch β}
  {fd token : ℕ} {m : UInt32}

/-! ### The tables -/

/-- The tables point at each other, and the kernel has no token but those. -/
structure FdsOk (f : Fds β) : Prop where
  matching : Matching f.tokens (field f.watches fun w => some w.fd)
  bound : ∀ token w, f.watches token = some w → kWakeToken < token ∧ token < f.nextToken
  positive : kWakeToken < f.nextToken
  kernel : ∀ fd m token, f.interest fd = some (m, token) → f.tokens fd = some token

theorem fdsOk_init : FdsOk ({} : Fds β) := by
  refine ⟨Matching.empty, ?_, ?_, ?_⟩
  · intro token w h
    cases h
  · exact Nat.zero_lt_one
  · intro fd m token h
    cases h

theorem FdsOk.tokens_iff (h : FdsOk f) :
    f.tokens fd = some token ↔ ∃ cb, f.watches token = some ⟨fd, cb⟩ := by
  rw [h.matching fd token]
  unfold field
  constructor
  · intro hfield
    obtain ⟨w, hw, hfd⟩ := Option.bind_eq_some_iff.mp hfield
    obtain rfl := Option.some.inj hfd
    exact ⟨w.cb, hw⟩
  · rintro ⟨cb, hw⟩
    rw [hw]
    rfl

theorem FdsOk.unused (h : FdsOk f) : f.watches f.nextToken = none := by
  cases hw : f.watches f.nextToken with
  | none => rfl
  | some w =>
    have hlt := (h.bound _ w hw).2
    omega

/-- The tables with a descriptor that is new. -/
def watched (f : Fds β) (fd : ℕ) (events : UInt32) (cb : β) : Fds β where
  nextToken := f.nextToken + 1
  interest := Function.update f.interest fd (some (events, f.nextToken))
  watches := Function.update f.watches f.nextToken (some ⟨fd, cb⟩)
  tokens := Function.update f.tokens fd (some f.nextToken)

/-- `add_fd` fails, and a token may be lost, or the descriptor is watched under a new token. -/
theorem addFd_cases (f : Fds β) (fd : ℕ) (events : UInt32) (cb : β) (fails : Bool) :
    (∃ error n, f.addFd fd events cb fails = (some error, { f with nextToken := n }) ∧
      f.nextToken ≤ n) ∨
    f.tokens fd = none ∧ f.addFd fd events cb fails = (none, watched f fd events cb) := by
  unfold Fds.addFd
  by_cases hsome : (f.tokens fd).isSome = true
  · rw [if_pos hsome]
    exact .inl ⟨_, f.nextToken, rfl, le_rfl⟩
  · rw [if_neg hsome]
    have hnone : f.tokens fd = none := by simpa using hsome
    dsimp only
    split_ifs
    · exact .inl ⟨_, f.nextToken + 1, rfl, Nat.le_succ _⟩
    · exact .inr ⟨hnone, rfl⟩

theorem FdsOk.skip (h : FdsOk f) {n : ℕ} (hn : f.nextToken ≤ n) : FdsOk { f with nextToken := n } := by
  refine ⟨h.matching, fun token w hw => ?_, ?_, h.kernel⟩
  · have hbound := h.bound token w hw
    exact ⟨hbound.1, hbound.2.trans_le hn⟩
  · exact h.positive.trans_le hn

theorem FdsOk.add (h : FdsOk f) (hfd : f.tokens fd = none) (events : UInt32) (cb : β) :
    FdsOk (watched f fd events cb) := by
  unfold watched
  refine ⟨?_, fun token w hw => ?_, ?_, fun fd' m token hi => ?_⟩
  · have hfield : field f.watches (fun w => some w.fd) f.nextToken = none := by
      unfold field
      rw [h.unused]
      rfl
    have hadd := h.matching.add hfd hfield
    rwa [field_update, Option.bind_some]
  · rcases update_some hw with ⟨rfl, -⟩ | ⟨-, hold⟩
    · exact ⟨h.positive, Nat.lt_succ_self _⟩
    · have hbound := h.bound token w hold
      exact ⟨hbound.1, hbound.2.trans (Nat.lt_succ_self _)⟩
  · exact h.positive.trans (Nat.lt_succ_self _)
  · dsimp only at hi ⊢
    rcases update_some hi with ⟨rfl, heq⟩ | ⟨hne, hold⟩
    · rw [Function.update_self, (Prod.mk.inj heq).2]
    · rw [Function.update_of_ne hne]
      exact h.kernel fd' m token hold

theorem FdsOk.modify (h : FdsOk f) (fd : ℕ) (events : UInt32) (fails : Bool) :
    FdsOk (f.modifyFd fd events fails).2 ∧ (f.modifyFd fd events fails).2.watches = f.watches ∧
      (f.modifyFd fd events fails).2.nextToken = f.nextToken := by
  unfold Fds.modifyFd
  cases htoken : f.tokens fd with
  | none => exact ⟨h, rfl, rfl⟩
  | some token =>
    dsimp only
    split_ifs
    · exact ⟨h, rfl, rfl⟩
    · refine ⟨⟨h.matching, h.bound, h.positive, fun fd' m token' hi => ?_⟩, rfl, rfl⟩
      rcases update_some hi with ⟨rfl, heq⟩ | ⟨-, hold⟩
      · rw [(Prod.mk.inj heq).2]
        exact htoken
      · exact h.kernel fd' m token' hold

theorem FdsOk.close (h : FdsOk f) (fd : ℕ) : FdsOk (f.closeFd fd) := by
  refine ⟨h.matching, h.bound, h.positive, fun fd' m token hi => ?_⟩
  exact h.kernel fd' m token (update_none hi).2

theorem removeFd_some (hfd : f.tokens fd = some token) :
    f.removeFd fd =
      { f with
        interest := Function.update f.interest fd none
        watches := Function.update f.watches token none
        tokens := Function.update f.tokens fd none } := by
  unfold Fds.removeFd
  rw [hfd]

theorem FdsOk.remove (h : FdsOk f) (hfd : f.tokens fd = some token) : FdsOk (f.removeFd fd) := by
  rw [removeFd_some hfd]
  refine ⟨?_, fun token' w hw => h.bound token' w (update_none hw).2, h.positive, ?_⟩
  · have hremove := h.matching.remove hfd
    rwa [field_update, Option.bind_none]
  · intro fd' m token' hi
    obtain ⟨hne, hold⟩ := update_none hi
    dsimp only
    rw [Function.update_of_ne hne]
    exact h.kernel fd' m token' hold

/-! ### What the trace says -/

/-- The registrations there are. -/
def live : List (Obs β) → ℕ → Option (Watch β)
  | [] => fun _ => none
  | .added token w :: trace => Function.update (live trace) token (some w)
  | .removed token :: trace => Function.update (live trace) token none
  | _ :: trace => live trace

def addedToken : Obs β → Option ℕ
  | .added token _ => some token
  | _ => none

/-- The tokens given out, newest first. -/
def addedTokens (trace : List (Obs β)) : List ℕ := trace.filterMap addedToken

def callOf : Obs β → Option Ready
  | .called token events _ => some (token, events)
  | _ => none

/-- The events that callbacks were called with, in order. -/
def calls (trace : List (Obs β)) : List Ready := (trace.filterMap callOf).reverse

def isCollected : Obs β → Bool
  | .collected _ => true
  | _ => false

/-- Neither a batch nor a callback has to do with it. -/
def isQuiet : Obs β → Bool
  | .collected _ => false
  | .called .. => false
  | .dispatched => false
  | _ => true

/-- A token stands for what it did, or for what was last done with it since. -/
theorem live_append : ∀ between : List (Obs β), live (between ++ older) token = live older token ∨
    (∃ w, live (between ++ older) token = some w ∧ .added token w ∈ between) ∨
    live (between ++ older) token = none ∧ .removed token ∈ between
  | [] => .inl rfl
  | o :: between => by
    have hrest : live (o :: between ++ older) token = live (between ++ older) token →
        live (o :: between ++ older) token = live older token ∨
        (∃ w, live (o :: between ++ older) token = some w ∧ .added token w ∈ o :: between) ∨
        live (o :: between ++ older) token = none ∧ .removed token ∈ o :: between := by
      intro heq
      rw [heq]
      rcases live_append between with hsame | ⟨w, hw, hmem⟩ | ⟨hnone, hmem⟩
      · exact .inl hsame
      · exact .inr (.inl ⟨w, hw, List.mem_cons_of_mem _ hmem⟩)
      · exact .inr (.inr ⟨hnone, List.mem_cons_of_mem _ hmem⟩)
    cases o with
    | added token' w =>
      by_cases heq : token = token'
      · subst heq
        exact .inr (.inl ⟨w, Function.update_self .., List.mem_cons_self⟩)
      · exact hrest (Function.update_of_ne heq ..)
    | removed token' =>
      by_cases heq : token = token'
      · subst heq
        exact .inr (.inr ⟨Function.update_self .., List.mem_cons_self⟩)
      · exact hrest (Function.update_of_ne heq ..)
    | _ => exact hrest rfl

/-- A registration that is gone was removed. -/
theorem removed_of_live (h : live older token = some w) (hgone : live (between ++ older) token = none) :
    .removed token ∈ between := by
  rcases live_append between with hsame | ⟨w', hw', -⟩ | ⟨-, hremoved⟩
  · exact absurd (hgone.symm.trans (hsame.trans h)) (by simp)
  · exact absurd (hgone.symm.trans hw') (by simp)
  · exact hremoved

/-- A registration was there before, or has been made since. -/
theorem added_of_live (h : live (between ++ older) token = some w) :
    live older token = some w ∨ .added token w ∈ between := by
  rcases live_append between with hsame | ⟨w', hw', hadded⟩ | ⟨hnone, -⟩
  · exact .inl (hsame.symm.trans h)
  · obtain rfl := Option.some.inj (hw'.symm.trans h)
    exact .inr hadded
  · exact absurd (hnone.symm.trans h) (by simp)

/-- Tokens are given out in order, so a registration is the same as long as its token is. -/
theorem live_same (hfresh : (addedTokens (between ++ older)).Pairwise (· > ·))
    (hthen : live older token = some w') (h : live (between ++ older) token = some w) : w = w' := by
  rcases added_of_live h with hbefore | hnew
  · exact Option.some.inj (hbefore.symm.trans hthen)
  · have hold : .added token w' ∈ older := by
      have hthen' : live (older ++ []) token = some w' := by rwa [List.append_nil]
      rcases added_of_live hthen' with hnone | hold
      · cases hnone
      · exact hold
    unfold addedTokens at hfresh
    rw [List.filterMap_append, List.pairwise_append] at hfresh
    have hgt := hfresh.2.2 token (List.mem_filterMap.mpr ⟨_, hnew, rfl⟩) token
      (List.mem_filterMap.mpr ⟨_, hold, rfl⟩)
    omega

/-! ### Batches -/

/-- A callback is called for an event that was collected for its registration, which is there still. -/
def CallOk (older : List (Obs β)) (token : ℕ) (m : UInt32) (w : Watch β) : Prop :=
  live older token = some w ∧ ∃ between events rest, older = between ++ .collected events :: rest ∧
    (∀ o ∈ between, isCollected o = false) ∧ (token, m) ∈ events ∧ live rest token = some w

/-- What a batch has done when it is over. -/
structure BatchOk (events : List Ready) (between : List (Obs β)) : Prop where
  once : (events.map Prod.fst).Nodup
  ordered : (calls between).Sublist events
  settled : ∀ token m, (token, m) ∈ events →
    token = kWakeToken ∨ (token, m) ∈ calls between ∨ .removed token ∈ between

/-- Every callback that was called, and every batch that is over. -/
structure Dispatched (trace : List (Obs β)) : Prop where
  called : ∀ token m w older, .called token m w :: older <:+ trace → CallOk older token m w
  finished : ∀ older, .dispatched :: older <:+ trace → ∃ between events rest,
    older = between ++ .collected events :: rest ∧ (∀ o ∈ between, isCollected o = false) ∧
      BatchOk events between

/-- A batch that is under way: the events before `rest` are dealt with. -/
structure Underway (rest : List Ready) (between : List (Obs β)) (events : List Ready)
    (older : List (Obs β)) : Prop where
  quiet : ∀ o ∈ between, isCollected o = false
  once : (events.map Prod.fst).Nodup
  registered : ∀ token m, (token, m) ∈ events → token ≠ kWakeToken → ∃ w, live older token = some w
  split : ∃ done, events = done ++ rest ∧ (calls between).Sublist done ∧ ∀ token m,
    (token, m) ∈ done → token = kWakeToken ∨ (token, m) ∈ calls between ∨ .removed token ∈ between

/-- The batch that a phase is in. -/
def inBatch : Phase → Option (List Ready)
  | .batch events => some events
  | .callback rest => some rest
  | _ => none

/-- The tables are what the trace says, and tokens are given out in order. -/
structure Tabled (s : System β α) : Prop where
  fds : FdsOk s.fds
  shown : s.fds.watches = live s.trace
  fresh : (addedTokens s.trace).Pairwise (· > ·)
  below : ∀ token ∈ addedTokens s.trace, token < s.fds.nextToken

structure Sound (s : System β α) : Prop extends Tabled s where
  dispatched : Dispatched s.trace
  batch : ∀ rest, inBatch s.phase = some rest → ∃ between events older,
    s.trace = between ++ .collected events :: older ∧ Underway rest between events older

theorem Dispatched.cons (h : Dispatched trace)
    (hcalled : ∀ token m w, o = .called token m w → CallOk trace token m w)
    (hfinished : o = .dispatched → ∃ between events rest, trace = between ++ .collected events :: rest ∧
      (∀ o ∈ between, isCollected o = false) ∧ BatchOk events between) : Dispatched (o :: trace) := by
  refine ⟨fun token m w older hs => ?_, fun older hs => ?_⟩
  · rcases List.suffix_cons_iff.mp hs with heq | hs
    · obtain ⟨ho, rfl⟩ := List.cons.inj heq
      exact hcalled token m w ho.symm
    · exact h.called token m w older hs
  · rcases List.suffix_cons_iff.mp hs with heq | hs
    · obtain ⟨ho, rfl⟩ := List.cons.inj heq
      exact hfinished ho.symm
    · exact h.finished older hs

theorem Dispatched.quiet (h : Dispatched trace) (ho : isQuiet o = true) : Dispatched (o :: trace) := by
  refine h.cons ?_ ?_
  · rintro token m w rfl
    cases ho
  · rintro rfl
    cases ho

/-- The batch goes on: it records `new`, and has dealt with `more`. -/
theorem Underway.go (new : List (Obs β)) (more : List Ready)
    (h : Underway (more ++ rest) between events older) (hquiet : ∀ o ∈ new, isCollected o = false)
    (hordered : (calls new).Sublist more)
    (hsettled : ∀ token m, (token, m) ∈ more →
      token = kWakeToken ∨ (token, m) ∈ calls new ∨ .removed token ∈ new ++ between) :
    Underway rest (new ++ between) events older := by
  obtain ⟨done, hsplit, hsub, hdone⟩ := h.split
  have hcalls : calls (new ++ between) = calls between ++ calls new := by
    unfold calls
    rw [List.filterMap_append, List.reverse_append]
  refine ⟨fun x hx => ?_, h.once, h.registered, done ++ more, ?_, ?_, fun token m hmem => ?_⟩
  · exact (List.mem_append.mp hx).elim (hquiet x) (h.quiet x)
  · rw [hsplit, List.append_assoc]
  · rw [hcalls]
    exact hsub.append hordered
  · rw [hcalls, List.mem_append]
    rcases List.mem_append.mp hmem with hmem | hmem
    · rcases hdone token m hmem with hwake | hcalled | hremoved
      · exact .inl hwake
      · exact .inr (.inl (.inl hcalled))
      · exact .inr (.inr (List.mem_append_right _ hremoved))
    · rcases hsettled token m hmem with hwake | hcalled | hremoved
      · exact .inl hwake
      · exact .inr (.inl (.inr hcalled))
      · exact .inr (.inr hremoved)

/-- Something else happens during a batch. -/
theorem Underway.quiet_cons (h : Underway rest between events older) (ho : isQuiet o = true) :
    Underway rest (o :: between) events older := by
  have hcalls : calls [o] = [] := by
    cases o with
    | called => cases ho
    | _ => rfl
  refine .go [o] [] h (List.forall_mem_singleton.mpr ?_) ?_ nofun
  · cases o with
    | collected => cases ho
    | _ => rfl
  · rw [hcalls]

theorem Underway.pass (h : Underway ((token, m) :: rest) between events older)
    (hreason : token = kWakeToken ∨ .removed token ∈ between) :
    Underway rest between events older := by
  refine .go [] [(token, m)] h nofun (List.nil_sublist _) fun token' m' hmem => ?_
  obtain ⟨rfl, rfl⟩ := Prod.mk.inj (List.mem_singleton.mp hmem)
  exact hreason.imp_right .inr

theorem Underway.call (h : Underway ((token, m) :: rest) between events older) (w : Watch β) :
    Underway rest (.called token m w :: between) events older :=
  .go [.called token m w] [(token, m)] h (List.forall_mem_singleton.mpr rfl) (List.Sublist.refl _)
    fun _ _ hmem => .inr (.inl hmem)

theorem Underway.mem (h : Underway ((token, m) :: rest) between events older) : (token, m) ∈ events := by
  obtain ⟨done, hsplit, -, -⟩ := h.split
  rw [hsplit]
  exact List.mem_append_right _ List.mem_cons_self

theorem Underway.finish (h : Underway [] between events older) : BatchOk events between := by
  obtain ⟨done, hsplit, hordered, hsettled⟩ := h.split
  rw [List.append_nil] at hsplit
  subst hsplit
  exact ⟨h.once, hordered, hsettled⟩

/-! ### What `epoll_wait` returns -/

/-- What is collected is for the eventfd or for a watched descriptor, and each has its own token. -/
theorem collect_spec (h : FdsOk f) {wakeups : ℕ} : ∀ {xs : List (Option ℕ × UInt32)}
    {events : List Ready}, f.collect wakeups xs = some events →
    (∀ token m, (token, m) ∈ events → token = kWakeToken ∧ none ∈ xs.map Prod.fst ∨
      ∃ fd cb, some fd ∈ xs.map Prod.fst ∧ f.watches token = some ⟨fd, cb⟩) ∧
    ((xs.map Prod.fst).Nodup → (events.map Prod.fst).Nodup)
  | [], events, hc => by
    obtain rfl := Option.some.inj hc
    exact ⟨fun _ _ hmem => (by cases hmem), fun _ => .nil⟩
  | (source, m₀) :: xs, events, hc => by
    obtain ⟨token₀, rest, hrest, rfl, hnew⟩ : ∃ token₀ rest, f.collect wakeups xs = some rest ∧
        events = (token₀, m₀) :: rest ∧ (source = none ∧ token₀ = kWakeToken ∨
          ∃ fd cb, source = some fd ∧ f.watches token₀ = some ⟨fd, cb⟩) := by
      cases source with
      | none =>
        unfold Fds.collect at hc
        split_ifs at hc
        obtain ⟨rest, hrest, rfl⟩ := Option.map_eq_some_iff.mp hc
        exact ⟨kWakeToken, rest, hrest, rfl, .inl ⟨rfl, rfl⟩⟩
      | some fd =>
        unfold Fds.collect at hc
        cases hi : f.interest fd with
        | none =>
          rw [hi] at hc
          cases hc
        | some x =>
          rw [hi] at hc
          obtain ⟨rest, hrest, rfl⟩ := Option.map_eq_some_iff.mp hc
          obtain ⟨cb, hw⟩ := h.tokens_iff.mp (h.kernel fd x.1 x.2 hi)
          exact ⟨x.2, rest, hrest, rfl, .inr ⟨fd, cb, rfl, hw⟩⟩
    obtain ⟨hspec, hnodup⟩ := collect_spec h hrest
    refine ⟨fun token m hmem => ?_, fun hsources => ?_⟩
    · rcases List.mem_cons.mp hmem with heq | hmem
      · obtain ⟨rfl, -⟩ := Prod.mk.inj heq
        rcases hnew with ⟨rfl, hwake⟩ | ⟨fd, cb, rfl, hw⟩
        · exact .inl ⟨hwake, List.mem_cons_self⟩
        · exact .inr ⟨fd, cb, List.mem_cons_self, hw⟩
      · rcases hspec token m hmem with ⟨hwake, hnone⟩ | ⟨fd, cb, hfd, hw⟩
        · exact .inl ⟨hwake, List.mem_cons_of_mem _ hnone⟩
        · exact .inr ⟨fd, cb, List.mem_cons_of_mem _ hfd, hw⟩
    · obtain ⟨hfirst, hsources⟩ := List.nodup_cons.mp hsources
      refine List.nodup_cons.mpr ⟨fun hmem => ?_, hnodup hsources⟩
      obtain ⟨⟨token, m⟩, hx, rfl⟩ := List.mem_map.mp hmem
      rcases hnew with ⟨rfl, rfl⟩ | ⟨fd, cb, rfl, hw⟩
      · rcases hspec _ m hx with ⟨-, hnone⟩ | ⟨fd, cb, -, hw⟩
        · exact hfirst hnone
        · exact absurd (h.bound _ _ hw).1 (lt_irrefl _)
      · rcases hspec _ m hx with ⟨hwake, -⟩ | ⟨fd', cb', hfd', hw'⟩
        · exact (h.bound _ _ hw).1.ne' hwake
        · rw [hw] at hw'
          obtain ⟨rfl, -⟩ := Watch.mk.inj (Option.some.inj hw')
          exact hfirst hfd'

/-! ### Runs -/

theorem sound_init (t : Timers.System α) : Sound ({ timers := t } : System β α) := by
  refine ⟨⟨fdsOk_init, rfl, .nil, fun token h => (by cases h)⟩, ⟨?_, ?_⟩, fun rest h => (by cases h)⟩
  · intro token m w older hs
    cases List.suffix_nil.mp hs
  · intro older hs
    cases List.suffix_nil.mp hs

/-- Neither the watches nor the registrations of the trace change. -/
theorem Tabled.retable (h : Tabled s) (hok : FdsOk s'.fds) (hwatches : s'.fds.watches = s.fds.watches)
    (hnext : s.fds.nextToken ≤ s'.fds.nextToken) (hlive : live s'.trace = live s.trace)
    (hadded : addedTokens s'.trace = addedTokens s.trace) : Tabled s' := by
  refine ⟨hok, ?_, ?_, fun token hmem => ?_⟩
  · rw [hwatches, hlive]
    exact h.shown
  · rw [hadded]
    exact h.fresh
  · rw [hadded] at hmem
    exact (h.below token hmem).trans_le hnext

theorem Tabled.keep (h : Tabled s) (hfds : s'.fds = s.fds) (hlive : live s'.trace = live s.trace)
    (hadded : addedTokens s'.trace = addedTokens s.trace) : Tabled s' :=
  h.retable (hfds ▸ h.fds) (by rw [hfds]) (by rw [hfds]) hlive hadded

namespace Sound

/-- No batch begins. -/
theorem rephase (h : Sound s) (ht : Tabled s') (htrace : s'.trace = s.trace)
    (hbatch : ∀ rest, inBatch s'.phase = some rest → inBatch s.phase = some rest) : Sound s' := by
  refine ⟨ht, ?_, fun rest hrest => ?_⟩
  · rw [htrace]
    exact h.dispatched
  · rw [htrace]
    exact h.batch rest (hbatch rest hrest)

/-- Something that batches have nothing to do with is recorded. -/
theorem record (h : Sound s) (ht : Tabled s') (ho : isQuiet o = true) (htrace : s'.trace = o :: s.trace)
    (hbatch : ∀ rest, inBatch s'.phase = some rest → inBatch s.phase = some rest) : Sound s' := by
  refine ⟨ht, ?_, fun rest hrest => ?_⟩
  · rw [htrace]
    exact h.dispatched.quiet ho
  · obtain ⟨between, events, older, heq, hunder⟩ := h.batch rest (hbatch rest hrest)
    refine ⟨o :: between, events, older, ?_, hunder.quiet_cons ho⟩
    rw [htrace, heq]
    rfl

theorem addFd (h : Sound s) (fd : ℕ) (events : UInt32) (cb : β) (fails : Bool) :
    Sound (s.addFd fd events cb fails) := by
  unfold System.addFd
  rcases addFd_cases s.fds fd events cb fails with ⟨error, n, heq, hn⟩ | ⟨hnone, heq⟩
  · rw [heq]
    exact h.rephase (h.toTabled.retable (h.fds.skip hn) rfl hn rfl rfl) rfl fun _ hrest => hrest
  · rw [heq]
    refine h.record ⟨h.fds.add hnone events cb, ?_, ?_, ?_⟩ rfl rfl fun _ hrest => hrest
    · simp only [System.log, watched, live, h.shown]
    · exact List.pairwise_cons.mpr ⟨h.below, h.fresh⟩
    · intro token hmem
      rcases List.mem_cons.mp hmem with rfl | hmem
      · exact Nat.lt_succ_self _
      · exact (h.below token hmem).trans (Nat.lt_succ_self _)

theorem removeFd (h : Sound s) (fd : ℕ) : Sound (s.removeFd fd) := by
  unfold System.removeFd
  cases hfd : s.fds.tokens fd with
  | none => exact h
  | some token =>
    have hremoved := removeFd_some hfd
    refine h.record ⟨h.fds.remove hfd, ?_, h.fresh, ?_⟩ rfl rfl fun _ hrest => hrest
    · simp only [System.log, hremoved, live, h.shown]
    · intro token' hmem
      have hbelow := h.below token' hmem
      simpa only [System.log, hremoved] using hbelow

theorem collect (h : Sound s) {xs : List (Option ℕ × UInt32)}
    (hcollect : s.fds.collect s.wakeups xs = some events) (hnodup : (xs.map Prod.fst).Nodup) :
    Sound ({ s with phase := .batch events }.log (.collected events)) := by
  obtain ⟨hspec, honce⟩ := collect_spec h.fds hcollect
  refine ⟨h.toTabled.keep rfl rfl rfl, h.dispatched.cons nofun nofun, fun rest hrest => ?_⟩
  obtain rfl := Option.some.inj hrest
  refine ⟨[], events, s.trace, rfl, nofun, honce hnodup, fun token m hmem hwake => ?_, [], rfl,
    List.Sublist.refl _, nofun⟩
  rcases hspec token m hmem with ⟨heq, -⟩ | ⟨fd, cb, -, hw⟩
  · exact absurd heq hwake
  · rw [← h.shown]
    exact ⟨_, hw⟩

theorem finish (h : Sound s) (hbatch : s.phase = .batch []) (t : Timers.System α) :
    Sound ({ s with timers := t, phase := .timers }.log .dispatched) := by
  obtain ⟨between, events, older, heq, hunder⟩ := h.batch [] (by rw [hbatch]; rfl)
  refine ⟨h.toTabled.keep rfl rfl rfl, h.dispatched.cons nofun fun _ => ?_, nofun⟩
  exact ⟨between, events, older, heq, hunder.quiet, hunder.finish⟩

/-- An event is for the eventfd, or for a descriptor that was removed in this batch. -/
theorem pass (h : Sound s) (hbatch : s.phase = .batch ((token, m) :: rest)) (n : ℕ)
    (hnone : token ≠ kWakeToken → s.fds.watches token = none) :
    Sound { s with wakeups := n, phase := .batch rest } := by
  obtain ⟨between, events, older, heq, hunder⟩ := h.batch ((token, m) :: rest) (by rw [hbatch]; rfl)
  have hreason : token = kWakeToken ∨ .removed token ∈ between := by
    by_cases hwake : token = kWakeToken
    · exact .inl hwake
    · obtain ⟨w, hw⟩ := hunder.registered token m hunder.mem hwake
      have hthen : live (.collected events :: older) token = some w := hw
      have hgone : live (between ++ .collected events :: older) token = none := by
        rw [← heq, ← h.shown]
        exact hnone hwake
      exact .inr (removed_of_live hthen hgone)
  refine ⟨h.toTabled.keep rfl rfl rfl, h.dispatched, fun rest' hrest => ?_⟩
  obtain rfl := Option.some.inj hrest
  exact ⟨between, events, older, heq, hunder.pass hreason⟩

/-- The callback that a token finds is that of the registration the event was collected for. -/
theorem call (h : Sound s) (hbatch : s.phase = .batch ((token, m) :: rest))
    (hwake : token ≠ kWakeToken) (hw : s.fds.watches token = some w) :
    Sound ({ s with phase := .callback rest }.log (.called token m w)) := by
  obtain ⟨between, events, older, heq, hunder⟩ := h.batch ((token, m) :: rest) (by rw [hbatch]; rfl)
  have hlive : live s.trace token = some w := by
    rw [← h.shown]
    exact hw
  have hthen : live older token = some w := by
    obtain ⟨w', hw'⟩ := hunder.registered token m hunder.mem hwake
    have hfresh := h.fresh
    rw [heq] at hfresh hlive
    have hcollected : live (.collected events :: older) token = some w' := hw'
    obtain rfl := live_same hfresh hcollected hlive
    exact hw'
  refine ⟨h.toTabled.keep rfl rfl rfl, h.dispatched.cons (fun token' m' w' hcalled => ?_) nofun,
    fun rest' hrest => ?_⟩
  · obtain ⟨rfl, rfl, rfl⟩ := Obs.called.inj hcalled
    exact ⟨hlive, between, events, older, heq, hunder.quiet, hunder.mem, hthen⟩
  · obtain rfl := Option.some.inj hrest
    exact ⟨.called token m w :: between, events, older, congrArg _ heq, hunder.call w⟩

end Sound

/-- **A step keeps the tables and the batches as they should be.** -/
theorem sound_step (h : Sound s) (hstep : Step s e s') : Sound s' := by
  have htables := h.toTabled
  cases move_of_step hstep with
  | tick now hnow | act et t he hact ht hphase =>
    exact h.rephase (htables.keep rfl rfl rfl) rfl fun _ hrest => hrest
  | addFd fd events cb fails => exact h.addFd fd events cb fails
  | modifyFd fd events fails =>
    obtain ⟨hok, hwatches, hnext⟩ := h.fds.modify fd events fails
    exact h.rephase (htables.retable hok hwatches hnext.ge rfl rfl) rfl fun _ hrest => hrest
  | removeFd fd => exact h.removeFd fd
  | closeFd fd =>
    exact h.rephase (htables.retable (h.fds.close fd) rfl le_rfl rfl rfl) rfl fun _ hrest => hrest
  | stop | finishStop i hi => exact h.record (htables.keep rfl rfl rfl) rfl rfl fun _ hrest => hrest
  | run hphase | plan hphase | wait read timeout hphase =>
    exact h.rephase (htables.keep rfl rfl rfl) rfl nofun
  | check hphase =>
    refine h.rephase (htables.keep rfl rfl rfl) rfl fun rest hrest => ?_
    dsimp only at hrest
    split_ifs at hrest <;> cases hrest
  | collect xs events he hphase hcollect hnodup => exact h.collect hcollect hnodup
  | finish t hphase ht => exact h.finish hphase t
  | wake m rest hphase => exact h.pass hphase 0 fun hne => absurd rfl hne
  | pass token m rest hphase hnone => exact h.pass hphase s.wakeups fun _ => hnone
  | call token m rest w hphase hwake hw => exact h.call hphase hwake hw
  | returnFd rest hphase =>
    refine h.rephase (htables.keep rfl rfl rfl) rfl fun rest' hrest => ?_
    rw [hphase]
    exact hrest
  | round et t he ht =>
    refine h.rephase (htables.keep rfl rfl rfl) rfl fun rest hrest => ?_
    dsimp only [inRound] at hrest
    split_ifs at hrest <;> cases hrest
  | leave hphase => exact h.record (htables.keep rfl rfl rfl) rfl rfl nofun

theorem sound_run {t : Timers.System α} (h : Run Step ({ timers := t } : System β α) es s) : Sound s :=
  h.invariant (fun _ _ _ hs hstep => sound_step hs hstep) (sound_init t)

/-- **Events reach the watch they are for.** Whatever callbacks add, remove, close and use again: the
tables hold the registrations there are and the kernel has no token but theirs; a callback is called
only for an event collected for its own registration, while that stands; and every batch calls back in
order, once each, leaving out nothing but what was removed before its turn. -/
theorem events_dispatched {t : Timers.System α}
    (h : Run Step ({ timers := t } : System β α) es s) :
    s.fds.watches = live s.trace ∧
      (∀ fd token, s.fds.tokens fd = some token ↔ ∃ cb, live s.trace token = some ⟨fd, cb⟩) ∧
      (∀ fd m token, s.fds.interest fd = some (m, token) → s.fds.tokens fd = some token) ∧
      Dispatched s.trace := by
  have hsound := sound_run h
  refine ⟨hsound.shown, fun fd token => ?_, hsound.fds.kernel, hsound.dispatched⟩
  rw [← hsound.shown]
  exact hsound.fds.tokens_iff

/-- Two descriptors are ready; the callback of the first removes, closes and registers the other
again, under the same number, before the turn of its event. -/
def reuse : List (Event ℕ ℕ) :=
  [.addFd 5 kReadable 50 false, .addFd 6 kReadable 60 false, .run, .check, .plan, .wait,
    .ready [(some 5, kReadable), (some 6, kReadable)], .dispatch, .removeFd 6, .closeFd 6,
    .addFd 6 kReadable 61 false, .returnFd, .dispatch, .dispatch]

theorem events_dispatched_reuse : ∃ s : System ℕ ℕ,
    Run Step ({ timers := { clock := 0 } } : System ℕ ℕ) reuse s ∧
      s.fds.watches = live s.trace ∧ Dispatched s.trace ∧
      s.fds.tokens 6 = some 3 ∧ calls s.trace = [(1, kReadable)] := by
  have hcomputed : (Run.applyAll apply ({ timers := { clock := 0 } } : System ℕ ℕ) reuse).any
      (fun s => decide (s.fds.tokens 6 = some 3 ∧ calls s.trace = [(1, kReadable)])) = true := by
    decide +kernel
  obtain ⟨s, hrun, hs⟩ := Run.exists_of_applyAll (fun _ _ _ h => h) hcomputed
  obtain ⟨hwatches, -, -, hdispatched⟩ := events_dispatched hrun
  exact ⟨s, hrun, hwatches, hdispatched, of_decide_eq_true hs⟩

end DNSentinel.Net.Dispatch
