import DNSentinel.Resolver.Upstream

/-! # Replies over TCP

Once a query over TCP is written, the client appends what it reads until the first frame is complete,
or the connection ends, or the timer fires. Where the reads begin and end does not matter: `after`
follows the reads one by one, and `after_eq` says that it depends only on the bytes and on the end. -/

namespace DNSentinel.Resolver.TcpReplies

open DNSentinel.Types Wire.ByteIo Wire.Parser Wire.Builder Data Resolver.Core Upstream

/-! ### What is read -/

/-- How the reads of a query come to an end. -/
inductive Ending where
  /-- the end of the stream, or an error -/
  | closed
  | timeout
  | cancelled
deriving DecidableEq

/-- What can happen to a query over TCP that has been written. -/
inductive StreamInput where
  | data (bytes : List UInt8)
  | ending (e : Ending)

def streamInputOf : Received → Option StreamInput
  | .bytes [] => some (.ending .closed)
  | .bytes data => some (.data data)
  | .interrupted => none
  | .error => some (.ending .closed)

def streamInputsOf (id : ℕ) : Event → List StreamInput
  | .tcp i _ _ _ received => if i = id then received.filterMap streamInputOf else []
  | .timer i => if i = id then [.ending .timeout] else []
  | .cancel i => if i = id then [.ending .cancelled] else []
  | _ => []

/-- What happened to the query, in order. -/
def streamInputs (id : ℕ) (es : List Event) : List StreamInput := es.flatMap (streamInputsOf id)

/-- The bytes that were sent before the end. -/
def stream : List StreamInput → List UInt8
  | .data bytes :: rest => bytes ++ stream rest
  | _ => []

def endingOf : List StreamInput → Option Ending
  | [] => none
  | .data _ :: rest => endingOf rest
  | .ending e :: _ => some e

/-! ### The first frame -/

variable {s : Sent} {p p' : Pending} {c : UpstreamClient} {id : ℕ} {xs ys : List StreamInput}
  {body bytes : List UInt8} {r : Completion}

/-- The bytes start with a whole frame, of this body. -/
def StartsWith (bytes body : List UInt8) : Prop :=
  ∃ hi lo more, bytes = hi :: lo :: (body ++ more) ∧ body.length = hi.toNat * 256 + lo.toNat

theorem framed_iff : framed bytes = some body ↔ StartsWith bytes body := by
  unfold StartsWith
  constructor
  · intro h
    unfold framed at h
    split at h
    · next hi lo data =>
      dsimp only at h
      split_ifs at h with hlt
      obtain rfl := Option.some.inj h
      refine ⟨hi, lo, data.drop (hi.toNat * 256 + lo.toNat), by rw [List.take_append_drop], ?_⟩
      rw [List.length_take]
      omega
    · cases h
  · rintro ⟨hi, lo, more, rfl, hlength⟩
    have hle : ¬ (body ++ more).length < hi.toNat * 256 + lo.toNat := by
      rw [List.length_append]
      omega
    rw [framed, if_neg hle, ← hlength, List.take_left]

theorem framed_append (h : framed bytes = some body) (more : List UInt8) :
    framed (bytes ++ more) = some body := by
  obtain ⟨hi, lo, rest, rfl, hlength⟩ := framed_iff.mp h
  refine framed_iff.mpr ⟨hi, lo, rest ++ more, ?_, hlength⟩
  rw [List.cons_append, List.cons_append, List.append_assoc]

/-- What the body of the first frame makes of the query. -/
def verdict (s : Sent) (body : List UInt8) : Completion :=
  match parse body, matchReply (parse body) s with
  | .ok msg, .yes => .ok msg
  | _, .wrongCase => .error .caseMismatch
  | _, _ => .error .networkError

/-- The result is the message if it is the reply, and otherwise says whether only its letter case is
wrong. -/
structure Verdict (s : Sent) (body : List UInt8) (r : Completion) : Prop where
  success : ∀ m, r = .ok m ↔ Reply s body m
  mismatch : r = .error .caseMismatch ↔ OnlyCase s body
  failure : (¬ ∃ m, Reply s body m) → ¬ OnlyCase s body → r = .error .networkError

theorem verdict_spec (s : Sent) (body : List UInt8) : Verdict s body (verdict s body) := by
  have hyes : matchReply (parse body) s = .yes ↔ ∃ m, Reply s body m := matchReply_yes
  have hwrong : matchReply (parse body) s = .wrongCase ↔ OnlyCase s body := matchReply_wrongCase
  have hparse : ∀ m, Reply s body m → parse body = .ok m := fun m h => h.1
  unfold verdict
  split
  · next msg hmsg hmatch =>
    obtain ⟨m, hm⟩ := hyes.mp hmatch
    obtain rfl : msg = m := Except.ok.inj (hmsg.symm.trans (hparse m hm))
    refine ⟨fun m' => ⟨fun h => Except.ok.inj h ▸ hm, fun h => ?_⟩, ?_, fun hnone => absurd ⟨msg, hm⟩ hnone⟩
    · rw [Except.ok.inj (hmsg.symm.trans (hparse m' h))]
    · rw [← hwrong, hmatch]
      simp
  · next hmatch =>
    have hnone : ¬ ∃ m, Reply s body m := by
      rw [← hyes, hmatch]
      simp
    refine ⟨fun m => ⟨fun h => by simp at h, fun h => absurd ⟨m, h⟩ hnone⟩, ?_, fun _ hcase => ?_⟩
    · simp only [true_iff]
      exact hwrong.mp hmatch
    · exact absurd (hwrong.mp hmatch) hcase
  · next hcase hok =>
    have hnone : ¬ ∃ m, Reply s body m := by
      rintro ⟨m, hm⟩
      exact hok m (hparse m hm) (hyes.mpr ⟨m, hm⟩)
    refine ⟨fun m => ⟨fun h => by simp at h, fun h => absurd ⟨m, h⟩ hnone⟩, ?_, fun _ _ => rfl⟩
    rw [← hwrong]
    simp only [Except.error.injEq, reduceCtorEq, false_iff]
    exact hcase

/-! ### Read by read -/

/-- The query after these inputs. -/
def after : Pending → List StreamInput → Progress
  | p, [] => .waiting p
  | p, .data bytes :: rest =>
    let p := { p with input := p.input ++ bytes }
    match framed p.input with
    | none => after p rest
    | some body => .finished (verdict p.sent body)
  | _, .ending .closed :: _ => .finished (.error .networkError)
  | p, .ending .timeout :: _ => onTimeout p
  | _, .ending .cancelled :: _ => .cancelled

/-- What is left of a query that is waiting. -/
def andThen : Progress → (Pending → Progress) → Progress
  | .waiting p, f => f p
  | progress, _ => progress

theorem after_append : ∀ (xs ys : List StreamInput) (p : Pending),
    after p (xs ++ ys) = andThen (after p xs) fun p => after p ys
  | [], _, _ => rfl
  | .data bytes :: xs, ys, p => by
    simp only [List.cons_append, after]
    cases framed (p.input ++ bytes) with
    | none => exact after_append xs ys _
    | some body => rfl
  | .ending .closed :: _, _, _ => rfl
  | .ending .timeout :: _, _, _ => rfl
  | .ending .cancelled :: _, _, _ => rfl

theorem tcpReadLoop_eq : ∀ (received : List Received) (p : Pending),
    tcpReadLoop p received = after p (received.filterMap streamInputOf)
  | [], _ => rfl
  | .interrupted :: rest, p => tcpReadLoop_eq rest p
  | .error :: _, _ => rfl
  | .bytes [] :: _, _ => rfl
  | .bytes (b :: data) :: rest, p => by
    have hinputs : (Received.bytes (b :: data) :: rest).filterMap streamInputOf =
        .data (b :: data) :: rest.filterMap streamInputOf := rfl
    rw [hinputs]
    simp only [tcpReadLoop, after]
    cases framed (p.input ++ b :: data) with
    | none => exact tcpReadLoop_eq rest _
    | some body =>
      unfold verdict
      dsimp only
      cases parse body <;> cases matchReply _ p.sent <;> rfl

/-- The query is written, and its response is read. -/
structure Reads (p : Pending) : Prop where
  transport : p.sent.transport = .tcp
  failed : p.failed = false
  written : ¬ p.written < p.out.length
  wrongCaseSeen : p.wrongCaseSeen = false

theorem Reads.more (h : Reads p) (input : List UInt8) : Reads { p with input } :=
  ⟨h.transport, h.failed, h.written, h.wrongCaseSeen⟩

/-- **The query depends on the bytes and on the end**, not on the reads. -/
theorem after_eq : ∀ (xs : List StreamInput) (p : Pending), Reads p → framed p.input = none →
    after p xs = match framed (p.input ++ stream xs), endingOf xs with
      | some body, _ => .finished (verdict p.sent body)
      | none, none => .waiting { p with input := p.input ++ stream xs }
      | none, some .closed => .finished (.error .networkError)
      | none, some .timeout => .finished (.error .timeout)
      | none, some .cancelled => .cancelled
  | [], p, _, hp => by
    simp only [stream, List.append_nil, hp, endingOf]
    rfl
  | .ending e :: rest, p, h, hp => by
    simp only [stream, List.append_nil, hp, endingOf]
    cases e with
    | closed => rfl
    | timeout => simp [after, onTimeout, h.failed, h.wrongCaseSeen]
    | cancelled => rfl
  | .data bytes :: rest, p, h, hp => by
    simp only [stream, after, endingOf, ← List.append_assoc]
    cases hframed : framed (p.input ++ bytes) with
    | none => exact after_eq rest _ (h.more _) hframed
    | some body =>
      rw [framed_append hframed]

theorem after_waiting : ∀ (xs : List StreamInput) (p : Pending), Reads p → after p xs = .waiting p' →
    Reads p'
  | [], p, h, heq => Progress.waiting.inj heq ▸ h
  | .data bytes :: rest, p, h, heq => by
    simp only [after] at heq
    split at heq
    · exact after_waiting rest _ (h.more _) heq
    · cases heq
  | .ending .closed :: _, _, _, heq => by cases heq
  | .ending .timeout :: _, _, _, heq => by cases heq
  | .ending .cancelled :: _, _, _, heq => by cases heq

/-! ### The query among others -/

/-- The client has this of the query. -/
def Holds (c : UpstreamClient) (id : ℕ) : Progress → Prop
  | .waiting p => c.pending id = some p ∧ callsOf c id = [] ∧ Reads p
  | .finished r => c.pending id = none ∧ callsOf c id = [r]
  | .cancelled => c.pending id = none ∧ callsOf c id = []

theorem holds_congr {c' : UpstreamClient} {progress : Progress} (hpending : c'.pending id = c.pending id)
    (hcalls : callsOf c' id = callsOf c id) (h : Holds c id progress) : Holds c' id progress := by
  cases progress <;> (unfold Holds at h ⊢; rw [hpending, hcalls]; exact h)

/-- An event about the query, if it is waiting, and nothing if it is gone. -/
theorem Holds.own {progress : Progress} (h : Holds c id progress) {f : Pending → Progress}
    (hf : ∀ p, Reads p → f p = after p xs) :
    Holds (c.advance id f) id (andThen progress fun p => after p xs) := by
  cases progress with
  | waiting p =>
    obtain ⟨hpending, hcalls, hreads⟩ := h
    rw [advance_eq hpending, hf p hreads]
    show Holds _ _ (after p xs)
    cases hafter : after p xs with
    | waiting p' => exact ⟨Function.update_self .., hcalls, after_waiting xs p hreads hafter⟩
    | cancelled => exact ⟨Function.update_self .., hcalls⟩
    | finished r =>
      refine ⟨Function.update_self .., ?_⟩
      rw [UpstreamClient.proceed, callsOf_cons, if_pos rfl, hcalls]
  | finished r | cancelled =>
    rw [advance_gone h.1]
    exact h

theorem andThen_nil (progress : Progress) : (andThen progress fun p => after p []) = progress := by
  cases progress <;> rfl

/-- **One event, as the query sees it.** -/
theorem holds_apply {progress : Progress} (hid : id < c.nextId) (h : Holds c id progress) (e : Event) :
    Holds (apply c e) id (andThen progress fun p => after p (streamInputsOf id e)) := by
  have hother : ∀ (i : ℕ) (f : Pending → Progress), i ≠ id →
      Holds (c.advance i f) id (andThen progress fun p => after p []) := by
    intro i f hi
    rw [andThen_nil]
    exact holds_congr (advance_other hi).1 (advance_other hi).2 h
  cases e with
  | send query transport matchCase txid failed =>
    have hpending : (apply c (.send query transport matchCase txid failed)).pending id = c.pending id :=
      Function.update_of_ne (Nat.ne_of_lt hid) _ _
    show Holds _ _ (andThen progress fun p => after p [])
    rw [andThen_nil]
    exact holds_congr hpending rfl h
  | readable i received =>
    by_cases hi : i = id
    · subst hi
      refine h.own fun p hp => ?_
      rw [if_neg (by simp [hp.transport])]
      rfl
    · exact hother i _ hi
  | tcp i hangUp modifyFails written received =>
    simp only [streamInputsOf]
    split_ifs with hi
    · subst hi
      refine h.own fun p hp => ?_
      rw [if_pos ⟨hp.transport, by simp [hp.failed]⟩, onTcpEvent, if_neg hp.written, tcpReadLoop_eq]
    · exact hother i _ hi
  | timer i | cancel i =>
    simp only [streamInputsOf]
    split_ifs with hi
    · subst hi
      exact h.own fun _ _ => rfl
    · exact hother i _ hi

theorem andThen_after (progress : Progress) :
    (andThen (andThen progress fun p => after p xs) fun p => after p ys) =
      andThen progress fun p => after p (xs ++ ys) := by
  cases progress with
  | waiting p => exact (after_append xs ys p).symm
  | finished r => rfl
  | cancelled => rfl

/-- **A run, as the query sees it.** -/
theorem holds_run : ∀ (es : List Event) (c : UpstreamClient) (progress : Progress), id < c.nextId →
    Holds c id progress →
      Holds (run c es) id (andThen progress fun p => after p (streamInputs id es))
  | [], c, progress, _, h => by
    show Holds c id (andThen progress fun p => after p [])
    rwa [andThen_nil]
  | e :: es, c, progress, hid, h => by
    have ih := holds_run es (apply c e) _ (hid.trans_le (nextId_apply c e).1) (holds_apply hid h e)
    rw [andThen_after] at ih
    exact ih

/-! ### Queries that are waiting -/

/-- A query that is waiting was given its ID by `send`, its callback has not been called, and over TCP
no datagram is looked at. -/
def Quiet (c : UpstreamClient) : Prop :=
  ∀ id p, c.pending id = some p → id < c.nextId ∧ callsOf c id = [] ∧
    (p.sent.transport = .tcp → p.wrongCaseSeen = false)

theorem writeLoop_kept : ∀ (written : List Written) (p : Pending), writeLoop p written = .waiting p' →
    p'.sent = p.sent ∧ p'.wrongCaseSeen = p.wrongCaseSeen
  | [], p, h => Progress.waiting.inj h ▸ ⟨rfl, rfl⟩
  | .interrupted :: rest, p, h => writeLoop_kept rest p h
  | .error :: _, _, h => by cases h
  | .bytes n :: rest, p, h => by
    simp only [writeLoop] at h
    split_ifs at h
    · have hkept := writeLoop_kept rest _ h
      exact hkept
    · exact Progress.waiting.inj h ▸ ⟨rfl, rfl⟩

theorem after_kept : ∀ (xs : List StreamInput) (p : Pending), after p xs = .waiting p' →
    p'.sent = p.sent ∧ p'.wrongCaseSeen = p.wrongCaseSeen
  | [], p, h => Progress.waiting.inj h ▸ ⟨rfl, rfl⟩
  | .data bytes :: rest, p, h => by
    simp only [after] at h
    split at h
    · have hkept := after_kept rest _ h
      exact hkept
    · cases h
  | .ending .closed :: _, _, h => by cases h
  | .ending .timeout :: _, _, h => by cases h
  | .ending .cancelled :: _, _, h => by cases h

theorem onTcpEvent_kept {hangUp modifyFails : Bool} {written : List Written} {received : List Received}
    (h : onTcpEvent p hangUp modifyFails written received = .waiting p') :
    p'.sent = p.sent ∧ p'.wrongCaseSeen = p.wrongCaseSeen := by
  unfold onTcpEvent at h
  split_ifs at h
  · split at h
    · next q hq =>
      split_ifs at h
      exact Progress.waiting.inj h ▸ writeLoop_kept written p hq
    · next hother => exact absurd h (hother p')
  · rw [tcpReadLoop_eq] at h
    exact after_kept _ p h

theorem Quiet.advance (h : Quiet c) (i : ℕ) {f : Pending → Progress}
    (hf : ∀ p p', f p = .waiting p' →
      (p.sent.transport = .tcp → p.wrongCaseSeen = false) → p'.sent.transport = .tcp →
        p'.wrongCaseSeen = false) : Quiet (c.advance i f) := by
  intro id q hq
  rw [(nextId_advance c i f).1]
  by_cases hi : i = id
  · subst hi
    cases hp : c.pending i with
    | none =>
      rw [advance_gone hp] at hq ⊢
      exact h i q hq
    | some p =>
      obtain ⟨hid, hcalls, hcase⟩ := h i p hp
      rw [advance_eq hp] at hq ⊢
      cases hfp : f p with
      | waiting p' =>
        simp only [hfp, UpstreamClient.proceed, Function.update_self, Option.some.injEq] at hq
        subst hq
        exact ⟨hid, hcalls, hf p p' hfp hcase⟩
      | finished r | cancelled =>
        simp [hfp, UpstreamClient.proceed] at hq
  · rw [(advance_other hi).1] at hq
    rw [(advance_other hi).2]
    exact h id q hq

theorem quiet_apply (hfresh : Fresh c) (h : Quiet c) (e : Event) : Quiet (apply c e) := by
  cases e with
  | send query transport matchCase txid failed =>
    intro id p hp
    by_cases hid : id = c.nextId
    · subst hid
      simp only [apply, UpstreamClient.send, Function.update_self, Option.some.injEq] at hp
      subst hp
      exact ⟨Nat.lt_succ_self _, (hfresh c.nextId le_rfl).2, fun _ => rfl⟩
    · obtain ⟨hlt, hcalls, hcase⟩ := h id p ((Function.update_of_ne hid _ _).symm.trans hp)
      exact ⟨hlt.trans (Nat.lt_succ_self _), hcalls, hcase⟩
  | readable i received =>
    refine h.advance i fun p p' hp hcase htcp => ?_
    split_ifs at hp with hudp
    · rw [readLoop_eq] at hp
      rw [(takeAll_waiting _ p hp).1, hudp.1] at htcp
      cases htcp
    · obtain rfl := Progress.waiting.inj hp
      exact hcase htcp
  | tcp i hangUp modifyFails written received =>
    refine h.advance i fun p p' hp hcase htcp => ?_
    split_ifs at hp
    · obtain ⟨hsent, hkept⟩ := onTcpEvent_kept hp
      rw [hkept]
      exact hcase (hsent ▸ htcp)
    · obtain rfl := Progress.waiting.inj hp
      exact hcase htcp
  | timer i | cancel i => exact h.advance i fun p p' hp => by cases hp

theorem quiet_run : ∀ (es : List Event) (c : UpstreamClient), Fresh c → Quiet c → Quiet (run c es)
  | [], _, _, h => h
  | e :: es, c, hfresh, h => quiet_run es (apply c e) (fresh_apply hfresh e) (quiet_apply hfresh h e)

/-! ### Every query over TCP -/

/-- The query has just been written to the server, and nothing is read yet. -/
structure Awaits (c : UpstreamClient) (id : ℕ) (s : Sent) : Prop where
  pending : ∃ p, c.pending id = some p ∧ p.sent = s ∧ p.failed = false ∧ ¬ p.written < p.out.length ∧
    p.input = []
  transport : s.transport = .tcp

theorem calls_after (t : UInt32) (before : List Event)
    (hawaits : Awaits (run { spoofThreshold := t } before) id s) (es : List Event) :
    callsOf (run (run { spoofThreshold := t } before) es) id =
      match framed (stream (streamInputs id es)), endingOf (streamInputs id es) with
      | some body, _ => [verdict s body]
      | none, some .closed => [.error .networkError]
      | none, some .timeout => [.error .timeout]
      | none, _ => [] := by
  obtain ⟨⟨p, hpending, rfl, hfailed, hwritten, hinput⟩, htransport⟩ := hawaits
  have hquiet := quiet_run before { spoofThreshold := t } (fresh_start t) fun _ _ h => by cases h
  obtain ⟨hid, hcalls, hcase⟩ := hquiet id p hpending
  have hreads : Reads p := ⟨htransport, hfailed, hwritten, hcase htransport⟩
  have hwaits : Holds (run { spoofThreshold := t } before) id (.waiting p) :=
    ⟨hpending, hcalls, hreads⟩
  have hholds := holds_run es _ (.waiting p) hid hwaits
  have hafter : (andThen (.waiting p) fun p => after p (streamInputs id es)) = after p (streamInputs id es) :=
    rfl
  rw [hafter, after_eq _ p hreads (by rw [hinput]; rfl), hinput, List.nil_append] at hholds
  cases hframed : framed (stream (streamInputs id es)) with
  | some body =>
    rw [hframed] at hholds
    exact hholds.2
  | none =>
    rw [hframed] at hholds
    cases hending : endingOf (streamInputs id es) with
    | none =>
      rw [hending] at hholds
      exact hholds.2.1
    | some e =>
      rw [hending] at hholds
      cases e <;> exact hholds.2

/-- **Where the reads begin and end does not matter to a query over TCP** that has been written,
whatever else the client does before and meanwhile. If the stream starts with a whole frame, its body
alone gives the result of the one call of the callback. If there is none when the connection ends or
the timer fires, the call says that. -/
theorem tcp_replies_unsegmented (t : UInt32) (before : List Event)
    (hawaits : Awaits (run { spoofThreshold := t } before) id s) :
    let calls (es : List Event) := callsOf (run (run { spoofThreshold := t } before) es) id
    (∀ body, ∃ r, Verdict s body r ∧
      ∀ es, StartsWith (stream (streamInputs id es)) body → calls es = [r]) ∧
    ∀ es, (¬ ∃ body, StartsWith (stream (streamInputs id es)) body) →
      (endingOf (streamInputs id es) = some .closed → calls es = [.error .networkError]) ∧
      (endingOf (streamInputs id es) = some .timeout → calls es = [.error .timeout]) ∧
      (endingOf (streamInputs id es) = none → calls es = []) := by
  intro calls
  have hcalls := calls_after t before hawaits
  refine ⟨fun body => ⟨verdict s body, verdict_spec s body, fun es hstarts => ?_⟩, fun es hnone => ?_⟩
  · show callsOf _ _ = _
    rw [hcalls es, framed_iff.mpr hstarts]
  · have hframed : framed (stream (streamInputs id es)) = none := by
      rw [Option.eq_none_iff_forall_ne_some]
      exact fun body h => hnone ⟨body, framed_iff.mp h⟩
    refine ⟨fun h => ?_, fun h => ?_, fun h => ?_⟩ <;>
      (show callsOf _ _ = _; rw [hcalls es, hframed, h])

/-- The query is sent and written in two pieces. -/
def writtenQuery : List Event :=
  [.send sampleQuery .tcp true 7 false, .tcp 1 false false [.bytes 5] [],
    .tcp 1 false false [.interrupted, .bytes 100] []]

/-- The frame of the reply, with more after it, is read in pieces. -/
def pieces : List Event :=
  [.tcp 1 false false [] [.bytes [0]], .timer 2,
    .tcp 1 false false [] [.interrupted, .bytes (UInt8.ofNat sampleReply.length :: sampleReply.take 9)],
    .tcp 1 false false [] [.bytes (sampleReply.drop 9 ++ [1, 2, 3])], .timer 1]

theorem tcp_replies_unsegmented_pieces :
    ∃ m, callsOf (run (run { spoofThreshold := 0 } writtenQuery) pieces) 1 = [.ok m] := by
  have hawaits : Awaits (run { spoofThreshold := 0 } writtenQuery) 1
      ⟨.tcp, 7, { qname := ⟨[[97]], [[65]]⟩, qtype := RRType.A }, true⟩ :=
    ⟨⟨_, rfl, rfl, rfl, by decide +kernel, rfl⟩, rfl⟩
  obtain ⟨r, hverdict, hcalls⟩ := (tcp_replies_unsegmented 0 writtenQuery hawaits).1 sampleReply
  have hstarts : StartsWith (stream (streamInputs 1 pieces)) sampleReply :=
    framed_iff.mp (by decide +kernel)
  obtain ⟨m, hm⟩ : ∃ m, Reply ⟨.tcp, 7, { qname := ⟨[[97]], [[65]]⟩, qtype := RRType.A }, true⟩
      sampleReply m := matchReply_yes.mp (by decide +kernel)
  exact ⟨m, (hverdict.success m).mpr hm ▸ hcalls pieces hstarts⟩

end DNSentinel.Resolver.TcpReplies
