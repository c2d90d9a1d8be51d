import DNSentinel.Resolver.Machine
import DNSentinel.Wire.Parser
import DNSentinel.Wire.Builder

/-! # The upstream client

`upstream.cpp`: each query has a socket of its own and a timer. `Event` has what the event loop does
to the client, with what the system calls return; a list of `Received` ends where `recv` would block.
The callbacks called are recorded, newest first.

For a query over UDP what happens comes down to a list of inputs, in the order in which they were
read. The first input that decides the query is the only one that does: forged datagrams are passed
over, as long as there are fewer of them than the threshold. -/

namespace DNSentinel.Resolver.Upstream

open DNSentinel.Types Wire.ByteIo Wire.Parser Wire.Builder Data Resolver.Core
open Machine (Match)

/-! ### The client -/

/-- What a reply is compared with. -/
structure Sent where
  transport : UpstreamTransport
  txid : UInt16
  question : Question
  matchCase : Bool

structure Pending where
  sent : Sent
  /-- sending failed, which the timer reports -/
  failed : Bool := false
  wrongCaseSeen : Bool := false
  suspicious : UInt32 := 0
  /-- over TCP: the framed query, how much of it is written, and the framed response so far -/
  out : List UInt8 := []
  written : ℕ := 0
  input : List UInt8 := []

abbrev Completion := Except UpstreamError Message

/-- Where a query is after something happened to it. -/
inductive Progress where
  | waiting (p : Pending)
  | finished (result : Completion)
  | cancelled

/-- `match` -/
def matchReply (msg : Result Message) (s : Sent) : Match :=
  match msg with
  | .error _ => .no
  | .ok msg =>
    match msg.questions with
    | [q] =>
      if !msg.header.qr || msg.header.id != s.txid || !(q == s.question) then .no
      else if s.matchCase && !sameCase q.qname s.question.qname then .wrongCase
      else .yes
    | _ => .no

inductive Received where
  | bytes (data : List UInt8)
  /-- EINTR -/
  | interrupted
  | error

inductive Written where
  | bytes (n : ℕ)
  | interrupted
  | error

/-- A datagram that is not the reply. -/
def suspect (threshold : UInt32) (p : Pending) (wrongCase : Bool) : Progress :=
  let p := { p with wrongCaseSeen := p.wrongCaseSeen || wrongCase }
  if threshold ≠ 0 then
    let p := { p with suspicious := p.suspicious + 1 }
    if threshold ≤ p.suspicious then .finished (.error .spoofSuspected) else .waiting p
  else .waiting p

def receive (threshold : UInt32) (p : Pending) (data : List UInt8) : Progress :=
  match parse data, matchReply (parse data) p.sent with
  | .ok msg, .yes => .finished (.ok msg)
  | _, m => suspect threshold p (m == .wrongCase)

/-- The loop of `on_readable`. -/
def readLoop (threshold : UInt32) : Pending → List Received → Progress
  | p, [] => .waiting p
  | p, .interrupted :: rest => readLoop threshold p rest
  | _, .error :: _ => .finished (.error .networkError)
  | p, .bytes data :: rest =>
    match receive threshold p data with
    | .waiting p => readLoop threshold p rest
    | other => other

/-- The first loop of `on_tcp_event`. -/
def writeLoop : Pending → List Written → Progress
  | p, [] => .waiting p
  | p, .interrupted :: rest => writeLoop p rest
  | _, .error :: _ => .finished (.error .networkError)
  | p, .bytes n :: rest =>
    let p := { p with written := p.written + n }
    if p.written < p.out.length then writeLoop p rest else .waiting p

/-- The framed response, once all of it has arrived. -/
def framed : List UInt8 → Option (List UInt8)
  | hi :: lo :: data =>
    let length := hi.toNat * 256 + lo.toNat
    if data.length < length then none else some (data.take length)
  | _ => none

/-- The second loop of `on_tcp_event`. -/
def tcpReadLoop : Pending → List Received → Progress
  | p, [] => .waiting p
  | p, .interrupted :: rest => tcpReadLoop p rest
  | _, .error :: _ => .finished (.error .networkError)
  | _, .bytes [] :: _ => .finished (.error .networkError)
  | p, .bytes (b :: data) :: rest =>
    let p := { p with input := p.input ++ b :: data }
    match framed p.input with
    | none => tcpReadLoop p rest
    | some response =>
      match parse response, matchReply (parse response) p.sent with
      | .ok msg, .yes => .finished (.ok msg)
      | _, .wrongCase => .finished (.error .caseMismatch)
      | _, _ => .finished (.error .networkError)

def onTcpEvent (p : Pending) (hangUp modifyFails : Bool) (written : List Written)
    (received : List Received) : Progress :=
  if p.written < p.out.length then
    if hangUp then .finished (.error .networkError)
    else
      match writeLoop p written with
      | .waiting p =>
        if ¬ p.written < p.out.length ∧ modifyFails then .finished (.error .networkError)
        else .waiting p
      | other => other
  else tcpReadLoop p received

/-- What the timer of `send` reports. -/
def onTimeout (p : Pending) : Progress :=
  .finished (.error (if p.failed then .networkError
    else if p.wrongCaseSeen then .caseMismatch else .timeout))

structure UpstreamClient where
  spoofThreshold : UInt32
  nextId : ℕ := 1
  pending : ℕ → Option Pending := fun _ => none
  calls : List (ℕ × Completion) := []

namespace UpstreamClient

/-- `finish` and `cancel` take the query out; `finish` calls back. -/
def proceed (c : UpstreamClient) (id : ℕ) : Progress → UpstreamClient
  | .waiting p => { c with pending := Function.update c.pending id (some p) }
  | .finished result =>
    { c with pending := Function.update c.pending id none, calls := (id, result) :: c.calls }
  | .cancelled => { c with pending := Function.update c.pending id none }

/-- `send`, with the ID drawn and whether a system call failed. -/
def send (c : UpstreamClient) (query : Message) (transport : UpstreamTransport) (matchCase : Bool)
    (txid : UInt16) (failed : Bool) : UpstreamClient :=
  let sent : Sent := ⟨transport, txid, query.questions.headD {}, matchCase⟩
  let out := if transport = .tcp then buildTcp { query with header := { query.header with id := txid } }
    else []
  { c with
    nextId := c.nextId + 1
    pending := Function.update c.pending c.nextId (some { sent, failed, out }) }

end UpstreamClient

inductive Event where
  | send (query : Message) (transport : UpstreamTransport) (matchCase : Bool) (txid : UInt16)
      (failed : Bool)
  /-- `on_readable` -/
  | readable (id : ℕ) (received : List Received)
  | tcp (id : ℕ) (hangUp modifyFails : Bool) (written : List Written) (received : List Received)
  | timer (id : ℕ)
  | cancel (id : ℕ)

/-- Events about queries that are no longer pending have no effect. -/
def UpstreamClient.advance (c : UpstreamClient) (id : ℕ) (f : Pending → Progress) : UpstreamClient :=
  match c.pending id with
  | none => c
  | some p => c.proceed id (f p)

def apply (c : UpstreamClient) : Event → UpstreamClient
  | .send query transport matchCase txid failed => c.send query transport matchCase txid failed
  | .readable id received => c.advance id fun p =>
    if p.sent.transport = .udp ∧ ¬ p.failed then readLoop c.spoofThreshold p received else .waiting p
  | .tcp id hangUp modifyFails written received => c.advance id fun p =>
    if p.sent.transport = .tcp ∧ ¬ p.failed then onTcpEvent p hangUp modifyFails written received
    else .waiting p
  | .timer id => c.advance id onTimeout
  | .cancel id => c.advance id fun _ => .cancelled

def run (c : UpstreamClient) (es : List Event) : UpstreamClient := es.foldl apply c

/-- The calls of the query's callback. -/
def callsOf (c : UpstreamClient) (id : ℕ) : List Completion :=
  c.calls.filterMap fun x => if x.1 = id then some x.2 else none

/-! ### The inputs of a query -/

/-- What can happen to a query over UDP. -/
inductive Input where
  | datagram (data : List UInt8)
  | error
  | timeout
  | cancelled
deriving DecidableEq

def inputOf : Received → Option Input
  | .bytes data => some (.datagram data)
  | .interrupted => none
  | .error => some .error

def inputsOf (id : ℕ) : Event → List Input
  | .readable i received => if i = id then received.filterMap inputOf else []
  | .timer i => if i = id then [.timeout] else []
  | .cancel i => if i = id then [.cancelled] else []
  | _ => []

/-- What happened to the query, in order. -/
def inputs (id : ℕ) (es : List Event) : List Input := es.flatMap (inputsOf id)

def take (threshold : UInt32) (p : Pending) : Input → Progress
  | .datagram data => receive threshold p data
  | .error => .finished (.error .networkError)
  | .timeout => onTimeout p
  | .cancelled => .cancelled

def takeAll (threshold : UInt32) : Progress → List Input → Progress
  | .waiting p, x :: xs => takeAll threshold (take threshold p x) xs
  | progress, _ => progress

variable {t : UInt32} {s : Sent} {p p' : Pending} {c : UpstreamClient} {id : ℕ} {x : Input}
  {xs ys pre rest : List Input} {data : List UInt8} {m : Message} {r : Completion}

@[simp] theorem takeAll_nil (progress : Progress) : takeAll t progress [] = progress := by
  cases progress <;> rfl

@[simp] theorem takeAll_finished : takeAll t (.finished r) xs = .finished r := by
  cases xs <;> rfl

@[simp] theorem takeAll_cancelled : takeAll t .cancelled xs = .cancelled := by
  cases xs <;> rfl

theorem takeAll_append : ∀ (xs ys : List Input) (progress : Progress),
    takeAll t progress (xs ++ ys) = takeAll t (takeAll t progress xs) ys
  | [], ys, progress => by simp
  | x :: xs, ys, .waiting p => takeAll_append xs ys (take t p x)
  | x :: xs, ys, .finished r => by simp
  | x :: xs, ys, .cancelled => by simp

theorem readLoop_eq : ∀ (received : List Received) (p : Pending),
    readLoop t p received = takeAll t (.waiting p) (received.filterMap inputOf)
  | [], _ => rfl
  | .interrupted :: rest, p => readLoop_eq rest p
  | .error :: rest, p => by
    show _ = takeAll t (.finished (.error .networkError)) (rest.filterMap inputOf)
    exact takeAll_finished.symm
  | .bytes data :: rest, p => by
    show _ = takeAll t (receive t p data) (rest.filterMap inputOf)
    unfold readLoop
    cases receive t p data with
    | waiting p => exact readLoop_eq rest p
    | finished r => exact takeAll_finished.symm
    | cancelled => exact takeAll_cancelled.symm

/-! ### The query among others -/

/-- The client has this of the query. -/
def Tracks (c : UpstreamClient) (id : ℕ) : Progress → Prop
  | .waiting p => c.pending id = some p ∧ callsOf c id = [] ∧ p.sent.transport = .udp ∧ p.failed = false
  | .finished r => c.pending id = none ∧ callsOf c id = [r]
  | .cancelled => c.pending id = none ∧ callsOf c id = []

theorem receive_waiting (h : receive t p data = .waiting p') : p'.sent = p.sent ∧ p'.failed = p.failed := by
  unfold receive at h
  split at h
  · simp at h
  · unfold suspect at h
    dsimp only at h
    split_ifs at h
    all_goals
      obtain rfl := Progress.waiting.inj h
      exact ⟨rfl, rfl⟩

theorem takeAll_waiting : ∀ (xs : List Input) (p : Pending), takeAll t (.waiting p) xs = .waiting p' →
    p'.sent = p.sent ∧ p'.failed = p.failed
  | [], p, h => by
    obtain rfl := Progress.waiting.inj h
    exact ⟨rfl, rfl⟩
  | x :: xs, p, h => by
    have hstep : takeAll t (take t p x) xs = .waiting p' := h
    cases x with
    | datagram data =>
      cases hreceive : receive t p data with
      | waiting p₁ =>
        obtain ⟨hsent, hfailed⟩ := receive_waiting hreceive
        rw [take, hreceive] at hstep
        obtain ⟨hsent', hfailed'⟩ := takeAll_waiting xs p₁ hstep
        exact ⟨hsent'.trans hsent, hfailed'.trans hfailed⟩
      | finished r =>
        rw [take, hreceive, takeAll_finished] at hstep
        simp at hstep
      | cancelled =>
        rw [take, hreceive, takeAll_cancelled] at hstep
        simp at hstep
    | error =>
      rw [take, takeAll_finished] at hstep
      simp at hstep
    | timeout =>
      rw [take, onTimeout, takeAll_finished] at hstep
      simp at hstep
    | cancelled =>
      rw [take, takeAll_cancelled] at hstep
      simp at hstep

theorem callsOf_cons (c : UpstreamClient) (pending : ℕ → Option Pending) (i id : ℕ) (r : Completion) :
    callsOf { c with pending, calls := (i, r) :: c.calls } id =
      if i = id then r :: callsOf c id else callsOf c id := by
  unfold callsOf
  rw [List.filterMap_cons]
  split_ifs <;> rfl

section Advance

variable {progress : Progress} {f : Pending → Progress} {i : ℕ}

theorem advance_eq (hp : c.pending id = some p) : c.advance id f = c.proceed id (f p) := by
  rw [UpstreamClient.advance, hp]

/-- Events about one query do not touch another. -/
theorem advance_other (hi : i ≠ id) :
    (c.advance i f).pending id = c.pending id ∧ callsOf (c.advance i f) id = callsOf c id := by
  cases hp : c.pending i with
  | none =>
    rw [UpstreamClient.advance, hp]
    exact ⟨rfl, rfl⟩
  | some q =>
    rw [advance_eq hp]
    cases f q with
    | waiting q' | cancelled => exact ⟨Function.update_of_ne hi.symm _ _, rfl⟩
    | finished r =>
      refine ⟨Function.update_of_ne hi.symm _ _, ?_⟩
      rw [UpstreamClient.proceed, callsOf_cons, if_neg hi]

theorem Tracks.other (h : Tracks c id progress) (hi : i ≠ id) :
    Tracks (c.advance i f) id progress := by
  obtain ⟨hpending, hcalls⟩ := advance_other (c := c) (f := f) hi
  cases progress <;> (unfold Tracks at h ⊢; rw [hpending, hcalls]; exact h)

theorem Tracks.own (h : Tracks c id (.waiting p))
    (hkeep : ∀ p', f p = .waiting p' → p'.sent = p.sent ∧ p'.failed = p.failed) :
    Tracks (c.advance id f) id (f p) := by
  obtain ⟨hpending, hcalls, htransport, hfailed⟩ := h
  rw [advance_eq hpending]
  cases hf : f p with
  | waiting p' =>
    obtain ⟨hsent, hfailed'⟩ := hkeep p' hf
    exact ⟨Function.update_self .., hcalls, hsent ▸ htransport, hfailed'.trans hfailed⟩
  | cancelled => exact ⟨Function.update_self .., hcalls⟩
  | finished r =>
    refine ⟨Function.update_self .., ?_⟩
    rw [UpstreamClient.proceed, callsOf_cons, if_pos rfl, hcalls]

theorem advance_gone (hp : c.pending id = none) : c.advance id f = c := by
  rw [UpstreamClient.advance, hp]

end Advance

theorem nextId_advance (c : UpstreamClient) (i : ℕ) (f : Pending → Progress) :
    (c.advance i f).nextId = c.nextId ∧ (c.advance i f).spoofThreshold = c.spoofThreshold := by
  unfold UpstreamClient.advance
  cases c.pending i with
  | none => exact ⟨rfl, rfl⟩
  | some p => cases hf : f p <;> (simp only [hf]; exact ⟨rfl, rfl⟩)

theorem nextId_apply (c : UpstreamClient) (e : Event) :
    c.nextId ≤ (apply c e).nextId ∧ (apply c e).spoofThreshold = c.spoofThreshold := by
  cases e with
  | send query transport matchCase txid failed => exact ⟨Nat.le_succ _, rfl⟩
  | readable i received | tcp i hangUp modifyFails written received | timer i | cancel i =>
    exact ⟨(nextId_advance ..).1.ge, (nextId_advance ..).2⟩

/-- **One event, as the query sees it.** -/
theorem tracks_apply {progress : Progress} (hid : id < c.nextId) (h : Tracks c id progress)
    (e : Event) : Tracks (apply c e) id (takeAll c.spoofThreshold progress (inputsOf id e)) := by
  -- an event about this query, if it is waiting, and nothing if it is gone
  have hown : ∀ (f : Pending → Progress) (xs : List Input),
      (∀ p, Tracks c id (.waiting p) → f p = takeAll c.spoofThreshold (.waiting p) xs) →
        Tracks (c.advance id f) id (takeAll c.spoofThreshold progress xs) := by
    intro f xs hf
    cases progress with
    | waiting p =>
      rw [← hf p h]
      exact h.own fun p' hp' => takeAll_waiting xs p ((hf p h).symm.trans hp')
    | finished r =>
      rw [takeAll_finished, advance_gone h.1]
      exact h
    | cancelled =>
      rw [takeAll_cancelled, advance_gone h.1]
      exact h
  cases e with
  | send query transport matchCase txid failed =>
    have hne : id ≠ c.nextId := Nat.ne_of_lt hid
    have hpending : (apply c (.send query transport matchCase txid failed)).pending id = c.pending id :=
      Function.update_of_ne hne _ _
    show Tracks _ _ (takeAll _ progress [])
    rw [takeAll_nil]
    cases progress <;> (unfold Tracks at h ⊢; rw [hpending]; exact h)
  | readable i received =>
    simp only [inputsOf]
    split_ifs with hi
    · subst hi
      refine hown _ _ fun p hp => ?_
      rw [if_pos ⟨hp.2.2.1, by simp [hp.2.2.2]⟩, readLoop_eq]
    · rw [takeAll_nil]
      exact h.other hi
  | tcp i hangUp modifyFails written received =>
    show Tracks _ _ (takeAll _ progress [])
    by_cases hi : i = id
    · subst hi
      refine hown _ _ fun p hp => ?_
      rw [if_neg (by simp [hp.2.2.1]), takeAll_nil]
    · rw [takeAll_nil]
      exact h.other hi
  | timer i =>
    simp only [inputsOf]
    split_ifs with hi
    · subst hi
      exact hown _ [.timeout] fun _ _ => rfl
    · rw [takeAll_nil]
      exact h.other hi
  | cancel i =>
    simp only [inputsOf]
    split_ifs with hi
    · subst hi
      exact hown _ [.cancelled] fun _ _ => rfl
    · rw [takeAll_nil]
      exact h.other hi

/-- **A run, as the query sees it.** -/
theorem tracks_run : ∀ (es : List Event) (c : UpstreamClient) (progress : Progress), id < c.nextId →
    Tracks c id progress → Tracks (run c es) id (takeAll c.spoofThreshold progress (inputs id es))
  | [], c, progress, _, h => by
    show Tracks c id (takeAll _ progress [])
    rwa [takeAll_nil]
  | e :: es, c, progress, hid, h => by
    obtain ⟨hnext, hthreshold⟩ := nextId_apply c e
    have ih := tracks_run es (apply c e) _ (hid.trans_le hnext) (tracks_apply hid h e)
    rw [hthreshold, ← takeAll_append] at ih
    exact ih

/-- IDs from `next_id_` on have not been used. -/
def Fresh (c : UpstreamClient) : Prop := ∀ id, c.nextId ≤ id → Tracks c id .cancelled

theorem Fresh.advance (h : Fresh c) (i : ℕ) (f : Pending → Progress) : Fresh (c.advance i f) := by
  intro id hid
  rw [(nextId_advance c i f).1] at hid
  by_cases hi : i = id
  · subst hi
    rw [advance_gone (h i hid).1]
    exact h i hid
  · exact (h id hid).other hi

theorem fresh_apply (h : Fresh c) (e : Event) : Fresh (apply c e) := by
  cases e with
  | send query transport matchCase txid failed =>
    intro id hid
    have hlt : c.nextId < id := hid
    obtain ⟨hpending, hcalls⟩ := h id hlt.le
    exact ⟨(Function.update_of_ne hlt.ne' _ _).trans hpending, hcalls⟩
  | readable i received | tcp i hangUp modifyFails written received | timer i | cancel i =>
    exact h.advance i _

theorem fresh_run : ∀ (es : List Event) (c : UpstreamClient), Fresh c →
    Fresh (run c es) ∧ (run c es).spoofThreshold = c.spoofThreshold
  | [], _, h => ⟨h, rfl⟩
  | e :: es, c, h => by
    obtain ⟨hfresh, hthreshold⟩ := fresh_run es (apply c e) (fresh_apply h e)
    exact ⟨hfresh, hthreshold.trans (nextId_apply c e).2⟩

theorem fresh_start (t : UInt32) : Fresh { spoofThreshold := t } := fun _ _ => ⟨rfl, rfl⟩

/-! ### Which datagrams match -/

/-- A response with the ID of the query and only its question, `q`, in any letter case. -/
structure Fits (s : Sent) (m : Message) (q : Question) : Prop where
  qr : m.header.qr = true
  id : m.header.id = s.txid
  questions : m.questions = [q]
  same : (q == s.question) = true

/-- The datagram has this message, and it is the reply to the query. -/
def Reply (s : Sent) (data : List UInt8) (m : Message) : Prop :=
  parse data = .ok m ∧ ∃ q, Fits s m q ∧ (s.matchCase = true → sameCase q.qname s.question.qname = true)

/-- The datagram is not the reply, for its letter case only. -/
def OnlyCase (s : Sent) (data : List UInt8) : Prop :=
  ∃ m q, parse data = .ok m ∧ Fits s m q ∧ s.matchCase = true ∧
    sameCase q.qname s.question.qname = false

theorem matchReply_ok (s : Sent) (m : Message) :
    (∃ q, Fits s m q ∧ matchReply (.ok m) s =
      if s.matchCase && !sameCase q.qname s.question.qname then .wrongCase else .yes) ∨
    (¬ ∃ q, Fits s m q) ∧ matchReply (.ok m) s = .no := by
  unfold matchReply
  dsimp only
  split
  · next q hq =>
    by_cases hno : (!m.header.qr || m.header.id != s.txid || !(q == s.question)) = true
    · rw [if_pos hno]
      refine .inr ⟨?_, rfl⟩
      rintro ⟨q', hqr, hid, hq', hsame⟩
      obtain rfl : q = q' := by simpa [hq] using hq'
      simp [hqr, hid, hsame] at hno
    · rw [if_neg hno]
      simp only [Bool.or_eq_true, not_or, Bool.not_eq_true', bne_iff_ne, ne_eq, not_not,
        Bool.not_eq_false] at hno
      exact .inl ⟨q, ⟨hno.1.1, hno.1.2, hq, hno.2⟩, rfl⟩
  · next hne =>
    refine .inr ⟨?_, rfl⟩
    rintro ⟨q, hfits⟩
    exact hne q hfits.questions

theorem Fits.unique {q q' : Question} (h : Fits s m q) (h' : Fits s m q') : q = q' := by
  have heq := h.questions.symm.trans h'.questions
  simpa using heq

/-- A datagram is the reply, or wrong in its letter case only, or neither. -/
theorem matchReply_yes : matchReply (parse data) s = .yes ↔ ∃ m, Reply s data m := by
  unfold Reply
  cases hparse : parse data with
  | error e => simp [matchReply]
  | ok m =>
    simp only [Except.ok.injEq, exists_eq_left']
    rcases matchReply_ok s m with ⟨q, hfits, hmatch⟩ | ⟨hnone, hmatch⟩
    · rw [hmatch]
      constructor
      · intro h
        refine ⟨q, hfits, fun hcase => ?_⟩
        by_contra hne
        simp [hcase, hne] at h
      · rintro ⟨q', hfits', hcase⟩
        obtain rfl := hfits.unique hfits'
        rw [if_neg]
        intro hwrong
        simp only [Bool.and_eq_true, Bool.not_eq_true'] at hwrong
        simp [hcase hwrong.1] at hwrong
    · rw [hmatch]
      simp only [reduceCtorEq, false_iff]
      exact fun ⟨q, hfits, _⟩ => hnone ⟨q, hfits⟩

theorem matchReply_wrongCase : matchReply (parse data) s = .wrongCase ↔ OnlyCase s data := by
  unfold OnlyCase
  cases hparse : parse data with
  | error e => simp [matchReply]
  | ok m =>
    simp only [Except.ok.injEq, exists_and_left, exists_eq_left']
    rcases matchReply_ok s m with ⟨q, hfits, hmatch⟩ | ⟨hnone, hmatch⟩
    · rw [hmatch]
      constructor
      · intro h
        split_ifs at h with hwrong
        simp only [Bool.and_eq_true, Bool.not_eq_true'] at hwrong
        exact ⟨q, hfits, hwrong.1, hwrong.2⟩
      · rintro ⟨q', hfits', hcase, hwrong⟩
        obtain rfl := hfits.unique hfits'
        rw [if_pos]
        simp [hcase, hwrong]
    · rw [hmatch]
      simp only [reduceCtorEq, false_iff]
      exact fun ⟨q, hfits, _⟩ => hnone ⟨q, hfits⟩

theorem receive_reply (h : Reply p.sent data m) : receive t p data = .finished (.ok m) := by
  have hyes := matchReply_yes.mpr ⟨m, h⟩
  unfold receive
  rw [hyes, h.1]

theorem receive_forged (h : ¬ ∃ m, Reply p.sent data m) :
    receive t p data = suspect t p (matchReply (parse data) p.sent == .wrongCase) := by
  have hno : matchReply (parse data) p.sent ≠ .yes := fun hyes => h (matchReply_yes.mp hyes)
  unfold receive
  split
  · next hyes => exact absurd hyes hno
  · rfl

/-! ### The input that decides -/

/-- A datagram that is not the reply. -/
def Forged (s : Sent) : Input → Prop
  | .datagram data => ¬ ∃ m, Reply s data m
  | _ => False

instance instDecidableForged (s : Sent) : DecidablePred (Forged s)
  | .datagram _ => decidable_of_iff _ (not_congr matchReply_yes)
  | .error => isFalse fun h => h
  | .timeout => isFalse fun h => h
  | .cancelled => isFalse fun h => h

/-- So many forged datagrams do not end the query. -/
def Below (t : UInt32) (n : ℕ) : Prop := t = 0 ∨ n < t.toNat

instance instDecidableBelow (t : UInt32) (n : ℕ) : Decidable (Below t n) :=
  inferInstanceAs (Decidable (_ ∨ _))

/-- Inputs that decide nothing. -/
structure Passed (t : UInt32) (s : Sent) (xs : List Input) : Prop where
  forged : ∀ x ∈ xs, Forged s x
  below : Below t xs.length

/-- Some of the inputs is the reply but for its letter case. -/
def CaseSeen (s : Sent) (xs : List Input) : Prop := ∃ data, .datagram data ∈ xs ∧ OnlyCase s data

/-- What the callback is called with, if the inputs `pre` decided nothing and `x` comes next. -/
def Decides (t : UInt32) (s : Sent) (pre : List Input) : Input → Completion → Prop
  | .datagram data, r => (∃ m, Reply s data m ∧ r = .ok m) ∨
      (¬ ∃ m, Reply s data m) ∧ pre.length + 1 = t.toNat ∧ r = .error .spoofSuspected
  | .error, r => r = .error .networkError
  | .timeout, r => CaseSeen s pre ∧ r = .error .caseMismatch ∨ ¬ CaseSeen s pre ∧ r = .error .timeout
  | .cancelled, _ => False

/-- The query after inputs that decided nothing. -/
structure Counts (t : UInt32) (s : Sent) (xs : List Input) (p : Pending) : Prop where
  sent : p.sent = s
  failed : p.failed = false
  wrongCase : p.wrongCaseSeen = true ↔ CaseSeen s xs
  suspicious : t ≠ 0 → p.suspicious.toNat = xs.length

theorem caseSeen_snoc : CaseSeen s (xs ++ [.datagram data]) ↔ CaseSeen s xs ∨ OnlyCase s data := by
  unfold CaseSeen
  constructor
  · rintro ⟨d, hd, honly⟩
    rcases List.mem_append.mp hd with hd | hd
    · exact .inl ⟨d, hd, honly⟩
    · obtain rfl := Input.datagram.inj (List.mem_singleton.mp hd)
      exact .inr honly
  · rintro (⟨d, hd, honly⟩ | honly)
    · exact ⟨d, List.mem_append_left _ hd, honly⟩
    · exact ⟨data, List.mem_append_right _ List.mem_cons_self, honly⟩

theorem Passed.init (h : Passed t s (xs ++ [x])) : Passed t s xs := by
  refine ⟨fun y hy => h.forged y (List.mem_append_left _ hy), ?_⟩
  have hbelow := h.below
  rw [List.length_append, List.length_singleton] at hbelow
  exact hbelow.imp_right fun hlt => by omega

theorem Counts.next (h : Counts t s xs p) (hforged : ¬ ∃ m, Reply s data m)
    (hxs : Below t xs.length) :
    (Below t (xs.length + 1) → ∃ p', receive t p data = .waiting p' ∧
      Counts t s (xs ++ [.datagram data]) p') ∧
    (¬ Below t (xs.length + 1) → receive t p data = .finished (.error .spoofSuspected)) := by
  have hsent : ¬ ∃ m, Reply p.sent data m := by rwa [h.sent]
  have hcase : (p.wrongCaseSeen || matchReply (parse data) p.sent == .wrongCase) = true ↔
      CaseSeen s (xs ++ [.datagram data]) := by
    rw [caseSeen_snoc, Bool.or_eq_true, h.wrongCase, beq_iff_eq, matchReply_wrongCase, h.sent]
  rw [receive_forged hsent]
  unfold suspect
  dsimp only
  by_cases ht : t = 0
  · rw [if_neg (by simp [ht])]
    exact ⟨fun _ => ⟨_, rfl, h.sent, h.failed, hcase, fun hne => absurd ht hne⟩,
      fun hnot => absurd (.inl ht) hnot⟩
  · have hlt : xs.length < t.toNat := hxs.resolve_left ht
    have hmax : t.toNat < 2 ^ 32 := t.toNat_lt
    have hmore : (p.suspicious + 1).toNat = xs.length + 1 := by
      rw [UInt32.toNat_add, h.suspicious ht]
      exact Nat.mod_eq_of_lt (show xs.length + 1 < 2 ^ 32 by omega)
    rw [if_pos ht]
    constructor
    · intro hbelow
      have hle : ¬ t ≤ p.suspicious + 1 := by
        rw [UInt32.le_iff_toNat_le, hmore]
        exact Nat.not_le.mpr (hbelow.resolve_left ht)
      rw [if_neg hle]
      refine ⟨_, rfl, h.sent, h.failed, hcase, fun _ => ?_⟩
      rw [List.length_append]
      exact hmore
    · intro hnot
      rw [if_pos]
      rw [UInt32.le_iff_toNat_le, hmore]
      exact Nat.not_lt.mp fun hlt' => hnot (.inr hlt')

theorem takeAll_passed (h : Passed t s xs) :
    ∃ p, takeAll t (.waiting { sent := s }) xs = .waiting p ∧ Counts t s xs p := by
  induction xs using List.reverseRecOn with
  | nil => exact ⟨_, rfl, rfl, rfl, by simp [CaseSeen], fun _ => rfl⟩
  | append_singleton xs x ih =>
    obtain ⟨p, hp, hcounts⟩ := ih h.init
    have hforged := h.forged x (by simp)
    have hbelow := h.below
    rw [List.length_append, List.length_singleton] at hbelow
    cases x with
    | datagram data =>
      obtain ⟨p', hp', hcounts'⟩ := (hcounts.next hforged h.init.below).1 hbelow
      refine ⟨p', ?_, hcounts'⟩
      rw [takeAll_append, hp]
      show takeAll t (receive t p data) [] = _
      rw [hp', takeAll_nil]
    | error | timeout | cancelled => exact hforged.elim

theorem takeAll_decides (hpre : Passed t s pre) (h : Decides t s pre x r) :
    takeAll t (.waiting { sent := s }) (pre ++ x :: rest) = .finished r := by
  obtain ⟨p, hp, hcounts⟩ := takeAll_passed hpre
  rw [takeAll_append, hp]
  have htake : take t p x = .finished r := by
    cases x with
    | datagram data =>
      rcases h with ⟨m, hreply, rfl⟩ | ⟨hforged, hlast, rfl⟩
      · exact receive_reply (hcounts.sent ▸ hreply)
      · refine (hcounts.next hforged hpre.below).2 ?_
        rintro (rfl | hlt)
        · exact absurd hlast (by simp)
        · omega
    | error =>
      obtain rfl : r = .error .networkError := h
      rfl
    | timeout =>
      rcases h with ⟨hseen, rfl⟩ | ⟨hseen, rfl⟩
      · simp [take, onTimeout, hcounts.failed, hcounts.wrongCase.mpr hseen]
      · have hfalse : p.wrongCaseSeen = false := by
          rw [← Bool.not_eq_true, hcounts.wrongCase]
          exact hseen
        simp [take, onTimeout, hcounts.failed, hfalse]
    | cancelled => exact h.elim
  show takeAll t (take t p x) rest = _
  rw [htake, takeAll_finished]

/-- Nothing has decided, or there is a first input that did. -/
theorem passed_or_decides (t : UInt32) (s : Sent) (xs : List Input) : Passed t s xs ∨
    ∃ pre x rest, xs = pre ++ x :: rest ∧ Passed t s pre ∧ (x = .cancelled ∨ ∃ r, Decides t s pre x r) := by
  induction xs using List.reverseRecOn with
  | nil =>
    refine .inl ⟨by simp, ?_⟩
    by_cases ht : t = 0
    · exact .inl ht
    · exact .inr (Nat.pos_of_ne_zero fun h => ht (UInt32.toNat_inj.mp h))
  | append_singleton xs x ih =>
    rcases ih with hpassed | ⟨pre, y, rest, rfl, hpre, hdecides⟩
    · cases x with
      | cancelled => exact .inr ⟨xs, .cancelled, [], rfl, hpassed, .inl rfl⟩
      | error => exact .inr ⟨xs, .error, [], rfl, hpassed, .inr ⟨_, rfl⟩⟩
      | timeout =>
        refine .inr ⟨xs, .timeout, [], rfl, hpassed, .inr ?_⟩
        by_cases hseen : CaseSeen s xs
        · exact ⟨_, .inl ⟨hseen, rfl⟩⟩
        · exact ⟨_, .inr ⟨hseen, rfl⟩⟩
      | datagram data =>
        by_cases hreply : ∃ m, Reply s data m
        · obtain ⟨m, hm⟩ := hreply
          exact .inr ⟨xs, .datagram data, [], rfl, hpassed, .inr ⟨_, .inl ⟨m, hm, rfl⟩⟩⟩
        by_cases hbelow : Below t (xs.length + 1)
        · refine .inl ⟨fun y hy => ?_, by rwa [List.length_append]⟩
          rcases List.mem_append.mp hy with hy | hy
          · exact hpassed.forged y hy
          · rw [List.mem_singleton.mp hy]
            exact hreply
        · refine .inr ⟨xs, .datagram data, [], rfl, hpassed, .inr ⟨_, .inr ⟨hreply, ?_, rfl⟩⟩⟩
          have hlast := hpassed.below
          unfold Below at hlast hbelow
          push Not at hbelow
          have hlt := hlast.resolve_left hbelow.1
          omega
    · exact .inr ⟨pre, y, rest ++ [x], by simp, hpre, hdecides⟩

theorem takeAll_eq_finished_iff : takeAll t (.waiting { sent := s }) xs = .finished r ↔
    ∃ pre x rest, xs = pre ++ x :: rest ∧ Passed t s pre ∧ Decides t s pre x r := by
  constructor
  · intro h
    rcases passed_or_decides t s xs with hpassed | ⟨pre, x, rest, rfl, hpre, hx⟩
    · obtain ⟨p, hp, -⟩ := takeAll_passed hpassed
      rw [hp] at h
      simp at h
    rcases hx with rfl | ⟨r', hdecides⟩
    · obtain ⟨p, hp, -⟩ := takeAll_passed hpre
      have hcancelled : takeAll t (.waiting p) (.cancelled :: rest) = .cancelled := takeAll_cancelled
      rw [takeAll_append, hp, hcancelled] at h
      simp at h
    · rw [takeAll_decides hpre hdecides] at h
      obtain rfl := Progress.finished.inj h
      exact ⟨pre, x, rest, rfl, hpre, hdecides⟩
  · rintro ⟨pre, x, rest, rfl, hpre, hdecides⟩
    exact takeAll_decides hpre hdecides

/-! ### Every query over UDP -/

/-- What becomes of a query over UDP with these inputs. -/
structure Decided (t : UInt32) (s : Sent) (xs : List Input) (calls : List Completion) : Prop where
  once : calls.length ≤ 1
  first : ∀ r, calls = [r] ↔
    ∃ pre x rest, xs = pre ++ x :: rest ∧ Passed t s pre ∧ Decides t s pre x r

theorem decided_of_tracks (h : Tracks c id (takeAll t (.waiting { sent := s }) xs)) :
    Decided t s xs (callsOf c id) := by
  have hcalls : (callsOf c id).length ≤ 1 ∧
      ∀ r, callsOf c id = [r] ↔ takeAll t (.waiting { sent := s }) xs = .finished r := by
    cases hall : takeAll t (.waiting { sent := s }) xs with
    | waiting p =>
      rw [hall] at h
      simp [h.2.1]
    | cancelled | finished r' =>
      rw [hall] at h
      simp [h.2]
  exact ⟨hcalls.1, fun r => (hcalls.2 r).trans takeAll_eq_finished_iff⟩

/-- The inputs without the forged datagrams. -/
def genuine (s : Sent) (xs : List Input) : List Input := xs.filter fun x => ¬ Forged s x

/-- An answer depends on the genuine inputs only, if there are few forged ones. -/
theorem Decided.answer {calls calls' : List Completion} (h : Decided t s xs calls)
    (h' : Decided t s ys calls') (hsame : genuine s xs = genuine s ys)
    (hfew : Below t (ys.countP fun y => Forged s y)) (hanswer : calls = [.ok m]) :
    calls' = [.ok m] := by
  obtain ⟨pre, x, rest, rfl, hpre, hdecides⟩ := (h.first (.ok m)).mp hanswer
  cases x with
  | error | timeout => simp [Decides] at hdecides
  | cancelled => exact hdecides.elim
  | datagram data =>
    rcases hdecides with ⟨m', hreply, hm⟩ | ⟨-, -, hm⟩
    · obtain rfl := Except.ok.inj hm
      have hgenuine : genuine s (pre ++ .datagram data :: rest) = .datagram data :: genuine s rest := by
        have hpre' : pre.filter (fun x => ¬ Forged s x) = [] :=
          List.filter_eq_nil_iff.mpr fun x hx => by simpa using hpre.forged x hx
        have hnot : ¬ Forged s (.datagram data) := fun hforged => hforged ⟨m, hreply⟩
        unfold genuine
        rw [List.filter_append, hpre', List.nil_append, List.filter_cons_of_pos (by simpa using hnot)]
      rw [hgenuine] at hsame
      obtain ⟨pre', rest', rfl, hforged, -, -⟩ := List.filter_eq_cons_iff.mp hsame.symm
      have hall : ∀ y ∈ pre', Forged s y := fun y hy => by simpa using hforged y hy
      have hcount : pre'.countP (fun y => Forged s y) = pre'.length :=
        List.countP_eq_length.mpr fun y hy => by simpa using hall y hy
      rw [List.countP_append, hcount] at hfew
      refine (h'.first _).mpr ⟨pre', .datagram data, rest', rfl, ⟨hall, ?_⟩, .inl ⟨m, hreply, rfl⟩⟩
      exact hfew.imp_right fun hlt => by omega
    · simp at hm

/-- **Forged datagrams cannot decide a query over UDP**, whatever else the client does before and
meanwhile: the callback is called at most once, with what the first deciding input says; and the
answer is the same without the forged datagrams, if there are fewer of them than the threshold. -/
theorem udp_query_decided (t : UInt32) (before after : List Event) (query : Message) (matchCase : Bool)
    (txid : UInt16) :
    let c := run { spoofThreshold := t } before
    let s : Sent := ⟨.udp, txid, query.questions.headD {}, matchCase⟩
    let calls (es : List Event) := callsOf (run (apply c (.send query .udp matchCase txid false)) es) c.nextId
    Decided t s (inputs c.nextId after) (calls after) ∧
      ∀ after', genuine s (inputs c.nextId after') = genuine s (inputs c.nextId after) →
        Below t ((inputs c.nextId after).countP fun x => Forged s x) →
        Below t ((inputs c.nextId after').countP fun x => Forged s x) →
        ∀ m, calls after = [.ok m] ↔ calls after' = [.ok m] := by
  intro c s calls
  obtain ⟨hfresh, hthreshold⟩ := fresh_run before { spoofThreshold := t } (fresh_start t)
  have hstart : Tracks (apply c (.send query .udp matchCase txid false)) c.nextId
      (.waiting { sent := s }) :=
    ⟨Function.update_self .., (hfresh c.nextId le_rfl).2, rfl, rfl⟩
  have hdecided : ∀ es, Decided t s (inputs c.nextId es) (calls es) := by
    intro es
    have htracks := tracks_run es _ _ (Nat.lt_succ_self c.nextId) hstart
    have hsame : (apply c (.send query .udp matchCase txid false)).spoofThreshold = t := hthreshold
    rw [hsame] at htracks
    exact decided_of_tracks htracks
  refine ⟨hdecided after, fun after' hgenuine hfew hfew' m => ?_⟩
  exact ⟨(hdecided after).answer (hdecided after') hgenuine.symm hfew',
    (hdecided after').answer (hdecided after) hgenuine hfew⟩

def sampleQuery : Message := { questions := [{ qname := ⟨[[97]], [[65]]⟩, qtype := RRType.A }] }

/-- The reply to it, as it is sent. -/
def sampleReply : List UInt8 :=
  build (makeResponse { sampleQuery with header := { sampleQuery.header with id := 7 } })

/-- A datagram that is no message comes before the reply, and changes nothing. -/
theorem udp_query_decided_forged :
    ∃ m, callsOf (run (apply { spoofThreshold := 2 } (.send sampleQuery .udp true 7 false))
      [.readable 1 [.bytes [1, 2, 3], .interrupted], .readable 1 [.bytes sampleReply]]) 1 =
        [.ok m] := by
  obtain ⟨m, hm⟩ : ∃ m, callsOf (run (apply { spoofThreshold := 2 }
      (.send sampleQuery .udp true 7 false)) [.readable 1 [.bytes sampleReply]]) 1 = [.ok m] :=
    ⟨_, rfl⟩
  refine ⟨m, ((udp_query_decided 2 [] _ sampleQuery true 7).2 [.readable 1 [.bytes sampleReply]]
    ?_ ?_ ?_ m).mpr hm⟩
  all_goals decide +kernel

/-! ### The contract

The resolver's own model says of an upstream query only how it can complete. -/

theorem allowed_of_decided {calls : List Completion} (h : Decided t s xs calls) (hr : calls = [r])
    {cfg : Config} {now : ℕ} {q : Machine.Pending} (ht : cfg.spoofTcpThreshold = t)
    (hq : (⟨q.transport, q.txid, q.question, q.matchCase⟩ : Sent) = s) (hudp : s.transport = .udp)
    (htimeout : .timeout ∈ xs → q.timeoutAt ≤ now) : Machine.allowed cfg now q r = true := by
  subst hq
  obtain ⟨pre, x, rest, rfl, hpre, hdecides⟩ := (h.first r).mp hr
  have htransport : q.transport = .udp := hudp
  cases x with
  | datagram data =>
    rcases hdecides with ⟨m, hreply, rfl⟩ | ⟨-, hlast, rfl⟩
    · have hyes := matchReply_yes.mpr ⟨m, hreply⟩
      rw [hreply.1] at hyes
      show (Machine.matchResponse m q == .yes) = true
      rw [beq_iff_eq]
      exact hyes
    · have hne : t ≠ 0 := by
        rintro rfl
        exact absurd hlast (by simp)
      simp [Machine.allowed, htransport, ht, hne]
  | error =>
    obtain rfl : r = .error .networkError := hdecides
    rfl
  | timeout =>
    have hdue := htimeout (by simp)
    rcases hdecides with ⟨⟨data, hdata, m, q', -, -, hcase, -⟩, rfl⟩ | ⟨-, rfl⟩
    · have hmatch : q.matchCase = true := hcase
      simp [Machine.allowed, hmatch, hdue]
    · simp [Machine.allowed, hdue]
  | cancelled => exact hdecides.elim

end DNSentinel.Resolver.Upstream
