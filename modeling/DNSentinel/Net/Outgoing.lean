import Mathlib.Data.List.Nodup
import DNSentinel.Net.Framing
import DNSentinel.Wire.Datagram

/-! # Responses in a byte stream

What the listener writes on a connection. `respond` appends the frame of a response to `out`; `flush`
writes from the front of `out` as much as the kernel takes, at any point of any event, and stops in the
middle of a frame. The listener is watched by a `Tap`, which has the responses that were queued and the
bytes that the kernel took. Together with `out` these always are the frames of the responses
(`Flows`). -/

namespace DNSentinel.Net.Outgoing

open DNSentinel.Types Lib.Runs Lib.Streams Wire.Builder
open Wire.ByteIo (putU16 u16_put toNat_u16)
open Tcp Tcp.TcpListener Connections Framing

variable {l l' : TcpListener} {c c' : Connection} {io : Io} {id r : ℕ} {after : After} {e : Event}

/-! ### The bytes that are written -/

/-- What the kernel takes in the loop of `flush`, also if the client is gone after that. -/
def takenLoop (size : ℕ) : List Sent → ℕ → ℕ
  | [], sent => sent
  | s :: rest, sent =>
    if sent < size then
      match s with
      | .sent n => takenLoop size rest (sent + min n (size - sent))
      | _ => sent
    else sent

/-- The bytes that `flush` writes. -/
def flushed (io : Io) (c : Connection) : List UInt8 :=
  c.out.take (takenLoop c.out.length io.sends 0)

/-- Whether `flush` is called after `process_messages`. -/
def flushes : After → Bool
  | .respond => false
  | .onEvent writable => writable

def writtenAfterwards (io : Io) (after : After) (c : Connection) : List UInt8 :=
  if c.isOpen && flushes after then flushed io c else []

/-- `process_messages` up to the next call of the handler. -/
def writtenInLoop (io : Io) (c : Connection) (used : ℕ) (after : After) : List UInt8 :=
  match turn c used with
  | .stop => writtenAfterwards io after c
  | _ => []

def writtenProcessing (io : Io) (c : Connection) (after : After) : List UInt8 :=
  if c.processing then writtenAfterwards io after c
  else writtenInLoop io { c with processing := true } 0 after

def writtenResponding (io : Io) (c : Connection) (response : Message) : List UInt8 :=
  if c.isOpen then flushed io { c with out := c.out ++ buildTcp response } else []

def writtenReading (io : Io) (c : Connection) (after : After) : Recv → List UInt8
  | .error => []
  | .data bytes => writtenProcessing io { c with input := c.input ++ bytes } after
  | _ => writtenAfterwards io after c

def writtenOnEvent (io : Io) (c : Connection) (hangup : Bool) (readable : Option Recv)
    (writable : Bool) : List UInt8 :=
  if hangup then []
  else
    match readable with
    | some recv => writtenReading io c (.onEvent writable) recv
    | none => writtenAfterwards io (.onEvent writable) c

/-- The bytes that an event writes on a connection. -/
def written (l : TcpListener) (id : ℕ) : Event → List UInt8
  | .ready id' hangup readable writable io =>
    if id' = id ∧ id ∈ l.connections then
      ((l.objects id).map fun c => writtenOnEvent io c hangup readable writable).getD []
    else []
  | .respond r response io =>
    if l.connectionOf r = some id then
      ((l.objects id).map fun c => writtenResponding io c response).getD []
    else []
  | .handled io =>
    match l.stack with
    | [] => []
    | f :: _ =>
      if f.connection = id then
        ((l.objects id).map fun c => writtenInLoop io c f.used f.after).getD []
      else []
  | _ => []

/-- The response that an event queues on a connection, with its responder. -/
def queued (l : TcpListener) (id : ℕ) : Event → List (ℕ × Message)
  | .respond r response _ =>
    if l.connectionOf r = some id ∧ (l.objects id).any (·.isOpen) then [(r, response)] else []
  | _ => []

/-! ### The tap -/

structure Tap where
  listener : TcpListener
  /-- the responses queued on each connection, oldest first -/
  responses : ℕ → List (ℕ × Message) := fun _ => []
  /-- the bytes written on each connection -/
  wire : ℕ → List UInt8 := fun _ => []

def apply (t : Tap) (e : Event) : Option Tap :=
  (Tcp.apply t.listener e).map fun l =>
    { listener := l
      responses := fun id => t.responses id ++ queued t.listener id e
      wire := fun id => t.wire id ++ written t.listener id e }

/-- **One event of a run that is watched.** -/
def Step (t : Tap) (e : Event) (t' : Tap) : Prop := apply t e = some t'

/-- The frames of responses. -/
def framesOf (rs : List (ℕ × Message)) : List UInt8 := rs.flatMap fun x => buildTcp x.2

theorem framesOf_append (rs more : List (ℕ × Message)) :
    framesOf (rs ++ more) = framesOf rs ++ framesOf more := List.flatMap_append

/-! ### What a function does to `out` -/

/-- From `c` to `c'` the bytes `w` were written, off the front of `out`. -/
structure Carries (c : Connection) (w : List UInt8) (c' : Connection) : Prop where
  wrote : w <+: c.out
  kept : c'.isOpen = true → c.isOpen = true ∧ w ++ c'.out = c.out
  shut : c.isOpen = false → w = []

theorem Carries.quiet (hout : c'.out = c.out) (hopen : c'.isOpen = true → c.isOpen = true) :
    Carries c [] c' where
  wrote := List.nil_prefix
  kept h := ⟨hopen h, hout⟩
  shut _ := rfl

theorem Carries.finish {w : List UInt8} {c₁ : Connection} (h : Carries c w c₁)
    (hlast : Carries c₁ [] c') : Carries c w c' where
  wrote := h.wrote
  kept hopen := by
    obtain ⟨hopen₁, hout⟩ := hlast.kept hopen
    obtain ⟨hopen, hall⟩ := h.kept hopen₁
    have hsame : c'.out = c₁.out := hout
    exact ⟨hopen, hsame ▸ hall⟩
  shut := h.shut

theorem Carries.begin {w : List UInt8} {c₁ : Connection} (h : Carries c₁ w c') (hout : c₁.out = c.out)
    (hopen : c₁.isOpen = c.isOpen) : Carries c w c' where
  wrote := hout ▸ h.wrote
  kept hopen' := by
    obtain ⟨hopen₁, hall⟩ := h.kept hopen'
    exact ⟨hopen ▸ hopen₁, hout ▸ hall⟩
  shut hclosed := h.shut (hopen.trans hclosed)

theorem Carries.of_closed {w : List UInt8} {c₁ : Connection} (hclosed : c₁.isOpen = false)
    (h : Carries c₁ w c') : Carries c [] c' where
  wrote := List.nil_prefix
  kept hopen := absurd (hclosed.symm.trans (h.kept hopen).1) Bool.false_ne_true
  shut _ := rfl

theorem takenLoop_of_sendLoop {size n : ℕ} : ∀ {sends : List Sent} {sent : ℕ},
    sendLoop size sends sent = some n → takenLoop size sends sent = n
  | [], sent, h => Option.some.inj h
  | s :: rest, sent, h => by
    unfold sendLoop at h
    unfold takenLoop
    split_ifs at h ⊢ with hmore
    · cases s with
      | sent n => exact takenLoop_of_sendLoop h
      | again => exact Option.some.inj h
      | error => cases h
    · exact Option.some.inj h

theorem carries_flush (io : Io) (l : TcpListener) (c : Connection) (hopen : c.isOpen = true) :
    Carries c (flushed io c) (l.flush io c).2 := by
  have hshut : c.isOpen = false → flushed io c = [] := fun hclosed =>
    absurd (hclosed.symm.trans hopen) Bool.false_ne_true
  refine ⟨List.take_prefix _ _, fun hstays => ⟨hopen, ?_⟩, hshut⟩
  unfold flush at hstays ⊢
  split at hstays
  · exact absurd hstays Bool.false_ne_true
  · next sent hsent =>
    unfold flushed
    rw [takenLoop_of_sendLoop hsent]
    split_ifs with hsome
    · exact List.take_append_drop sent c.out
    · obtain rfl : sent = 0 := by omega
      rfl

theorem carries_update (io : Io) (l : TcpListener) (c : Connection) :
    Carries c [] (l.update io c).2 := by
  unfold TcpListener.update
  dsimp only
  split_ifs
  · exact .quiet rfl fun h => absurd h Bool.false_ne_true
  all_goals exact .quiet rfl fun h => h

theorem carries_afterwards (io : Io) (after : After) (l : TcpListener) (c : Connection) :
    Carries c (writtenAfterwards io after c) (afterwards io after l c).2 := by
  have hupdate : ∀ (l : TcpListener) (c : Connection),
      Carries c [] (if c.isOpen then l.update io c else (l, c)).2 := by
    intro l c
    split_ifs
    · exact carries_update io l c
    · exact .quiet rfl fun h => h
  cases after with
  | respond =>
    unfold writtenAfterwards
    rw [if_neg (by simp [flushes])]
    exact hupdate l c
  | onEvent writable =>
    unfold afterwards writtenAfterwards flushes
    dsimp only
    by_cases hflush : (c.isOpen && writable) = true
    · rw [if_pos hflush, if_pos hflush]
      rw [Bool.and_eq_true] at hflush
      exact (carries_flush io l c hflush.1).finish (hupdate _ _)
    · rw [if_neg hflush, if_neg hflush]
      exact hupdate l c

theorem carries_afterwards_of (io : Io) (after : After) (l : TcpListener) (hout : c'.out = c.out)
    (hopen : c'.isOpen = c.isOpen) :
    Carries c (writtenAfterwards io after c) (afterwards io after l c').2 := by
  have hsame : writtenAfterwards io after c = writtenAfterwards io after c' := by
    unfold writtenAfterwards flushed
    rw [hout, hopen]
  rw [hsame]
  exact (carries_afterwards io after l c').begin hout hopen

theorem carries_leave (io : Io) (l : TcpListener) (c : Connection) (used : ℕ) (after : After) :
    Carries c (writtenAfterwards io after c) (l.leave io c used after).2 := by
  unfold leave
  dsimp only
  split_ifs with hopen
  · exact carries_afterwards_of io after l rfl rfl
  · exact carries_afterwards_of io after l rfl rfl

theorem carries_loop (io : Io) (l : TcpListener) (c : Connection) (used : ℕ) (after : After) :
    Carries c (writtenInLoop io c used after) (l.loop io c used after).2 := by
  unfold writtenInLoop loop
  cases turn c used with
  | stop => exact carries_leave io l c used after
  | broken => exact .of_closed rfl (carries_leave io (l.close c).1 (l.close c).2 used after)
  | query query used => exact .quiet rfl fun h => h

theorem carries_processMessages (io : Io) (l : TcpListener) (c : Connection) (after : After) :
    Carries c (writtenProcessing io c after) (l.processMessages io c after).2 := by
  unfold writtenProcessing processMessages
  split_ifs
  · exact carries_afterwards io after l c
  · exact (carries_loop io l { c with processing := true } 0 after).begin rfl rfl

/-- `respond` does not come back to `flush`. -/
theorem writtenProcessing_respond (io : Io) (c : Connection) : writtenProcessing io c .respond = [] := by
  have hnone : ∀ c, writtenAfterwards io .respond c = [] := fun c => if_neg (by simp [flushes])
  unfold writtenProcessing writtenInLoop
  split_ifs
  · exact hnone c
  · split
    · exact hnone _
    · rfl

theorem carries_respond (io : Io) (l : TcpListener) (response : Message) (hopen : c.isOpen = true) :
    Carries { c with out := c.out ++ buildTcp response } (writtenResponding io c response)
      (l.respond io c response).2 := by
  have hflush : Carries { c with out := c.out ++ buildTcp response } (writtenResponding io c response)
      (l.flush io { c with pending := c.pending - 1, out := c.out ++ buildTcp response }).2 := by
    unfold writtenResponding
    rw [if_pos hopen]
    have hwrites := carries_flush io l
      { c with pending := c.pending - 1, out := c.out ++ buildTcp response } hopen
    exact hwrites.begin rfl rfl
  unfold respond
  rw [if_neg (by simp [hopen] : ¬ (!c.isOpen) = true)]
  dsimp only
  split_ifs
  · exact hflush
  · refine hflush.finish ?_
    have hrest := carries_processMessages io
      (l.flush io { c with pending := c.pending - 1, out := c.out ++ buildTcp response }).1
      (l.flush io { c with pending := c.pending - 1, out := c.out ++ buildTcp response }).2 .respond
    rwa [writtenProcessing_respond] at hrest

theorem carries_readFrom (io : Io) (l : TcpListener) (c : Connection) (after : After) (recv : Recv) :
    Carries c (writtenReading io c after recv) (l.readFrom io c after recv).2 := by
  cases recv with
  | error =>
    exact .of_closed rfl (carries_afterwards io after (l.close c).1 (l.close c).2)
  | again => exact carries_afterwards io after l c
  | eof => exact carries_afterwards_of io after l rfl rfl
  | data bytes =>
    exact (carries_processMessages io _ { c with input := c.input ++ bytes } after).begin rfl rfl

theorem carries_onEvent (io : Io) (l : TcpListener) (c : Connection) (hangup : Bool)
    (readable : Option Recv) (writable : Bool) :
    Carries c (writtenOnEvent io c hangup readable writable)
      (l.onEvent io c hangup readable writable).2 := by
  unfold writtenOnEvent onEvent
  split_ifs
  · exact .quiet rfl fun h => absurd h Bool.false_ne_true
  · cases readable with
    | none => exact carries_afterwards io _ l c
    | some recv => exact carries_readFrom io l c _ recv

theorem carries_onIdle (l : TcpListener) (c : Connection) : Carries c [] (l.onIdle c).2 := by
  unfold onIdle
  dsimp only
  split_ifs
  · exact .quiet rfl fun h => h
  · exact .quiet rfl fun h => absurd h Bool.false_ne_true

/-! ### What an event does to `out` -/

/-- `l'` has the connections of `l` as they were, and new ones. -/
structure Grows (l l' : TcpListener) : Prop where
  kept : ∀ id c, l.objects id = some c → l'.objects id = some c
  fresh : ∀ id c, l'.objects id = some c → l.objects id = some c ∨ l.objects id = none ∧ c.out = []

theorem Grows.same (h : l'.objects = l.objects) : Grows l l' :=
  ⟨fun _ _ hc => h ▸ hc, fun _ _ hc => .inl (h ▸ hc)⟩

theorem Grows.trans {l₁ : TcpListener} (h : Grows l l₁) (h' : Grows l₁ l') : Grows l l' := by
  refine ⟨fun id c hc => h'.kept id c (h.kept id c hc), fun id c hc => ?_⟩
  rcases h'.fresh id c hc with hc | ⟨hnone, hout⟩
  · exact h.fresh id c hc
  · refine .inr ⟨?_, hout⟩
    rw [Option.eq_none_iff_forall_ne_some] at hnone ⊢
    exact fun d hd => hnone d (h.kept id d hd)

theorem grows_acceptOne (hsound : Sound l) (peer : DNSentinel.Policy.Addresses.SockAddr)
    (watched : Bool) : Grows l (l.acceptOne peer watched) := by
  unfold acceptOne
  dsimp only
  split_ifs
  · exact .same rfl
  · exact .same rfl
  · have hnone : l.objects l.nextId = none := by
      rw [Option.eq_none_iff_forall_ne_some]
      intro c hc
      exact absurd (hsound.registered.entries _ c hc).2.1 (lt_irrefl _)
    refine ⟨fun id c hc => ?_, fun id c hc => ?_⟩
    · have hne : id ≠ l.nextId := by
        rintro rfl
        exact absurd (hnone.symm.trans hc) (by simp)
      exact (Function.update_of_ne hne ..).trans hc
    · rcases Lib.Pairs.update_some hc with ⟨rfl, rfl⟩ | ⟨-, hc⟩
      · exact .inr ⟨hnone, rfl⟩
      · exact .inl hc

theorem grows_onAcceptable : ∀ (results : List Accepted) (l : TcpListener), Sound l →
    Grows l (l.onAcceptable results)
  | [], _, _ => .same rfl
  | .again :: _, _, _ => .same rfl
  | .exhausted :: _, _, _ => .same rfl
  | .aborted :: rest, l, h => grows_onAcceptable rest l h
  | .connection peer watched :: rest, _, h =>
    (grows_acceptOne h peer watched).trans
      (grows_onAcceptable rest _ (sound_accept peer watched h))

/-- What an event does to the connections. -/
structure Passes (l : TcpListener) (e : Event) (l' : TcpListener) : Prop where
  kept : ∀ id c, l.objects id = some c → ∃ c', l'.objects id = some c' ∧
    Carries { c with out := c.out ++ framesOf (queued l id e) } (written l id e) c'
  fresh : ∀ id c', l.objects id = none → l'.objects id = some c' → c'.out = []

theorem Passes.of_grows (h : Grows l l') (hwritten : ∀ id, written l id e = [])
    (hqueued : ∀ id, queued l id e = []) : Passes l e l' := by
  refine ⟨fun id c hc => ⟨c, h.kept id c hc, ?_⟩, fun id c' hnone hc' => ?_⟩
  · rw [hwritten, hqueued]
    exact .quiet (List.append_nil _).symm fun hopen => hopen
  · rcases h.fresh id c' hc' with hc | ⟨-, hout⟩
    · exact absurd (hnone.symm.trans hc) (by simp)
    · exact hout

theorem Passes.of_focus (hc : l.objects id = some c) (hid : c'.id = id) (hobjects : l'.objects = l.objects)
    (hothers : ∀ id', id' ≠ id → written l id' e = [] ∧ queued l id' e = [])
    (h : Carries { c with out := c.out ++ framesOf (queued l id e) } (written l id e) c') :
    Passes l e (l'.put c') := by
  refine ⟨fun id' x hx => ?_, fun id' x hnone hx => ?_⟩
  · by_cases hne : id' = id
    · subst hne
      obtain rfl := Option.some.inj (hc.symm.trans hx)
      exact ⟨c', by rw [← hid]; exact Function.update_self .., h⟩
    · obtain ⟨hwritten, hqueued⟩ := hothers id' hne
      refine ⟨x, ?_, ?_⟩
      · rw [← hobjects] at hx
        exact (Function.update_of_ne (hid ▸ hne) ..).trans hx
      · rw [hwritten, hqueued]
        exact .quiet (List.append_nil _).symm fun hopen => hopen
  · rcases Lib.Pairs.update_some hx with ⟨rfl, rfl⟩ | ⟨-, hx⟩
    · rw [hid] at hnone
      exact absurd (hnone.symm.trans hc) (by simp)
    · rw [hobjects] at hx
      exact absurd (hnone.symm.trans hx) (by simp)

theorem passes_respond (io : Io) (response : Message) (hr : l.connectionOf r = some c.id)
    (hc : l.objects c.id = some c) :
    Passes l (.respond r response io)
      (((l.spend r (.responded r c.id)).respond io c response).1.put
        ((l.spend r (.responded r c.id)).respond io c response).2) := by
  have hothers : ∀ id', id' ≠ c.id → written l id' (.respond r response io) = [] ∧
      queued l id' (.respond r response io) = [] := by
    intro id' hne
    have hother : l.connectionOf r ≠ some id' := by
      rw [hr]
      exact fun h => hne (Option.some.inj h).symm
    exact ⟨if_neg hother, if_neg fun h => hother h.1⟩
  have hwritten : written l c.id (.respond r response io) = writtenResponding io c response := by
    simp only [written, hr, if_true, hc, Option.map_some, Option.getD_some]
  cases hopen : c.isOpen with
  | true =>
    have hqueued : queued l c.id (.respond r response io) = [(r, response)] := by
      simp only [queued, hr, hc, Option.any_some, hopen, and_self, if_true]
    have hmoves : Moves (l, c) ((l.spend r (.responded r c.id)).respond io c response) :=
      moves_respond response hopen (mem_of_connectionOf hr)
    obtain ⟨hobjects, hsame⟩ := moves_frame hmoves
    refine .of_focus hc hsame hobjects hothers ?_
    rw [hwritten, hqueued]
    refine (carries_respond io _ response hopen).begin ?_ rfl
    simp only [framesOf, List.flatMap_cons, List.flatMap_nil, List.append_nil]
  | false =>
    have hqueued : queued l c.id (.respond r response io) = [] := by simp [queued, hc, hopen]
    have hsame : (l.spend r (.responded r c.id)).respond io c response =
        (l.spend r (.responded r c.id), c) := by
      unfold respond
      rw [if_pos (by simp [hopen])]
    rw [hsame]
    refine .of_focus hc rfl rfl hothers ?_
    rw [hwritten, hqueued]
    unfold writtenResponding
    rw [if_neg (by simp [hopen])]
    exact .quiet (List.append_nil _).symm fun h => h

/-- **What an event writes comes off the front of `out`, behind which it queues.** -/
theorem passes_step (hsound : Sound l) (hstep : Tcp.Step l e l') : Passes l e l' := by
  unfold Tcp.Step at hstep
  cases e with
  | acceptable results =>
    simp only [Tcp.apply] at hstep
    split_ifs at hstep
    obtain rfl := Option.some.inj hstep
    exact .of_grows (grows_onAcceptable _ l hsound) (fun _ => rfl) fun _ => rfl
  | poll =>
    simp only [Tcp.apply] at hstep
    split_ifs at hstep
    obtain rfl := Option.some.inj hstep
    exact .of_grows (.same rfl) (fun _ => rfl) fun _ => rfl
  | ready id hangup readable writable io =>
    simp only [Tcp.apply] at hstep
    split_ifs at hstep with hready hmem
    · obtain ⟨c, hc, rfl⟩ := on_eq_some hstep
      have hc' : l.objects id = some c := hc
      obtain ⟨hid, -, hlisted⟩ := hsound.registered.entries id c hc'
      have hmoves : Moves ({ l with reported := Function.update l.reported id none }, c)
          (TcpListener.onEvent io _ c hangup readable writable) :=
        moves_onEvent hangup readable writable (hlisted.2 hmem)
      obtain ⟨hobjects, hsame⟩ := moves_frame hmoves
      refine .of_focus hc' (hsame.trans hid) hobjects (fun id' hne => ⟨?_, rfl⟩) ?_
      · exact if_neg fun h => hne h.1.symm
      · have hwritten : written l id (.ready id hangup readable writable io) =
            writtenOnEvent io c hangup readable writable := by
          simp only [written, hmem, and_self, if_true, hc', Option.map_some, Option.getD_some]
        rw [hwritten]
        exact (carries_onEvent io _ c hangup readable writable).begin (List.append_nil _).symm rfl
    · obtain rfl := Option.some.inj hstep
      refine .of_grows (.same rfl) (fun id' => if_neg ?_) fun _ => rfl
      rintro ⟨rfl, hmem'⟩
      exact hmem hmem'
  | timer tid =>
    simp only [Tcp.apply] at hstep
    split_ifs at hstep
    split at hstep
    · cases hstep
    · obtain rfl := Option.some.inj hstep
      exact .of_grows (.same rfl) (fun _ => rfl) fun _ => rfl
    · next id htid =>
      split_ifs at hstep with hmem
      · obtain ⟨c, hc, rfl⟩ := on_eq_some hstep
        have hc' : l.objects id = some c := hc
        obtain ⟨hid, -, -⟩ := hsound.registered.entries id c hc'
        have hframe : ({ l with timers := Function.update l.timers tid none }.onIdle c).1.objects =
            l.objects ∧ ({ l with timers := Function.update l.timers tid none }.onIdle c).2.id = id := by
          unfold onIdle
          dsimp only
          split_ifs <;> exact ⟨rfl, hid⟩
        refine .of_focus hc' hframe.2 hframe.1 (fun _ _ => ⟨rfl, rfl⟩) ?_
        exact (carries_onIdle _ c).begin (List.append_nil _).symm rfl
      · obtain rfl := Option.some.inj hstep
        exact .of_grows (.same rfl) (fun _ => rfl) fun _ => rfl
  | respond r response io =>
    simp only [Tcp.apply] at hstep
    split at hstep
    · cases hstep
    · next id hr =>
      obtain ⟨c, hc, rfl⟩ := on_eq_some hstep
      have hc' : l.objects id = some c := hc
      obtain ⟨rfl, -, -⟩ := hsound.registered.entries id c hc'
      exact passes_respond io response hr hc'
  | discard r =>
    obtain ⟨id, hr, rfl⟩ := Option.map_eq_some_iff.1 hstep
    exact .of_grows (.same rfl) (fun _ => rfl) fun _ => rfl
  | handled io =>
    simp only [Tcp.apply] at hstep
    split at hstep
    · cases hstep
    · next f rest hstack =>
      obtain ⟨c, hc, rfl⟩ := on_eq_some hstep
      have hc' : l.objects f.connection = some c := hc
      obtain ⟨hid, -, -⟩ := hsound.registered.entries _ c hc'
      have hmoves : Moves (l, c) ({ l with stack := rest }.loop io c f.used f.after) :=
        moves_loop hstack hid.symm
      obtain ⟨hobjects, hsame⟩ := moves_frame hmoves
      have hwritten : ∀ id', written l id' (.handled io) = if f.connection = id' then
          ((l.objects id').map fun c => writtenInLoop io c f.used f.after).getD [] else [] := by
        intro id'
        simp only [written, hstack]
      refine .of_focus hc' (hsame.trans hid) hobjects (fun id' hne => ⟨?_, rfl⟩) ?_
      · rw [hwritten, if_neg (Ne.symm hne)]
      · rw [hwritten, if_pos rfl, hc']
        exact (carries_loop io _ c f.used f.after).begin (List.append_nil _).symm rfl

/-! ### Responders -/

def callOf : Fact → Option (ℕ × ℕ × Message)
  | .handed r id query => some (r, id, query)
  | _ => none

/-- Every call of the handler has a number of its own, and a responder belongs to a call. -/
structure Ledger (l : TcpListener) : Prop where
  numbered : ∀ r id query, .handed r id query ∈ l.log → r < l.nextResponder
  once : ((l.log.filterMap callOf).map Prod.fst).Nodup
  responders : ∀ x ∈ l.responders, ∃ query, .handed x.1 x.2 query ∈ l.log
  stack : ∀ f ∈ l.stack, .handed f.responder f.connection f.query ∈ l.log

/-- The responder has been called, or destroyed. -/
def Spent (r : ℕ) (l : TcpListener) : Prop := r < l.nextResponder ∧ ∀ id, (r, id) ∉ l.responders

theorem Ledger.log {fact : Fact} (h : Ledger l) (hfact : callOf fact = none) :
    Ledger { l with log := fact :: l.log } := by
  obtain ⟨hnumbered, honce, hresponders, hstack⟩ := h
  refine ⟨fun r id query hmem => ?_, ?_, fun x hx => ?_, fun f hf => .tail _ (hstack f hf)⟩
  · rcases List.mem_cons.1 hmem with rfl | hmem
    · cases hfact
    · exact hnumbered r id query hmem
  · show (((fact :: l.log).filterMap callOf).map Prod.fst).Nodup
    rwa [List.filterMap_cons_none hfact]
  · obtain ⟨query, hquery⟩ := hresponders x hx
    exact ⟨query, .tail _ hquery⟩

theorem ledger_hand (h : Ledger l) (c : Connection) (query : Message) (used : ℕ) (after : After) :
    Ledger (l.hand c query used after).1 := by
  obtain ⟨hnumbered, honce, hresponders, hstack⟩ := h
  refine ⟨fun r id q hmem => ?_, ?_, ?_, ?_⟩
  · rcases List.mem_cons.1 hmem with heq | hmem
    · obtain ⟨rfl, -, -⟩ := Fact.handed.inj heq
      exact Nat.lt_succ_self _
    · exact Nat.lt_succ_of_lt (hnumbered r id q hmem)
  · show (l.nextResponder :: (l.log.filterMap callOf).map Prod.fst).Nodup
    refine List.nodup_cons.2 ⟨fun hmem => ?_, honce⟩
    obtain ⟨x, hx, hnew⟩ := List.mem_map.1 hmem
    obtain ⟨fact, hfact, hcall⟩ := List.mem_filterMap.1 hx
    cases fact with
    | handed r id q =>
      obtain rfl := Option.some.inj hcall
      exact absurd (hnumbered r id q hfact) (hnew ▸ lt_irrefl _)
    | _ => cases hcall
  · refine List.forall_mem_cons.2 ⟨⟨query, List.mem_cons_self ..⟩, fun x hx => ?_⟩
    obtain ⟨q, hq⟩ := hresponders x hx
    exact ⟨q, .tail _ hq⟩
  · exact List.forall_mem_cons.2 ⟨List.mem_cons_self .., fun f hf => .tail _ (hstack f hf)⟩

/-- What has happened is not undone, and the books are kept. -/
structure Past (l l' : TcpListener) : Prop where
  log : l.log <:+ l'.log
  spent : ∀ r, Spent r l → Spent r l'
  ledger : Ledger l → Ledger l'

theorem Past.trans {l₁ : TcpListener} (h : Past l l₁) (h' : Past l₁ l') : Past l l' :=
  ⟨h.log.trans h'.log, fun r hr => h'.spent r (h.spent r hr), fun hl => h'.ledger (h.ledger hl)⟩

/-- Handlers may return, and the responders stay as they are. -/
theorem Past.same (hlog : l'.log = l.log) (hnext : l'.nextResponder = l.nextResponder)
    (hresponders : l'.responders = l.responders) (hstack : l'.stack ⊆ l.stack) : Past l l' := by
  refine ⟨hlog ▸ List.suffix_refl _, fun r hr => ?_, fun h => ⟨?_, ?_, ?_, fun f hf => ?_⟩⟩
  · unfold Spent
    rwa [hnext, hresponders]
  · rw [hlog, hnext]
    exact h.numbered
  · rw [hlog]
    exact h.once
  · rw [hlog, hresponders]
    exact h.responders
  · rw [hlog]
    exact h.stack f (hstack hf)

theorem Past.refl (l : TcpListener) : Past l l := .same rfl rfl rfl (List.Subset.refl _)

theorem past_log {fact : Fact} (l : TcpListener) (hfact : callOf fact = none) :
    Past l { l with log := fact :: l.log } :=
  ⟨List.suffix_cons .., fun _ h => h, fun h => h.log hfact⟩

theorem past_spend {fact : Fact} (l : TcpListener) (r : ℕ) (hfact : callOf fact = none) :
    Past l (l.spend r fact) := by
  refine ⟨List.suffix_cons .., fun _ h => ⟨h.1, fun id hmem => h.2 id (List.mem_of_mem_filter hmem)⟩,
    fun h => ?_⟩
  obtain ⟨hnumbered, honce, hresponders, hstack⟩ := h.log hfact
  exact ⟨hnumbered, honce, fun x hx => hresponders x (List.mem_of_mem_filter hx), hstack⟩

theorem past_hand (l : TcpListener) (c : Connection) (query : Message) (used : ℕ) (after : After) :
    Past l (l.hand c query used after).1 := by
  refine ⟨List.suffix_cons .., fun r h => ⟨Nat.lt_succ_of_lt h.1, fun id hmem => ?_⟩,
    fun h => ledger_hand h c query used after⟩
  rcases List.mem_cons.1 hmem with heq | hmem
  · obtain ⟨rfl, -⟩ := Prod.mk.inj heq
    exact absurd h.1 (lt_irrefl _)
  · exact h.2 id hmem

theorem past_move {a b : TcpListener × Connection} (hab : Move a b) : Past a.1 b.1 := by
  have hrest : ∀ {l : TcpListener} {f : Frame} {rest : List Frame}, l.stack = f :: rest →
      Past l { l with stack := rest } := fun hstack =>
    .same rfl rfl rfl fun g hg => hstack ▸ List.mem_cons_of_mem _ hg
  cases hab with
  | arm l c hopen | note l c out peerDone interest => exact .same rfl rfl rfl (List.Subset.refl _)
  | close l c hopen => exact (past_log l rfl).trans (.same rfl rfl rfl (List.Subset.refl _))
  | receive l c bytes hopen => exact past_log l rfl
  | reply l c r response hopen hr => exact past_spend l r rfl
  | first l c query used after hopen hidle hturn => exact past_hand l _ query used after
  | next l c f rest query used hopen hstack hf hturn =>
    exact (hrest hstack).trans (past_hand _ c query used f.after)
  | leave l c f rest hstack hf => exact hrest hstack

theorem past_moves {a b : TcpListener × Connection} (h : Moves a b) : Past a.1 b.1 :=
  moves_keep (P := fun s => Past a.1 s.1) (fun _ _ hmove hs => hs.trans (past_move hmove)) h (.refl _)

theorem past_effect (hab : Effect e l l') : Past l l' := by
  cases hab with
  | focus hc hmoves hdue => exact (past_moves hmoves).trans (.same rfl rfl rfl (List.Subset.refl _))
  | discard r id he hr | ignore r c hr hc hclosed => exact past_spend l r rfl
  | accept peer watched =>
    unfold acceptOne
    dsimp only
    split_ifs <;> exact .same rfl rfl rfl (List.Subset.refl _)
  | _ => exact .same rfl rfl rfl (List.Subset.refl _)

theorem past_step (hsound : Sound l) (hstep : Tcp.Step l e l') : Past l l' :=
  effects_keep (P := Past l) (fun _ _ hxy hx => hx.trans (past_effect hxy)) (step_effects hsound hstep)
    (.refl l)

/-- A responder is not called twice. -/
theorem spent_respond {response : Message} (hsound : Sound l)
    (hstep : Tcp.Step l (.respond r response io) l') : Spent r l' := by
  unfold Tcp.Step at hstep
  simp only [Tcp.apply] at hstep
  split at hstep
  · cases hstep
  · next id hr =>
    obtain ⟨c, hc, rfl⟩ := on_eq_some hstep
    have hspent : Spent r (l.spend r (.responded r id)) := by
      refine ⟨hsound.counted.fresh _ (mem_of_connectionOf hr), fun id' hmem => ?_⟩
      have hne := (List.mem_filter.1 hmem).2
      simp at hne
    have hmoves : ∀ l : TcpListener, ∃ c', Moves (l, c') (l.respond io c response) := by
      intro l
      cases hopen : c.isOpen with
      | false =>
        refine ⟨c, ?_⟩
        unfold respond
        rw [if_pos (by simp [hopen])]
      | true =>
        refine ⟨{ c with pending := c.pending - 1, out := c.out ++ buildTcp response }, ?_⟩
        unfold respond
        rw [if_neg (by simp [hopen])]
        dsimp only
        have hflush : Moves (l, _) (l.flush io
            { c with pending := c.pending - 1, out := c.out ++ buildTcp response }) := moves_flush hopen
        split_ifs
        · exact hflush
        · exact hflush.trans (moves_processMessages .respond)
    obtain ⟨c', hc'⟩ := hmoves (l.spend r (.responded r id))
    exact (past_moves hc').spent r hspent

/-! ### The stream of a connection -/

/-- What was written, and `out`, are the frames of the responses. -/
structure Flows (t : Tap) : Prop where
  sound : Sound t.listener
  framed : Framed t.listener
  ledger : Ledger t.listener
  entries : ∀ id c, t.listener.objects id = some c → c.isOpen = true →
    t.wire id ++ c.out = framesOf (t.responses id)
  written : ∀ id, t.wire id <+: framesOf (t.responses id)
  unknown : ∀ id, t.listener.objects id = none → t.wire id = [] ∧ t.responses id = []
  called : ∀ id, ∀ x ∈ t.responses id, Spent x.1 t.listener ∧
    ∃ query, .handed x.1 id query ∈ t.listener.log
  once : ∀ id, ((t.responses id).map Prod.fst).Nodup

theorem written_unknown (h : l.objects id = none) (e : Event) : written l id e = [] := by
  unfold written
  split
  · simp [h]
  · simp [h]
  · split
    · rfl
    · simp [h]
  · rfl

theorem queued_unknown (h : l.objects id = none) (e : Event) : queued l id e = [] := by
  unfold queued
  split
  · simp [h]
  · rfl

/-- What an event queues is the response of a responder that is called. -/
theorem mem_queued {x : ℕ × Message} (hx : x ∈ queued l id e) :
    queued l id e = [x] ∧ (x.1, id) ∈ l.responders ∧ ∃ io, e = .respond x.1 x.2 io := by
  unfold queued at hx ⊢
  split at hx
  · next r response io =>
    split_ifs at hx ⊢ with hr
    · obtain rfl := List.mem_singleton.1 hx
      exact ⟨rfl, mem_of_connectionOf hr.1, io, rfl⟩
    · cases hx
  · cases hx

theorem flows_entries {t : Tap} (h : Flows t) (hpasses : Passes t.listener e l')
    (hc' : l'.objects id = some c') (hopen : c'.isOpen = true) :
    t.wire id ++ written t.listener id e ++ c'.out =
      framesOf (t.responses id ++ queued t.listener id e) := by
  rw [framesOf_append]
  cases hc : t.listener.objects id with
  | none =>
    obtain ⟨hnowire, hnone⟩ := h.unknown id hc
    rw [hnowire, hnone, written_unknown hc, queued_unknown hc, hpasses.fresh id c' hc hc']
    rfl
  | some c =>
    obtain ⟨d, hd, hcarries⟩ := hpasses.kept id c hc
    obtain rfl := Option.some.inj (hd.symm.trans hc')
    obtain ⟨hwas, hout⟩ := hcarries.kept hopen
    have hstream := h.entries id c hc hwas
    have hout' : written t.listener id e ++ d.out = c.out ++ framesOf (queued t.listener id e) := hout
    rw [List.append_assoc, hout', ← List.append_assoc, hstream]

theorem flows_written {t : Tap} (h : Flows t) (hpasses : Passes t.listener e l') (id : ℕ) :
    t.wire id ++ written t.listener id e <+: framesOf (t.responses id ++ queued t.listener id e) := by
  have hearlier : t.wire id <+: framesOf (t.responses id) ++ framesOf (queued t.listener id e) :=
    (h.written id).trans (List.prefix_append ..)
  rw [framesOf_append]
  cases hc : t.listener.objects id with
  | none => rwa [written_unknown hc, List.append_nil]
  | some c =>
    obtain ⟨c', -, hcarries⟩ := hpasses.kept id c hc
    cases hopen : c.isOpen with
    | false => rwa [hcarries.shut hopen, List.append_nil]
    | true =>
      rw [← h.entries id c hc hopen, List.append_assoc]
      exact (List.prefix_append_right_inj _).2 hcarries.wrote

theorem flows_step {t t' : Tap} (h : Flows t) (hstep : Step t e t') : Flows t' := by
  obtain ⟨l', hl', rfl⟩ := Option.map_eq_some_iff.1 hstep
  have hpasses := passes_step h.sound hl'
  have hpast := past_step h.sound hl'
  have hbooks : Sound l' ∧ Framed l' := effects_keep (P := fun l => Sound l ∧ Framed l)
    (fun _ _ hab hl => ⟨sound_effect hab hl.1, framed_effect hab hl.1 hl.2⟩)
    (step_effects h.sound hl') ⟨h.sound, h.framed⟩
  refine ⟨hbooks.1, hbooks.2, hpast.ledger h.ledger, fun id c' => flows_entries h hpasses,
    flows_written h hpasses, fun id hnone => ?_, fun id x hx => ?_, fun id => ?_⟩
  · have hbefore : t.listener.objects id = none := by
      rw [Option.eq_none_iff_forall_ne_some]
      intro c hc
      obtain ⟨c', hc', -⟩ := hpasses.kept id c hc
      exact absurd (hnone.symm.trans hc') (by simp)
    obtain ⟨hwire, hresponses⟩ := h.unknown id hbefore
    dsimp only
    rw [hwire, hresponses, written_unknown hbefore, queued_unknown hbefore]
    exact ⟨rfl, rfl⟩
  · rcases List.mem_append.1 hx with hx | hx
    · obtain ⟨hspent, query, hquery⟩ := h.called id x hx
      exact ⟨hpast.spent _ hspent, query, hpast.log.subset hquery⟩
    · obtain ⟨-, hr, io, rfl⟩ := mem_queued hx
      obtain ⟨query, hquery⟩ := h.ledger.responders _ hr
      exact ⟨spent_respond h.sound hl', query, hpast.log.subset hquery⟩
  · show ((t.responses id ++ queued t.listener id e).map Prod.fst).Nodup
    by_cases hnone : queued t.listener id e = []
    · rw [hnone, List.append_nil]
      exact h.once id
    · obtain ⟨x, hx⟩ := List.exists_mem_of_ne_nil _ hnone
      obtain ⟨hsingle, hr, -⟩ := mem_queued hx
      rw [hsingle, List.map_append, List.map_singleton, List.nodup_append]
      refine ⟨h.once id, List.pairwise_singleton _ _, fun a ha b hb hab => ?_⟩
      obtain rfl := List.mem_singleton.1 hb
      obtain ⟨y, hy, rfl⟩ := List.mem_map.1 ha
      exact (h.called id y hy).1.2 id (hab ▸ hr)

theorem flows_init (config : TcpListenerConfig) : Flows { listener := { config } } := by
  have hframed : Framed { config } := (framed_run (.nil _)).2
  refine ⟨sound_init config, hframed, ⟨?_, List.nodup_nil, ?_, ?_⟩, ?_, fun _ => List.nil_prefix,
    fun _ _ => ⟨rfl, rfl⟩, ?_, fun _ => List.nodup_nil⟩ <;> simp

/-! ### What the client reads -/

/-- The message of a response. -/
def bodyOf (x : ℕ × Message) : List UInt8 := buildMessage x.2 kMaxTcpMessage true

/-- The length before a message is its length. -/
theorem next_putU16 {body : List UInt8} (ys : List UInt8) (h : body.length < 2 ^ 16) :
    frames.next (putU16 (UInt16.ofNat body.length) ++ body ++ ys) = some (body, ys) := by
  have hframe : frame (putU16 (UInt16.ofNat body.length) ++ body ++ ys) = some body := by
    simp only [putU16, List.cons_append, List.nil_append, frame]
    rw [← toNat_u16, u16_put, UInt16.toNat_ofNat_of_lt' h, List.length_append, if_neg (by omega),
      List.take_left]
  have hrest : (putU16 (UInt16.ofNat body.length) ++ body ++ ys).drop (2 + body.length) = ys :=
    List.drop_left' (by rw [List.length_append]; rfl)
  show (frame (putU16 (UInt16.ofNat body.length) ++ body ++ ys)).map _ = _
  rw [hframe, Option.map_some, hrest]

theorem frames_encodes : frames.Encodes (fun x : ℕ × Message => buildTcp x.2) bodyOf := by
  intro x ys
  have hfits := Wire.Datagram.length_buildMessage_le x.2 (by decide : 512 ≤ kMaxTcpMessage) true
  refine next_putU16 ys (lt_of_le_of_lt hfits ?_)
  decide

/-- A call of the handler is for a query that the client has sent on the connection. -/
theorem Flows.asked {t : Tap} (h : Flows t) {query : Message}
    (hquery : .handed r id query ∈ t.listener.log) :
    ∃ body ∈ frames.items (received t.listener id), asQuery body = some query := by
  have hhanded : query ∈ handed t.listener id :=
    List.mem_reverse.2 (List.mem_filterMap.2 ⟨_, hquery, if_pos rfl⟩)
  have hread := (h.framed.initial id).subset (List.mem_map_of_mem hhanded)
  exact List.mem_map.1 hread

/-- The client takes the responses off the stream one after another, each as it was built. -/
theorem Flows.read {t : Tap} (h : Flows t) (id : ℕ) :
    frames.items (t.wire id) <+: (t.responses id).map bodyOf := by
  obtain ⟨rest, hrest⟩ := h.written id
  have hall : frames.items (t.wire id ++ rest) = (t.responses id).map bodyOf := by
    rw [hrest]
    exact Decoder.items_flatMap frames_encodes _
  rw [← hall]
  exact Decoder.items_prefix_append rest _

theorem Ledger.unique {id' : ℕ} {query query' : Message} (h : Ledger l)
    (hcall : .handed r id query ∈ l.log) (hcall' : .handed r id' query' ∈ l.log) :
    id = id' ∧ query = query' := by
  have hsame : (r, id, query) = (r, id', query') := List.inj_on_of_nodup_map h.once
    (List.mem_filterMap.2 ⟨_, hcall, rfl⟩) (List.mem_filterMap.2 ⟨_, hcall', rfl⟩) rfl
  exact Prod.mk.inj (Prod.mk.inj hsame).2

end DNSentinel.Net.Outgoing
