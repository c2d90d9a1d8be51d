import DNSentinel.Server.Serving

/-! # What an event of the server does

An event of the server is one of its resolver, or none (`Goes`); what it adds to the log is known: a
response is marked as one, and a query that comes to wait is the newest. -/

namespace DNSentinel.Server.Steps

open DNSentinel.Types Wire.Builder Resolver Resolver.Selection Resolver.Data Resolver.Core
open Policy.Addresses Policy.Lists
open Resolver.Machine (World resolveClient)
open Processor Serving

variable {cfg : Config} {env : Random} {v v' : Service} {query response : Message} {p : QueryProcessor}
  {now later n : ℕ} {client : ClientInfo} {m : Message}

/-! ### Responses are marked as such -/

theorem qr_blocked (response : Message) (lists : ListsConfig) :
    (blocked response lists).header.qr = response.header.qr := by
  unfold blocked
  dsimp only
  split_ifs <;> rfl

theorem qr_answer (p : QueryProcessor) (checkChain : Bool) (response : Message) (result : Outcome) :
    (p.answer checkChain response result).response.header.qr = response.header.qr := by
  cases result with
  | error e => rfl
  | ok r =>
    unfold QueryProcessor.answer
    dsimp only
    split
    · exact qr_blocked _ _
    · unfold QueryProcessor.realAnswer
      dsimp only
      split_ifs <;> rfl

theorem qr_send (h : (p.send now client response).2 = some m) :
    m.header.qr = response.header.qr := by
  unfold QueryProcessor.send at h
  dsimp only at h
  split_ifs at h
  · split at h
    · rw [← Option.some.inj h]
    · rw [← Option.some.inj h]
      rfl
    · cases h
  · rw [← Option.some.inj h]

theorem qr_deny {action : DenyAction} {event : Option BlockEvent}
    (h : deny action query = .respond response event) : response.header.qr = true := by
  cases action with
  | drop => cases h
  | refuse =>
    obtain ⟨rfl, -⟩ := Decision.respond.inj h
    rfl

theorem qr_handle {event : Option BlockEvent}
    (h : (p.handle now query client).2 = .respond response event) : response.header.qr = true := by
  unfold QueryProcessor.handle at h
  dsimp only at h
  split_ifs at h
  · exact qr_deny h
  · exact qr_deny h
  · unfold QueryProcessor.handleAllowed at h
    dsimp only at h
    split at h
    · obtain ⟨rfl, -⟩ := Decision.respond.inj h
      rfl
    · split_ifs at h
      obtain ⟨rfl, -⟩ := Decision.respond.inj h
      exact qr_blocked _ _

/-! ### The log -/

/-- What is to be known of a fact that is new. -/
def New (cfg : Config) (env : Random) (v v' : Service) : Fact → Prop
  | .responded _ m => m.header.qr = true
  | .asked n cb => n = v.nextQuery ∧ n < v'.nextQuery ∧ cb = v.resolver.nextCallback ∧
    ∃ q, Machine.Step cfg env v.resolver (.resolve q) v'.resolver
  | _ => True

structure Goes (cfg : Config) (env : Random) (v v' : Service) : Prop where
  resolver : v'.resolver = v.resolver ∨ ∃ e, Machine.Step cfg env v.resolver e v'.resolver
  next : v.nextQuery ≤ v'.nextQuery
  log : ∃ fs, v'.log = fs ++ v.log ∧ ∀ f ∈ fs, New cfg env v v' f

theorem Goes.subset (h : Goes cfg env v v') : v.log ⊆ v'.log := by
  obtain ⟨fs, hlog, -⟩ := h.log
  rw [hlog]
  exact List.subset_append_right _ _

theorem Goes.new (h : Goes cfg env v v') {f : Fact} (hf : f ∈ v'.log) :
    f ∈ v.log ∨ New cfg env v v' f := by
  obtain ⟨fs, hlog, hfs⟩ := h.log
  rw [hlog] at hf
  exact (List.mem_append.mp hf).symm.imp_right (hfs f)

theorem Goes.marked (h : Goes cfg env v v') (hold : ∀ n m, .responded n m ∈ v.log → m.header.qr = true)
    (n : ℕ) (m : Message) (hm : .responded n m ∈ v'.log) : m.header.qr = true :=
  (h.new hm).elim (hold n m) id

theorem respond_new (v : Service) (n now : ℕ) (client : ClientInfo) (hqr : response.header.qr = true) :
    ∃ f p, v.respond n now client response = { v with processor := p, log := f :: v.log } ∧
      ∀ cfg env v₀ v₁, New cfg env v₀ v₁ f := by
  unfold Service.respond
  dsimp only
  refine ⟨_, _, rfl, fun cfg env v₀ v₁ => ?_⟩
  cases hout : (v.processor.send now client response).2 with
  | none => trivial
  | some m => exact (qr_send hout).trans hqr

theorem goes_handle (cfg : Config) (env : Random) (v : Service) (now later : ℕ) (query : Message)
    (client : ClientInfo) :
    Goes cfg env v (v.handle cfg now later query client) ∧
      (v.handle cfg now later query client).nextQuery = v.nextQuery + 1 ∧
      .handled v.nextQuery ⟨v.processor, now, query, client⟩ ∈
        (v.handle cfg now later query client).log := by
  unfold Service.handle
  dsimp only
  cases hdecision : (v.processor.handle now query client).2 with
  | drop =>
    refine ⟨⟨.inl rfl, Nat.le_succ _, [_, _], rfl, ?_⟩, rfl, by simp⟩
    simp [New]
  | respond response event =>
    obtain ⟨f, p, heq, hnew⟩ := respond_new
      { v with processor := (v.processor.handle now query client).1, nextQuery := v.nextQuery + 1
               log := .handled v.nextQuery ⟨v.processor, now, query, client⟩ :: v.log }
      v.nextQuery later client (qr_handle hdecision)
    dsimp only
    rw [heq]
    refine ⟨⟨.inl rfl, Nat.le_succ _, [f, _], rfl, ?_⟩, rfl, by simp⟩
    exact List.forall_mem_cons.mpr ⟨hnew _ _ _ _, by simp [New]⟩
  | resolve q checkChain response =>
    have hstep : Machine.Step cfg env v.resolver (.resolve q) (resolveClient cfg v.resolver q) :=
      ⟨0, rfl⟩
    refine ⟨⟨.inr ⟨_, hstep⟩, Nat.le_succ _, [_, _], rfl, ?_⟩, rfl, by simp⟩
    exact List.forall_mem_cons.mpr ⟨⟨rfl, Nat.lt_succ_self _, rfl, q, hstep⟩, by simp [New]⟩

theorem goes_callback {w : World} {e : Machine.Event} (h : Serving.Sound v)
    (hw : Machine.Step cfg env v.resolver e w) (now cb : ℕ) (result : Outcome) :
    Goes cfg env v ({ v with resolver := w }.callback now cb result) := by
  unfold Service.callback
  dsimp only
  cases hk : v.waiting cb with
  | none => exact ⟨.inr ⟨e, hw⟩, le_rfl, [], rfl, by simp⟩
  | some k =>
    obtain ⟨a, q, -, -, -, hhandle, -⟩ := h.service.waiting cb k hk
    obtain ⟨-, -, hresponse, -⟩ := handle_resolve hhandle
    have hqr : (v.processor.answer k.checkChain k.response result).response.header.qr = true := by
      rw [qr_answer, hresponse]
      rfl
    obtain ⟨f, p, heq, hnew⟩ := respond_new { v with resolver := w } k.query now k.client hqr
    dsimp only
    rw [heq]
    exact ⟨.inr ⟨e, hw⟩, le_rfl, [f], rfl, List.forall_mem_singleton.mpr (hnew _ _ _ _)⟩

/-- **What an event does to the resolver and to the log.** -/
theorem goes_step {e : Serving.Event} (h : Serving.Sound v) (hs : Serving.Step cfg env v e v') :
    Goes cfg env v v' := by
  obtain ⟨fuel, hs⟩ := hs
  cases e with
  | handle now later query client =>
    obtain ⟨-, hs⟩ := Option.ite_none_left_eq_some.mp hs
    obtain rfl := Option.some.inj hs
    exact (goes_handle cfg env v now later query client).1
  | resolver e =>
    obtain ⟨-, hs⟩ := Option.ite_none_left_eq_some.mp hs
    obtain ⟨w, hw, rfl⟩ := Option.map_eq_some_iff.mp hs
    exact ⟨.inr ⟨e, fuel, hw⟩, le_rfl, [], rfl, by simp⟩
  | call now =>
    simp only [Serving.apply] at hs
    split at hs
    · cases hs
    next cb result rest hcalls =>
      obtain ⟨w, hw, rfl⟩ := Option.map_eq_some_iff.mp hs
      exact goes_callback h ⟨fuel, hw⟩ now cb result
  | reload lists | destroy =>
    obtain rfl := Option.some.inj hs
    exact ⟨.inl rfl, le_rfl, [], rfl, by simp⟩

end DNSentinel.Server.Steps
