import DNSentinel.Resolver.Events

/-! # Outstanding queries

`resolve()` joins client questions that are in flight already, so two tasks that ask for what their
clients asked never wait for the same question. A task that has followed a CNAME, or that looks up a
name server, asks for something else, and nothing compares that with the other queries outstanding.
So queries are distinct exactly as long as no such task happens to ask what another task asks, and they
stay so in every run in which no task takes up the target of another one. -/

namespace DNSentinel.Resolver.Coalescing

open DNSentinel.Types Lib.Pairs Lib.Runs Store.Model Selection Data Resolver.Core Machine Turns
open Effects Phases Wiring Events

variable {cfg : Config} {env : Random} {w : World}

/-- No two queries in flight ask the same question. -/
def QueriesDistinct (w : World) : Prop :=
  ∀ p q x y, w.pending p = some x → w.pending q = some y → (x.question == y.question) = true → p = q

/-- A client's task that still asks for what the client asked. -/
def Plain (t : Task) : Prop := t.client = true ∧ t.chain = []

/-- A task that is not, and another one, wait for answers to the same question. -/
def Collide (w : World) (i j : ℕ) : Prop :=
  ∃ t u, w.tasks i = some t ∧ w.tasks j = some u ∧ t.upstream.isSome = true ∧
    u.upstream.isSome = true ∧ ¬ Plain t ∧ (t.target == u.target) = true

/-! ### Tasks that have followed no CNAME -/

def AllAtQuestion (s : Phase × World) : Prop := ∀ i t, s.2.tasks i = some t → AtQuestion t

theorem atQuestion_of_findings {t t' : Task} (ht : AtQuestion t) (h : findings t' = findings t) :
    AtQuestion t' := by
  simp only [findings, Prod.mk.injEq] at h
  obtain ⟨hquestion, hqname, hchain, -⟩ := h
  intro hnil
  rw [hqname, hquestion]
  exact ht (hchain ▸ hnil)

theorem atQuestion_of_new {t : Task} {q : Question} {ancestry : List Question} {budget : ℕ}
    {client : Bool} (h : findings t = (q, q.qname, [], ancestry, budget, 0, 0, client, 0)) :
    AtQuestion t := by
  simp only [findings, Prod.mk.injEq] at h
  obtain ⟨hquestion, hqname, -⟩ := h
  intro _
  rw [hqname, hquestion]

theorem atQuestion_micro {a b : Phase × World} (hab : Micro cfg env a b) (ha : AllAtQuestion a) :
    AllAtQuestion b :=
  tasks_micro hab (fun _ _ _ => atQuestion_of_findings) (fun _ h _ _ => atQuestion_of_new h)
    (fun _ _ _ _ _ _ _ _ _ _ => atQuestion_of_new)
    (fun _ _ _ _ hstep => turn_atQuestion hstep.ok) ha

/-! ### Two tasks with one question -/

theorem query_target {p : Phase} (h : Wired p w) {q : ℕ} {x : Pending}
    (hx : w.pending q = some x) : ∃ t, w.tasks x.task = some t ∧ t.upstream = some q ∧
      x.question.qname.labels = t.qname.labels ∧ x.question.qtype = t.question.qtype ∧
      x.question.qclass = kClassIN := by
  obtain ⟨t, ht, hq⟩ := h.pending_task hx
  exact ⟨t, ht, hq, Question.beq_iff.mp (h.queries q x hx t ht).2.1⟩

/-- Two client tasks that ask for what their clients asked, and ask the same, are one. -/
theorem plain_unique (h : Wired .idle w) (hat : AllAtQuestion (.idle, w)) {i j : ℕ} {t u : Task}
    (ht : w.tasks i = some t) (hu : w.tasks j = some u) (htup : t.upstream.isSome = true)
    (huup : u.upstream.isSome = true) (htp : Plain t) (hup : Plain u)
    (hname : t.qname.labels = u.qname.labels) (htype : t.question.qtype = u.question.qtype) :
    i = j := by
  have htclass : t.question.qclass = kClassIN := ((h.tasks i t ht).placed (.inl htup)).2
  have huclass : u.question.qclass = kClassIN := ((h.tasks j u hu).placed (.inl huup)).2
  have htname : t.qname = t.question.qname := hat i t ht htp.2
  have huname : u.qname = u.question.qname := hat j u hu hup.2
  have hkey : questionKey t.question = questionKey u.question := by
    rw [htname, huname] at hname
    simp only [questionKey, hname, htype, htclass, huclass]
  refine h.clients.symm.left_unique (b := questionKey u.question) ?_ ?_
  · simp [field, ht, clientKey, htp.1, hkey]
  · simp [field, hu, clientKey, hup.1]

theorem queriesDistinct_iff (h : Wired .idle w) (hat : AllAtQuestion (.idle, w)) :
    QueriesDistinct w ↔ ∀ i j, Collide w i j → i = j := by
  constructor
  · rintro hdistinct i j ⟨t, u, ht, hu, htup, huup, -, htarget⟩
    obtain ⟨p, hp⟩ := Option.isSome_iff_exists.mp htup
    obtain ⟨q, hq⟩ := Option.isSome_iff_exists.mp huup
    obtain ⟨x, hx, hxi⟩ := h.upstreams.entry ht hp
    obtain ⟨y, hy, hyj⟩ := h.upstreams.entry hu hq
    obtain rfl : x.task = i := Option.some.inj hxi
    obtain rfl : y.task = j := Option.some.inj hyj
    have hxt := Question.beq_iff.mp (h.queries p x hx t ht).2.1
    have hyu := Question.beq_iff.mp (h.queries q y hy u hu).2.1
    have htu := Question.beq_iff.mp htarget
    have hsame : (x.question == y.question) = true := by
      rw [Question.beq_iff]
      exact ⟨hxt.1.trans (htu.1.trans hyu.1.symm), hxt.2.1.trans (htu.2.1.trans hyu.2.1.symm),
        hxt.2.2.trans hyu.2.2.symm⟩
    have hpq : p = q := hdistinct p q x y hx hy hsame
    rw [hpq, hy] at hx
    rw [Option.some.inj hx]
  · intro hcollide p q x y hx hy hsame
    obtain ⟨t, ht, hp, hxname, hxtype, hxclass⟩ := query_target h hx
    obtain ⟨u, hu, hq, hyname, hytype, hyclass⟩ := query_target h hy
    obtain ⟨hname, htype, -⟩ := Question.beq_iff.mp hsame
    rw [hxname, hyname] at hname
    rw [hxtype, hytype] at htype
    have htup : t.upstream.isSome = true := by simp [hp]
    have huup : u.upstream.isSome = true := by simp [hq]
    have htask : x.task = y.task := by
      by_cases htp : Plain t
      · by_cases hup : Plain u
        · exact plain_unique h hat ht hu htup huup htp hup hname htype
        · refine (hcollide _ _ ⟨u, t, hu, ht, huup, htup, hup, ?_⟩).symm
          exact Question.beq_iff.mpr ⟨hname.symm, htype.symm, rfl⟩
      · refine hcollide _ _ ⟨t, u, ht, hu, htup, huup, htp, ?_⟩
        exact Question.beq_iff.mpr ⟨hname, htype, rfl⟩
    rw [htask, hu] at ht
    rw [← Option.some.inj ht, hq] at hp
    exact (Option.some.inj hp).symm

/-! ### Runs in which no task takes up the target of another -/

instance (t : Task) : Decidable (Plain t) := by
  unfold Plain
  infer_instance

/-- A task takes up a target: it is new (a client's question, or a sub-query), or it has followed a CNAME. -/
def TakesUp (before : Option Task) (t : Task) : Prop :=
  ∀ t₀ ∈ before, (t₀.target == t.target) = false ∨ Plain t₀ ∧ ¬ Plain t

instance (before : Option Task) (t : Task) : Decidable (TakesUp before t) := by
  unfold TakesUp
  infer_instance

/-- Two tasks with one target are one. Client tasks that have followed no CNAME are left out: `resolve()`
keeps those apart itself. -/
def Differ (i j : ℕ) (t u : Task) : Prop :=
  (t.target == u.target) = true → i = j ∨ Plain t ∧ Plain u

instance (i j : ℕ) (t u : Task) : Decidable (Differ i j t u) := by
  unfold Differ
  infer_instance

/-- If a task takes up a target in the step, then no other task has that target. -/
def Apart (w : World) (_ : Event) (w' : World) : Prop :=
  ∀ i < w'.nextTaskId, ∀ t ∈ w'.tasks i, TakesUp (w.tasks i) t →
    ∀ j < w'.nextTaskId, ∀ u ∈ w'.tasks j, Differ i j t u

instance (w : World) (e : Event) (w' : World) : Decidable (Apart w e w') := by
  unfold Apart
  infer_instance

/-- No two tasks have the same target, whether they wait for an answer or not. -/
def TargetsApart (w : World) : Prop :=
  ∀ i j t u, w.tasks i = some t → w.tasks j = some u → Differ i j t u

theorem target_beq_trans {t u v : Task} (h : (t.target == u.target) = true)
    (h' : (u.target == v.target) = true) : (t.target == v.target) = true := by
  rw [Question.beq_iff] at h h' ⊢
  exact ⟨h.1.trans h'.1, h.2.1.trans h'.2.1, rfl⟩

theorem target_beq_symm {t u : Task} (h : (t.target == u.target) = true) :
    (u.target == t.target) = true := by
  rw [Question.beq_iff] at h ⊢
  exact ⟨h.1.symm, h.2.1.symm, rfl⟩

/-- A task that takes up nothing has the target that it had. -/
theorem kept_of_not_takesUp {before : Option Task} {t : Task} (h : ¬ TakesUp before t) :
    ∃ t₀, before = some t₀ ∧ (t₀.target == t.target) = true ∧ (Plain t₀ → Plain t) := by
  simp only [TakesUp, not_forall, not_or, Bool.not_eq_false, not_and, not_not] at h
  obtain ⟨t₀, hmem, htarget, hplain⟩ := h
  exact ⟨t₀, hmem, htarget, hplain⟩

theorem targetsApart_step {w' : World} {e : Event} (hw : Wired .idle w') (hapart : Apart w e w')
    (h : TargetsApart w) : TargetsApart w' := by
  intro i j t u ht hu htarget
  have hi := hw.task_lt i t ht
  have hj := hw.task_lt j u hu
  by_cases htakes : TakesUp (w.tasks i) t
  · exact hapart i hi t ht htakes j hj u hu htarget
  by_cases hutakes : TakesUp (w.tasks j) u
  · exact (hapart j hj u hu hutakes i hi t ht (target_beq_symm htarget)).imp Eq.symm And.symm
  -- both had these targets before
  obtain ⟨t₀, ht₀, htkept, htplain⟩ := kept_of_not_takesUp htakes
  obtain ⟨u₀, hu₀, hukept, huplain⟩ := kept_of_not_takesUp hutakes
  have hsame := target_beq_trans (target_beq_trans htkept htarget) (target_beq_symm hukept)
  exact (h i j t₀ u₀ ht₀ hu₀ hsame).imp_right (And.imp htplain huplain)

/-- **In every run in which no task takes up the target of another, the queries in flight are distinct**
in every state reached. -/
theorem run_queriesDistinct {sh : Shared} {es : List Event}
    (h : Run (Restrict (Step cfg env) Apart) { shared := sh } es w) : QueriesDistinct w := by
  have hinit : Wired .idle { shared := sh } := wired_init sh
  have hrun : Run (Step cfg env) { shared := sh } es w := h.of_restrict
  have hat : AllAtQuestion (.idle, w) :=
    run_keeps (fun _ _ _ => atQuestion_micro) hrun hinit fun i t ht => absurd ht (by simp)
  have hboth : Wired .idle w ∧ TargetsApart w :=
    h.invariant (P := fun w => Wired .idle w ∧ TargetsApart w)
      (fun w e w' hw hstep =>
        have hwired := wired_run (.cons hstep.1 (.nil w')) hw.1
        ⟨hwired, targetsApart_step hwired hstep.2 hw.2⟩)
      ⟨hinit, fun i j t u ht => absurd ht (by simp)⟩
  refine (queriesDistinct_iff hboth.1 hat).mpr ?_
  rintro i j ⟨t, u, ht, hu, -, -, hplain, htarget⟩
  exact (hboth.2 i j t u ht hu htarget).resolve_right fun hboth => hplain hboth.1

/-! ### Two names with one alias -/

/-- The server's answer to the question for the address of `n`: an alias of `target`, not to be
cached. -/
def aliasReply (n target : Name) : Except UpstreamError Message :=
  .ok (reply ⟨n, RRType.A, kClassIN⟩
    { header := { aa := true }
      answers := [{ name := n, type := RRType.CNAME, rdata := .cname target, ttl := 0 }] })

/-- Two clients ask for two names. -/
def twoQuestions : List Event :=
  [.resolve ⟨letter 97, RRType.A, kClassIN⟩, .resolve ⟨letter 98, RRType.A, kClassIN⟩, .timer 1,
    .timer 3]

/-- One of the names is an alias of a third: its task follows the CNAME, to a name no other task asks for. -/
theorem run_queriesDistinct_oneAlias :
    ∃ w, Run (Restrict (Step sampleConfig fun _ => 0) Apart) sampleStart
        (twoQuestions ++ [.upstream 1 (aliasReply (letter 97) (letter 99))]) w ∧
      ((w.pending 2).isSome && (w.pending 3).any fun x => x.question.qname == letter 99) = true ∧
      QueriesDistinct w := by
  have hcomputed : (Run.applyAll
      (fun w e => (apply sampleConfig (fun _ => 0) 16 w e).filter fun w' => Apart w e w') sampleStart
      (twoQuestions ++ [.upstream 1 (aliasReply (letter 97) (letter 99))])).any (fun w =>
        (w.pending 2).isSome && (w.pending 3).any fun x => x.question.qname == letter 99) = true := by
    decide +kernel
  obtain ⟨w, hrun, hpending⟩ := Run.exists_of_applyAll (fun w e w' h => by
    obtain ⟨hstep, hapart⟩ := Option.filter_eq_some_iff.mp h
    exact (⟨⟨16, hstep⟩, of_decide_eq_true hapart⟩ :
      Restrict (Step sampleConfig fun _ => 0) Apart w e w')) hcomputed
  have hstart : Run (Restrict (Step sampleConfig fun _ => 0) Apart) { shared := sampleStart.shared } _ w := hrun
  exact ⟨w, hrun, hpending, run_queriesDistinct hstart⟩

/-- Both names are aliases of a third. -/
def aliasEvents : List Event :=
  twoQuestions ++ [.upstream 1 (aliasReply (letter 97) (letter 99)),
    .upstream 2 (aliasReply (letter 98) (letter 99))]

/-- Two tasks wait for the same question, each with a query of its own. -/
theorem not_queriesDistinct_aliases :
    ∃ w, Run (Step sampleConfig fun _ => 0) sampleStart aliasEvents w ∧ ¬ QueriesDistinct w := by
  let same : World → Bool := fun w =>
    (w.pending 3).any fun x => (w.pending 4).any fun y => x.question == y.question
  obtain ⟨w, hrun, hsame⟩ := exists_run aliasEvents (P := same) (by decide +kernel)
  refine ⟨w, hrun, fun hdistinct => ?_⟩
  obtain ⟨x, hx, hsame⟩ := (Option.any_eq_true _ _).mp hsame
  obtain ⟨y, hy, hsame⟩ := (Option.any_eq_true _ _).mp hsame
  exact absurd (hdistinct 3 4 x y hx hy hsame) (by decide)

end DNSentinel.Resolver.Coalescing
