import DNSentinel.Policy.TrieBuild
import DNSentinel.Lib.Runs

/-! # Reloading the lists

`blocklists.cpp`, and the part of `main` that calls it. The worker stamps the files and then reads
them one by one, while they may change at any time; the loop collects what the worker has finished.
A SIGHUP that is handled while a reload is under way does nothing. So a request is honoured exactly if
every file read so far still has the names that were read.

A file is modelled by the names `load_file` gets from it. The changes of a file are counted; the code
does not know that count. -/

namespace DNSentinel.Policy.Reload

open DNSentinel.Types Lib.Runs Policy.Lists TrieBuild

/-! ### Files -/

structure FileStamp where
  present : Bool := false
  device : ℕ := 0
  inode : ℕ := 0
  size : ℕ := 0
  mtime : ℕ × ℕ := (0, 0)
deriving DecidableEq

structure ListFile where
  /-- the names on the list, or why it cannot be read -/
  content : Except String (List Name)
  stamp : FileStamp := {}
  /-- how often it has changed -/
  version : ℕ := 0

abbrev Files := String → ListFile

/-- The lists in the order in which they are read. -/
def paths (config : ListsConfig) : List (String × ListAction) :=
  config.blocklists.map (fun path => (path, .block)) ++ config.allowlists.map fun path => (path, .allow)

/-- What was read of a file. -/
structure Read where
  path : String
  action : ListAction
  names : List Name

/-- `load_file` -/
def loadFile (b : Builder) (r : Read) : Builder :=
  r.names.foldl (fun b name => add b name r.action r.path) b

def trieOfReads (reads : List Read) : BlocklistTrie := build (reads.foldl loadFile {})

/-! ### The lists and their worker -/

structure Attempt where
  stamps : List FileStamp
  result : Except String (List Read)

/-- `read_lists` under way. -/
structure Worker where
  toStamp : List String
  stamps : List FileStamp := []
  toRead : List (String × ListAction)
  reads : List Read := []

structure Reloader where
  lists : Blocklists
  stamps : List FileStamp := []
  reloading : Bool := false
  worker : Option Worker := none
  finished : Option Attempt := none
  /-- the timer of `collect_reload` is set -/
  collecting : Bool := false
  files : Files
  /-- the reads the lists in use were made of -/
  used : List Read

namespace Reloader

def use (s : Reloader) (a : Attempt) : Reloader :=
  match a.result with
  | .error _ => { s with stamps := a.stamps }
  | .ok reads =>
    { s with stamps := a.stamps, lists := { s.lists with trie := trieOfReads reads }, used := reads }

/-- `start_reload`, and the timer that `reload` sets. -/
def reload (s : Reloader) : Reloader :=
  if s.reloading then s
  else
    { s with
      reloading := true
      worker := some
        { toStamp := (paths s.lists.config).map Prod.fst, toRead := paths s.lists.config }
      collecting := true }

def filesChanged (s : Reloader) : Bool :=
  (paths s.lists.config).map (fun p => (s.files p.1).stamp) != s.stamps

/-- `collect_reload` with `finish_reload`; the timer is set again if there is nothing to collect. -/
def collectReload (s : Reloader) : Reloader :=
  match s.finished with
  | none => s
  | some a => { s with finished := none, reloading := false, collecting := false }.use a

/-- The worker stamps a file, or reads one, or hands over its attempt. -/
def work (s : Reloader) (w : Worker) : Reloader :=
  match w.toStamp, w.toRead with
  | path :: rest, _ =>
    { s with worker := some { w with toStamp := rest, stamps := w.stamps ++ [(s.files path).stamp] } }
  | [], (path, action) :: rest =>
    match (s.files path).content with
    | .error e => { s with worker := none, finished := some ⟨w.stamps, .error e⟩ }
    | .ok names =>
      { s with worker := some { w with
          toRead := rest, reads := w.reads ++ [⟨path, action, names⟩] } }
  | [], [] => { s with worker := none, finished := some ⟨w.stamps, .ok w.reads⟩ }

end Reloader

/-- The lists after `load` at startup, with files that can be read. -/
def start (config : ListsConfig) (names : String → List Name) (stamp : String → FileStamp) :
    Reloader :=
  let used := (paths config).map fun p => ⟨p.1, p.2, names p.1⟩
  { lists := { config, trie := trieOfReads used }
    stamps := (paths config).map fun p => stamp p.1
    files := fun path => { content := .ok (names path), stamp := stamp path }
    used }

inductive Event where
  | change (path : String) (content : Except String (List Name)) (stamp : FileStamp)
  /-- the handler of SIGHUP runs -/
  | sighup
  | check
  | work
  | collect

/-- An event, if it can happen. -/
def apply (s : Reloader) : Event → Option Reloader
  | .change path content stamp =>
    some { s with files := Function.update s.files path ⟨content, stamp, (s.files path).version + 1⟩ }
  | .sighup => some s.reload
  | .check =>
    if s.lists.config.reloadCheckSeconds = 0 then none
    else some (if s.filesChanged then s.reload else s)
  | .work => s.worker.map s.work
  | .collect => if s.collecting then some s.collectReload else none

/-- **One event of a run.** -/
def Step (s : Reloader) (e : Event) (s' : Reloader) : Prop := apply s e = some s'

/-! ### What holds in every state -/

/-- The reads of the attempt under way. -/
def Reloader.underway (s : Reloader) : List Read :=
  match s.worker, s.finished with
  | some w, _ => w.reads
  | none, some ⟨_, .ok reads⟩ => reads
  | none, _ => []

def Read.key (r : Read) : String × ListAction := (r.path, r.action)

/-- What a reload has come to. -/
def Stage (s : Reloader) : Prop :=
  (∃ w, s.worker = some w ∧ s.finished = none ∧
    w.reads.map Read.key ++ w.toRead = paths s.lists.config) ∨
  (∃ stamps reads, s.worker = none ∧ s.finished = some ⟨stamps, .ok reads⟩ ∧
    reads.map Read.key = paths s.lists.config)

structure Orderly (s : Reloader) : Prop where
  unchecked : s.lists.config.reloadCheckSeconds = 0
  readable : ∀ path, ∃ names, (s.files path).content = .ok names
  idle : s.reloading = false → s.worker = none ∧ s.finished = none
  busy : s.reloading = true → s.collecting = true ∧ Stage s
  trie : s.lists.trie = trieOfReads s.used
  complete : s.used.map Read.key = paths s.lists.config

/-- The file can be read after the change. -/
def readable : Event → Bool
  | .change _ (.error _) _ => false
  | _ => true

variable {s s' : Reloader} {config : ListsConfig} {names : String → List Name}
  {stamp : String → FileStamp} {w : Worker} {es : List Event}

theorem orderly_start (hcheck : config.reloadCheckSeconds = 0) (names : String → List Name)
    (stamp : String → FileStamp) : Orderly (start config names stamp) where
  unchecked := hcheck
  readable path := ⟨names path, rfl⟩
  idle _ := ⟨rfl, rfl⟩
  busy h := by simp [start] at h
  trie := rfl
  complete := by
    show ((paths config).map _).map Read.key = paths config
    rw [List.map_map]
    exact List.map_id _

theorem orderly_reload (h : Orderly s) : Orderly s.reload := by
  unfold Reloader.reload
  by_cases hreloading : s.reloading = true
  · rwa [if_pos hreloading]
  · rw [if_neg hreloading]
    obtain ⟨-, hfinished⟩ := h.idle (by simpa using hreloading)
    exact ⟨h.unchecked, h.readable, fun hidle => by simp at hidle,
      fun _ => ⟨rfl, .inl ⟨_, rfl, hfinished, rfl⟩⟩, h.trie, h.complete⟩

theorem Orderly.working (h : Orderly s) (hw : s.worker = some w) : s.reloading = true ∧
    s.collecting = true ∧ s.finished = none ∧
    w.reads.map Read.key ++ w.toRead = paths s.lists.config := by
  have hreloading : s.reloading = true := by
    by_contra hidle
    have hnone := (h.idle (by simpa using hidle)).1
    simp [hw] at hnone
  obtain ⟨hcollecting, hstage⟩ := h.busy hreloading
  rcases hstage with ⟨w', hw', hfinished, hkeys⟩ | ⟨_, _, hnone, -⟩
  · obtain rfl : w' = w := Option.some.inj (hw'.symm.trans hw)
    exact ⟨hreloading, hcollecting, hfinished, hkeys⟩
  · simp [hw] at hnone

theorem work_cases (h : Orderly s) (w : Worker) :
    (∃ path rest, w.toStamp = path :: rest ∧ s.work w = { s with worker := some { w with
      toStamp := rest, stamps := w.stamps ++ [(s.files path).stamp] } }) ∨
    (∃ path action rest names, w.toStamp = [] ∧ w.toRead = (path, action) :: rest ∧
      (s.files path).content = .ok names ∧ s.work w = { s with worker := some { w with
        toRead := rest, reads := w.reads ++ [⟨path, action, names⟩] } }) ∨
    w.toStamp = [] ∧ w.toRead = [] ∧
      s.work w = { s with worker := none, finished := some ⟨w.stamps, .ok w.reads⟩ } := by
  unfold Reloader.work
  split
  · next path rest htoStamp => exact .inl ⟨path, rest, htoStamp, rfl⟩
  · next path action rest htoStamp htoRead =>
    obtain ⟨names, hnames⟩ := h.readable path
    simp only [hnames]
    exact .inr (.inl ⟨path, action, rest, names, htoStamp, htoRead, hnames, rfl⟩)
  · next htoStamp htoRead => exact .inr (.inr ⟨htoStamp, htoRead, rfl⟩)

theorem orderly_work (h : Orderly s) (hw : s.worker = some w) : Orderly (s.work w) := by
  obtain ⟨hreloading, hcollecting, hfinished, hkeys⟩ := h.working hw
  have hbusy : ∀ {P : Prop}, s.reloading = false → P := fun hidle => by simp [hreloading] at hidle
  rcases work_cases h w with ⟨path, rest, htoStamp, heq⟩ |
    ⟨path, action, rest, names, htoStamp, htoRead, hnames, heq⟩ | ⟨htoStamp, htoRead, heq⟩
  · rw [heq]
    exact ⟨h.unchecked, h.readable, hbusy, fun _ => ⟨hcollecting, .inl ⟨_, rfl, hfinished, hkeys⟩⟩,
      h.trie, h.complete⟩
  · rw [heq]
    refine ⟨h.unchecked, h.readable, hbusy, fun _ => ⟨hcollecting, .inl ⟨_, rfl, hfinished, ?_⟩⟩, h.trie,
      h.complete⟩
    rw [← hkeys, htoRead, List.map_append, List.append_assoc]
    rfl
  · rw [heq]
    rw [htoRead, List.append_nil] at hkeys
    exact ⟨h.unchecked, h.readable, hbusy, fun _ => ⟨hcollecting, .inr ⟨_, _, rfl, rfl, hkeys⟩⟩, h.trie,
      h.complete⟩

theorem collect_cases (h : Orderly s) : s.collectReload = s ∨
    ∃ stamps reads, s.reloading = true ∧ s.worker = none ∧ s.finished = some ⟨stamps, .ok reads⟩ ∧
      reads.map Read.key = paths s.lists.config ∧
      s.collectReload = { s with
        finished := none, reloading := false, collecting := false, stamps, used := reads
        lists := { s.lists with trie := trieOfReads reads } } := by
  unfold Reloader.collectReload
  cases hfinished : s.finished with
  | none => exact .inl rfl
  | some a =>
    have hreloading : s.reloading = true := by
      by_contra hidle
      have hnone := (h.idle (by simpa using hidle)).2
      simp [hfinished] at hnone
    rcases (h.busy hreloading).2 with ⟨_, _, hnone, -⟩ | ⟨stamps, reads, hworker, hsome, hkeys⟩
    · simp [hfinished] at hnone
    · obtain rfl : a = ⟨stamps, .ok reads⟩ := Option.some.inj (hfinished.symm.trans hsome)
      exact .inr ⟨stamps, reads, hreloading, hworker, rfl, hkeys, rfl⟩

theorem orderly_collect (h : Orderly s) : Orderly s.collectReload := by
  rcases collect_cases h with heq | ⟨stamps, reads, -, hworker, -, hkeys, heq⟩
  · rwa [heq]
  · rw [heq]
    exact ⟨h.unchecked, h.readable, fun _ => ⟨hworker, rfl⟩, fun hbusy => by simp at hbusy, rfl, hkeys⟩

theorem orderly_step {e : Event} (he : readable e = true) (h : Orderly s) (hs : Step s e s') :
    Orderly s' := by
  cases e with
  | change path content stamp =>
    obtain rfl := Option.some.inj hs
    refine ⟨h.unchecked, fun other => ?_, h.idle, h.busy, h.trie, h.complete⟩
    cases content with
    | error e => simp [readable] at he
    | ok names =>
      by_cases hother : other = path
      · subst hother
        refine ⟨names, ?_⟩
        dsimp only
        rw [Function.update_self]
      · obtain ⟨names', hnames'⟩ := h.readable other
        exact ⟨names', (congrArg ListFile.content (Function.update_of_ne hother ..)).trans hnames'⟩
  | sighup =>
    obtain rfl := Option.some.inj hs
    exact orderly_reload h
  | check => simp [Step, apply, h.unchecked] at hs
  | work =>
    obtain ⟨w, hw, rfl⟩ := Option.map_eq_some_iff.mp hs
    exact orderly_work h hw
  | collect =>
    simp only [Step, apply] at hs
    split_ifs at hs
    obtain rfl := Option.some.inj hs
    exact orderly_collect h

/-! ### A request -/

/-- The names that the file had at some time during the events `es` after `s`. -/
def Held (s : Reloader) (es : List Event) (path : String) (names : List Name) : Prop :=
  ∃ es₁ u, es₁ <+: es ∧ Run Step s es₁ u ∧ (u.files path).content = .ok names

/-- The lists in use in `s'` are made of one read of each file, in order, and each read has names
that the file has had since `s`. -/
structure Reflects (s : Reloader) (es : List Event) (s' : Reloader) : Prop where
  trie : s'.lists.trie = trieOfReads s'.used
  complete : s'.used.map Read.key = paths s'.lists.config
  recent : ∀ r ∈ s'.used, Held s es r.path r.names

/-- The reads that count are recent enough. -/
structure Recent (P : String → List Name → Prop) (s : Reloader) : Prop where
  used : s.reloading = false → ∀ r ∈ s.used, P r.path r.names
  underway : s.reloading = true → ∀ r ∈ s.underway, P r.path r.names

variable {P : String → List Name → Prop}

theorem recent_step {e : Event} (he : e ≠ .sighup) (h : Orderly s)
    (hnow : ∀ path names, (s.files path).content = .ok names → P path names) (hP : Recent P s)
    (hs : Step s e s') : Recent P s' := by
  cases e with
  | change path content stamp =>
    obtain rfl := Option.some.inj hs
    exact ⟨hP.used, hP.underway⟩
  | sighup => exact absurd rfl he
  | check => simp [Step, apply, h.unchecked] at hs
  | work =>
    obtain ⟨w, hw, rfl⟩ := Option.map_eq_some_iff.mp hs
    obtain ⟨hreloading, -, -, -⟩ := h.working hw
    have hreads : ∀ r ∈ w.reads, P r.path r.names := fun r hr =>
      hP.underway hreloading r (by simpa [Reloader.underway, hw] using hr)
    rcases work_cases h w with ⟨path, rest, htoStamp, heq⟩ |
      ⟨path, action, rest, names, htoStamp, htoRead, hnames, heq⟩ | ⟨htoStamp, htoRead, heq⟩
    · rw [heq]
      exact ⟨hP.used, fun _ => hreads⟩
    · rw [heq]
      refine ⟨hP.used, fun _ r hr => ?_⟩
      rcases List.mem_append.mp hr with hr | hr
      · exact hreads r hr
      · rw [List.mem_singleton.mp hr]
        exact hnow path names hnames
    · rw [heq]
      exact ⟨hP.used, fun _ => hreads⟩
  | collect =>
    simp only [Step, apply] at hs
    split_ifs at hs
    obtain rfl := Option.some.inj hs
    rcases collect_cases h with heq | ⟨stamps, reads, hreloading, hworker, hfinished, -, heq⟩
    · rwa [heq]
    · have hunderway : s.underway = reads := by rw [Reloader.underway, hworker, hfinished]
      rw [heq]
      exact ⟨fun _ r hr => hP.underway hreloading r (hunderway ▸ hr), fun hbusy => by simp at hbusy⟩

/-- Events after a request: no other request, and files that can be read. -/
def Calm (es : List Event) : Prop := ∀ e ∈ es, e ≠ .sighup ∧ readable e = true

theorem orderly_run (hes : ∀ e ∈ es, readable e = true) (h : Run Step s es s') (hs : Orderly s) :
    Orderly s' :=
  (h.restrict hes).invariant (P := Orderly) (fun _ _ _ hs hse => orderly_step hse.2 hs hse.1) hs

theorem held_now {path : String} {names : List Name} (h : (s.files path).content = .ok names) :
    Held s es path names := ⟨[], s, List.nil_prefix, .nil s, h⟩

theorem Held.cons {e : Event} {path : String} {names : List Name} (hs : Step s e s')
    (h : Held s' es path names) : Held s (e :: es) path names := by
  obtain ⟨es₁, u, hpre, hrun, hu⟩ := h
  exact ⟨e :: es₁, u, List.cons_prefix_cons.mpr ⟨rfl, hpre⟩, .cons hs hrun, hu⟩

theorem recent_run (hes : Calm es) (h : Run Step s es s') (hs : Orderly s)
    (hheld : ∀ path names, Held s es path names → P path names) (hP : Recent P s) : Recent P s' := by
  induction h with
  | nil s => exact hP
  | cons hse _ ih =>
    obtain ⟨hne, hreadable⟩ := hes _ List.mem_cons_self
    exact ih (fun e he => hes e (List.mem_cons_of_mem _ he)) (orderly_step hreadable hs hse)
      (fun path names hlater => hheld path names (hlater.cons hse))
      (recent_step hne hs (fun path names hnow => hheld path names (held_now hnow)) hP hse)

/-- Every file read so far still has the names that were read. -/
def Unchanged (s : Reloader) : Prop := ∀ r ∈ s.underway, (s.files r.path).content = .ok r.names

theorem recent_reload (hcond : s.reloading = false ∨ Unchanged s)
    (hnow : ∀ path names, (s.files path).content = .ok names → P path names) :
    Recent P s.reload := by
  by_cases hreloading : s.reloading = true
  · have hsame : s.reload = s := by rw [Reloader.reload, if_pos hreloading]
    have hunchanged : Unchanged s := hcond.resolve_left (by simp [hreloading])
    rw [hsame]
    exact ⟨fun hidle => by simp [hreloading] at hidle,
      fun _ r hr => hnow r.path r.names (hunchanged r hr)⟩
  · unfold Reloader.reload
    rw [if_neg hreloading]
    exact ⟨fun hidle => by simp at hidle, fun _ r hr => by simp [Reloader.underway] at hr⟩

/-- Nothing but the reload goes on. -/
def Alone (es : List Event) : Prop := ∀ e ∈ es, e = .work ∨ e = .collect

theorem Alone.calm (h : Alone es) : Calm es := by
  intro e he
  rcases h e he with rfl | rfl <;> exact ⟨by simp, rfl⟩

theorem files_step {e : Event} (he : e = .sighup ∨ e = .work ∨ e = .collect) (hs : Step s e s') :
    s'.files = s.files := by
  rcases he with rfl | rfl | rfl
  · obtain rfl := Option.some.inj hs
    unfold Reloader.reload
    split_ifs <;> rfl
  · obtain ⟨w, -, rfl⟩ := Option.map_eq_some_iff.mp hs
    unfold Reloader.work
    split
    · rfl
    · split <;> rfl
    · rfl
  · simp only [Step, apply] at hs
    split_ifs at hs
    obtain rfl := Option.some.inj hs
    unfold Reloader.collectReload Reloader.use
    split
    · rfl
    · split <;> rfl

theorem content_of_held {path : String} {names : List Name} (hes : Alone es)
    (h : Held s (.sighup :: es) path names) : (s.files path).content = .ok names := by
  obtain ⟨es₁, u, hpre, hrun, hu⟩ := h
  have hcalm : ∀ e ∈ es₁, e = .sighup ∨ e = .work ∨ e = .collect := fun e he =>
    (List.mem_cons.mp (hpre.subset he)).imp_right (hes e)
  have hfiles : u.files = s.files := (hrun.restrict hcalm).invariant (P := fun x => x.files = s.files)
    (fun _ _ _ hx hse => (files_step hse.2 hse.1).trans hx) rfl
  rw [← hfiles]
  exact hu

/-- What the worker has handed over is collected. -/
theorem collect_completes (h : Orderly s) (hreloading : s.reloading = true) (hw : s.worker = none) :
    ∃ es s', Alone es ∧ Run Step s es s' ∧ s'.reloading = false ∧ ∀ r ∈ s.underway, r ∈ s'.used := by
  obtain ⟨hcollecting, hstage⟩ := h.busy hreloading
  rcases hstage with ⟨w, hw', -, -⟩ | ⟨stamps, reads, -, hfinished, -⟩
  · simp [hw] at hw'
  have hstep : Step s .collect s.collectReload := by
    show (if s.collecting then some s.collectReload else none) = some s.collectReload
    rw [if_pos hcollecting]
  have hcollect : s.collectReload =
      { s with finished := none, reloading := false, collecting := false }.use
        ⟨stamps, .ok reads⟩ := by rw [Reloader.collectReload, hfinished]
  have hunderway : s.underway = reads := by rw [Reloader.underway, hw, hfinished]
  refine ⟨[.collect], s.collectReload, by simp [Alone], .cons hstep (.nil _), ?_, ?_⟩
  · rw [hcollect]
    rfl
  · rw [hunderway, hcollect]
    exact fun r hr => hr

theorem worker_completes : ∀ (n : ℕ) (s : Reloader) (w : Worker), Orderly s → s.worker = some w →
    w.toStamp.length + w.toRead.length = n → ∃ es s', Alone es ∧ Run Step s es s' ∧
      s'.reloading = false ∧ ∀ r ∈ w.reads, r ∈ s'.used := by
  intro n
  induction n with
  | zero =>
    intro s w h hw hn
    have hstep : Step s .work (s.work w) := by simp [Step, apply, hw]
    have hreloading := (h.working hw).1
    rcases work_cases h w with ⟨path, rest, htoStamp, -⟩ | ⟨path, action, rest, -, -, htoRead, -, -⟩ |
      ⟨-, -, heq⟩
    · simp [htoStamp] at hn
    · simp [htoRead] at hn
    · have hnext : Orderly (s.work w) := orderly_work h hw
      have hunderway : (s.work w).underway = w.reads := by rw [heq]; rfl
      obtain ⟨es, s', halone, hrun, hidle, hused⟩ :=
        collect_completes hnext (by rw [heq]; exact hreloading) (by rw [heq])
      exact ⟨.work :: es, s', List.forall_mem_cons.mpr ⟨.inl rfl, halone⟩, .cons hstep hrun, hidle,
        fun r hr => hused r (hunderway ▸ hr)⟩
  | succ n ih =>
    intro s w h hw hn
    have hstep : Step s .work (s.work w) := by simp [Step, apply, hw]
    have hnext : Orderly (s.work w) := orderly_work h hw
    obtain ⟨w', hw', hless, hreads⟩ : ∃ w', (s.work w).worker = some w' ∧
        w'.toStamp.length + w'.toRead.length = n ∧ ∀ r ∈ w.reads, r ∈ w'.reads := by
      rcases work_cases h w with ⟨path, rest, htoStamp, heq⟩ |
        ⟨path, action, rest, names, htoStamp, htoRead, -, heq⟩ | ⟨htoStamp, htoRead, -⟩
      · refine ⟨_, congrArg Reloader.worker heq, ?_, fun r hr => hr⟩
        rw [htoStamp, List.length_cons] at hn
        dsimp only
        omega
      · refine ⟨_, congrArg Reloader.worker heq, ?_, fun r hr => List.mem_append_left _ hr⟩
        rw [htoRead, List.length_cons] at hn
        dsimp only
        omega
      · simp [htoStamp, htoRead] at hn
    obtain ⟨es, s', halone, hrun, hidle, hused⟩ := ih (s.work w) w' hnext hw' hless
    exact ⟨.work :: es, s', List.forall_mem_cons.mpr ⟨.inl rfl, halone⟩, .cons hstep hrun, hidle,
      fun r hr => hused r (hreads r hr)⟩

/-- Left alone, a reload comes to its end, with what it has read so far. -/
theorem reload_completes (h : Orderly s) (hreloading : s.reloading = true) : ∃ es s',
    Alone es ∧ Run Step s es s' ∧ s'.reloading = false ∧ ∀ r ∈ s.underway, r ∈ s'.used := by
  cases hw : s.worker with
  | none => exact collect_completes h hreloading hw
  | some w =>
    have hunderway : s.underway = w.reads := by rw [Reloader.underway, hw]
    rw [hunderway]
    exact worker_completes _ s w h hw rfl

/-- **A request is honoured exactly if no reload is under way, or every file that it has read still has
the names that were read.** In every run with periodic checking off and files that can be read: if
SIGHUP is handled in `s`, then whenever no reload is under way, up to the next request, the lists in
use are those of the files at some time since. -/
theorem request_kept_iff (hcheck : config.reloadCheckSeconds = 0)
    (hes : ∀ e ∈ es, readable e = true) (h : Run Step (start config names stamp) es s) :
    (∀ es' s', Calm es' → Run Step s (.sighup :: es') s' → s'.reloading = false →
      Reflects s (.sighup :: es') s') ↔ s.reloading = false ∨ Unchanged s := by
  have hs : Orderly s := orderly_run hes h (orderly_start hcheck names stamp)
  constructor
  · intro hkept
    by_cases hreloading : s.reloading = true
    · refine .inr fun r hr => ?_
      have hsame : s.reload = s := by rw [Reloader.reload, if_pos hreloading]
      have hstep : Step s .sighup s := congrArg some hsame
      obtain ⟨es', s', halone, hrun, hidle, hused⟩ := reload_completes hs hreloading
      have hreflects := hkept es' s' halone.calm (.cons hstep hrun) hidle
      exact content_of_held halone (hreflects.recent r (hused r hr))
    · exact .inl (by simpa using hreloading)
  · intro hcond es' s' hcalm hrun hidle
    cases hrun with
    | cons hstep hrest =>
      obtain rfl := Option.some.inj hstep
      have hreload := orderly_reload hs
      have hlast : Orderly s' := orderly_run (fun e he => (hcalm e he).2) hrest hreload
      have hrecent : Recent (Held s (.sighup :: es')) s' := recent_run hcalm hrest hreload
        (fun _ _ hlater => hlater.cons hstep) (recent_reload hcond fun _ _ => held_now)
      exact ⟨hlast.trie, hlast.complete, hrecent.used hidle⟩

/-- One list, which is empty at first. -/
def oneList : ListsConfig := { blocklists := ["ads"], reloadCheckSeconds := 0 }

def emptyStart : Reloader := start oneList (fun _ => []) fun _ => {}

/-- The name that is put on the list. -/
def tracker : Name := ⟨[[116]], [[116]]⟩

def Reloader.blocks (s : Reloader) (n : Name) : Bool := (s.lists.lookup n).matched

theorem request_kept_iff_idle :
    ∃ s, Run Step emptyStart [.change "ads" (.ok [tracker]) {}] s ∧ ∀ es' s', Calm es' →
      Run Step s (.sighup :: es') s' → s'.reloading = false → Reflects s (.sighup :: es') s' := by
  obtain ⟨s, hrun, hidle⟩ : ∃ s, Run Step emptyStart [.change "ads" (.ok [tracker]) {}] s ∧
      (!s.reloading) = true :=
    Run.exists_of_applyAll (fun _ _ _ h => (h : Step _ _ _)) (by decide +kernel)
  refine ⟨s, hrun, (request_kept_iff rfl (fun e he => ?_) hrun).mpr (.inl (by simpa using hidle))⟩
  rw [List.mem_singleton.mp he]
  rfl

/-- A request that is lost: the worker has read the list when a name is put on it and SIGHUP is
handled; once the reload is over the name is still not blocked. -/
theorem request_lost : ∃ es s es' s', Run Step emptyStart es s ∧
    (s.files "ads").content = .ok [tracker] ∧ Calm es' ∧ Run Step s (.sighup :: es') s' ∧
    s'.reloading = false ∧ s'.blocks tracker = false ∧ ¬ Reflects s (.sighup :: es') s' := by
  refine ⟨[.sighup, .work, .work, .change "ads" (.ok [tracker]) { present := true }], _,
    [.work, .collect], _, .cons rfl (.cons rfl (.cons rfl (.cons rfl (.nil _)))), rfl, ?_,
    .cons rfl (.cons rfl (.cons rfl (.nil _))), rfl, ?_, ?_⟩
  · exact Alone.calm (by simp [Alone])
  · decide +kernel
  · intro hreflects
    have hheld := hreflects.recent ⟨"ads", .block, []⟩ List.mem_cons_self
    exact absurd (content_of_held (by simp [Alone]) hheld) nofun

end DNSentinel.Policy.Reload
