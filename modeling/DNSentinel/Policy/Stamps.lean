import DNSentinel.Policy.Reload

/-! # What the stamps tell

`files_changed` compares the stamps of the files with those that the last attempt took before it read
the first file. Here `load` goes step by step like the worker does, files change and are removed at any
time, and a stamp is never given to a file twice. Every stamp is taken before every read (`Covers`):
if a stamp is still the file's own, then the file is still what was read.

How often a file had changed when it was stamped (`marks`), and which stamps it has had (`past`), the
code does not know. -/

namespace DNSentinel.Policy.Stamps

open DNSentinel.Types Lib.Runs Policy.Lists Reload

/-! ### The system -/

/-- `read_lists` goes on: it stamps a file, or reads one, or is done. -/
def readNext (files : Files) (w : Worker) : Worker ⊕ Attempt :=
  match w.toStamp, w.toRead with
  | path :: rest, _ => .inl { w with toStamp := rest, stamps := w.stamps ++ [(files path).stamp] }
  | [], (path, action) :: rest =>
    match (files path).content with
    | .error e => .inr ⟨w.stamps, .error e⟩
    | .ok names =>
      .inl { w with toRead := rest, reads := w.reads ++ [⟨path, action, names⟩] }
  | [], [] => .inr ⟨w.stamps, .ok w.reads⟩

/-- The marks, after the next file has been stamped. -/
def markNext (files : Files) (w : Worker) (marks : List ℕ) : List ℕ :=
  match w.toStamp with
  | path :: _ => marks ++ [(files path).version]
  | [] => marks

structure System where
  reloader : Reloader
  /-- `load` is under way -/
  loading : Option Worker := none
  loadMarks : List ℕ := []
  /-- the marks of the worker, or of the attempt it has handed over -/
  workMarks : List ℕ := []
  /-- the marks of the stamps in use -/
  marks : List ℕ := []
  /-- whether the last attempt that was collected succeeded -/
  succeeded : Option Bool := none
  past : String → List FileStamp

/-- The lists before the first `load`, with any files. -/
def begin (config : ListsConfig) (files : Files) : System where
  reloader := { lists := { config }, files, used := [] }
  past path := [(files path).stamp]

inductive Event where
  /-- a file is modified, replaced or created -/
  | change (path : String) (content : Except String (List Name)) (stamp : FileStamp)
  | remove (path : String) (error : String)
  | load
  | loadNext
  | startReload
  | work
  | finishReload

namespace System

abbrev paths (s : System) : List (String × ListAction) := Reload.paths s.reloader.lists.config

def put (s : System) (path : String) (content : Except String (List Name)) (stamp : FileStamp) :
    System :=
  let files := Function.update s.reloader.files path
    ⟨content, stamp, (s.reloader.files path).version + 1⟩
  { s with
    reloader := { s.reloader with files }
    past := Function.update s.past path (stamp :: s.past path) }

/-- `use` -/
def collect (s : System) (reloader : Reloader) (marks : List ℕ) (a : Attempt) : System :=
  { s with reloader := reloader, marks := marks, succeeded := some a.result.isOk }

/-- The attempt that an event collects. -/
def collected (s : System) : Event → Option Attempt
  | .loadNext =>
    match s.loading.map (readNext s.reloader.files) with
    | some (.inr a) => some a
    | _ => none
  | .finishReload => s.reloader.finished
  | _ => none

end System

/-- An event, if it can happen. -/
def apply (s : System) : Event → Option System
  | .change path content stamp =>
    if stamp.present && !(s.past path).contains stamp then some (s.put path content stamp) else none
  | .remove path error => some (s.put path (.error error) {})
  | .load =>
    if s.loading.isSome then none
    else
      some { s with
        loading := some { toStamp := s.paths.map Prod.fst, toRead := s.paths }
        loadMarks := [] }
  | .loadNext =>
    s.loading.map fun w =>
      match readNext s.reloader.files w with
      | .inl w' =>
        { s with loading := some w', loadMarks := markNext s.reloader.files w s.loadMarks }
      | .inr a => { s with loading := none }.collect (s.reloader.use a) s.loadMarks a
  | .startReload =>
    if s.loading.isSome then none
    else if s.reloader.reloading then some s
    else some { s with reloader := s.reloader.reload, workMarks := [] }
  | .work =>
    s.reloader.worker.map fun w =>
      { s with
        reloader := s.reloader.work w
        workMarks := markNext s.reloader.files w s.workMarks }
  | .finishReload =>
    if s.loading.isSome then none
    else
      match s.reloader.finished with
      | none => some s
      | some a => some (s.collect s.reloader.collectReload s.workMarks a)

/-- **One event of a run.** -/
def Step (s : System) (e : Event) (s' : System) : Prop := apply s e = some s'

theorem work_eq (s : Reloader) (w : Worker) : s.work w =
    match readNext s.files w with
    | .inl w' => { s with worker := some w' }
    | .inr a => { s with worker := none, finished := some a } := by
  obtain ⟨toStamp, stamps, toRead, reads⟩ := w
  rcases toStamp with _ | ⟨path, rest⟩
  · rcases toRead with _ | ⟨⟨path, action⟩, rest⟩
    · rfl
    · unfold Reloader.work readNext
      cases hcontent : (s.files path).content with
      | error e | ok names => simp [hcontent]
  · rfl

/-! ### Stamps that were taken -/

/-- A stamp of a file, and how often the file had changed then. -/
structure Taken where
  path : String
  stamp : FileStamp
  mark : ℕ

variable {files : Files} {past : String → List FileStamp} {config : ListsConfig} {w w' : Worker}
  {marks : List ℕ} {a : Attempt} {s s' : System} {es : List Event}

/-- The stamp is one that the file has had, and has if the file has not changed since. -/
structure Taken.Of (files : Files) (past : String → List FileStamp) (t : Taken) : Prop where
  had : t.stamp ∈ past t.path
  earlier : t.mark ≤ (files t.path).version
  current : t.mark = (files t.path).version → t.stamp = (files t.path).stamp

/-- If the file exists and still has the stamp, then it is still what was read. -/
def Agrees (files : Files) (stamp : FileStamp) (r : Read) : Prop :=
  stamp.present = true → stamp = (files r.path).stamp → (files r.path).content = .ok r.names

/-- The stamps with their marks, and what was read later. -/
structure Covers (files : Files) (past : String → List FileStamp) (stamps : List FileStamp)
    (marks : List ℕ) (reads : List Read) (ts : List Taken) : Prop where
  stamps : ts.map Taken.stamp = stamps
  marks : ts.map Taken.mark = marks
  taken : ∀ t ∈ ts, t.Of files past
  agrees : ∀ t ∈ ts, ∀ r ∈ reads, t.path = r.path → Agrees files t.stamp r

/-- `read_lists` under way. -/
def Underway (files : Files) (past : String → List FileStamp) (config : ListsConfig) (w : Worker)
    (marks : List ℕ) : Prop :=
  ∃ ts, Covers files past w.stamps marks w.reads ts ∧
    ts.map Taken.path ++ w.toStamp = (paths config).map Prod.fst ∧
    w.reads.map Read.key ++ w.toRead = paths config ∧ (w.reads = [] ∨ w.toStamp = [])

/-- An attempt that is over. -/
def Over (files : Files) (past : String → List FileStamp) (config : ListsConfig) (a : Attempt)
    (marks : List ℕ) : Prop :=
  ∃ ts, ts.map Taken.path = (paths config).map Prod.fst ∧ Covers files past a.stamps marks [] ts ∧
    ∀ reads, a.result = .ok reads →
      Covers files past a.stamps marks reads ts ∧ reads.map Read.key = paths config

theorem underway_start : Underway files past config
    { toStamp := (paths config).map Prod.fst, toRead := paths config } [] :=
  ⟨[], ⟨rfl, rfl, by simp, by simp⟩, rfl, rfl, .inl rfl⟩

/-- What `read_lists` does next. -/
theorem underway_next (hknown : ∀ path, (files path).stamp ∈ past path)
    (h : Underway files past config w marks) :
    (∀ w', readNext files w = .inl w' → Underway files past config w' (markNext files w marks)) ∧
      ∀ a, readNext files w = .inr a → Over files past config a marks := by
  obtain ⟨ts, hcovers, hpaths, hkeys, hphase⟩ := h
  obtain ⟨toStamp, stamps, toRead, reads⟩ := w
  rcases toStamp with _ | ⟨path, rest⟩
  · rw [List.append_nil] at hpaths
    have hnone : Covers files past stamps marks [] ts :=
      ⟨hcovers.stamps, hcovers.marks, hcovers.taken, by simp⟩
    rcases toRead with _ | ⟨⟨path, action⟩, rest⟩
    · rw [List.append_nil] at hkeys
      refine ⟨fun w' hw' => by simp [readNext] at hw', fun a ha => ?_⟩
      obtain rfl := Sum.inr.inj ha
      refine ⟨ts, hpaths, hnone, fun reads' hreads => ?_⟩
      obtain rfl := Except.ok.inj hreads
      exact ⟨hcovers, hkeys⟩
    · unfold readNext
      dsimp only
      cases hcontent : (files path).content with
      | error e =>
        refine ⟨fun w' hw' => by simp at hw', fun a ha => ?_⟩
        obtain rfl := Sum.inr.inj ha
        exact ⟨ts, hpaths, hnone, fun reads' hreads => by simp at hreads⟩
      | ok names =>
        refine ⟨fun w' hw' => ?_, fun a ha => by simp at ha⟩
        obtain rfl := Sum.inl.inj hw'
        refine ⟨ts, ⟨hcovers.stamps, hcovers.marks, hcovers.taken, fun t ht r hr hpath => ?_⟩,
          by rw [hpaths, List.append_nil], ?_, .inr rfl⟩
        · rcases List.mem_append.mp hr with hr | hr
          · exact hcovers.agrees t ht r hr hpath
          · rw [List.mem_singleton.mp hr]
            exact fun _ _ => hcontent
        · rw [← hkeys, List.map_append, List.append_assoc]
          rfl
  · -- nothing has been read yet
    obtain rfl : reads = [] := hphase.resolve_right (by simp)
    refine ⟨fun w' hw' => ?_, fun a ha => by simp [readNext] at ha⟩
    obtain rfl := Sum.inl.inj hw'
    refine ⟨ts ++ [⟨path, (files path).stamp, (files path).version⟩],
      ⟨?_, ?_, fun t ht => ?_, fun t _ r hr => by simp at hr⟩, ?_, hkeys, .inl rfl⟩
    · rw [List.map_append, hcovers.stamps]
      rfl
    · rw [List.map_append, hcovers.marks]
      rfl
    · rcases List.mem_append.mp ht with ht | ht
      · exact hcovers.taken t ht
      · rw [List.mem_singleton.mp ht]
        exact ⟨hknown path, le_rfl, fun _ => rfl⟩
    · rw [← hpaths, List.map_append, List.append_assoc]
      rfl

/-! ### Files change -/

/-- A file gets a stamp that it has not had, or is removed. -/
theorem Taken.Of.put {t : Taken} (h : t.Of files past) (path : String)
    (content : Except String (List Name)) (stamp : FileStamp) :
    t.Of (Function.update files path ⟨content, stamp, (files path).version + 1⟩)
      (Function.update past path (stamp :: past path)) := by
  obtain ⟨hhad, hearlier, hcurrent⟩ := h
  by_cases hpath : t.path = path
  · subst hpath
    refine ⟨?_, ?_, fun hmark => ?_⟩
    · rw [Function.update_self]
      exact List.mem_cons_of_mem _ hhad
    · rw [Function.update_self]
      exact Nat.le_succ_of_le hearlier
    · rw [Function.update_self] at hmark
      dsimp only at hmark
      omega
  · refine ⟨?_, ?_, ?_⟩
    · rwa [Function.update_of_ne hpath]
    · rwa [Function.update_of_ne hpath]
    · rwa [Function.update_of_ne hpath]

theorem Covers.put {stamps : List FileStamp} {reads : List Read} {ts : List Taken}
    (h : Covers files past stamps marks reads ts) {path : String} {stamp : FileStamp}
    (hstamp : stamp ∉ past path ∨ stamp.present = false) (content : Except String (List Name)) :
    Covers (Function.update files path ⟨content, stamp, (files path).version + 1⟩)
      (Function.update past path (stamp :: past path)) stamps marks reads ts := by
  refine ⟨h.stamps, h.marks, fun t ht => (h.taken t ht).put path content stamp, ?_⟩
  intro t ht r hr hpath hpresent hsame
  by_cases hr' : r.path = path
  · subst hr'
    rw [Function.update_self] at hsame
    obtain rfl : t.stamp = stamp := hsame
    rcases hstamp with hnew | habsent
    · exact absurd (hpath ▸ (h.taken t ht).had) hnew
    · rw [habsent] at hpresent
      exact absurd hpresent (by simp)
  · rw [Function.update_of_ne hr'] at hsame ⊢
    exact h.agrees t ht r hr hpath hpresent hsame

theorem Underway.put (h : Underway files past config w marks) {path : String} {stamp : FileStamp}
    (hstamp : stamp ∉ past path ∨ stamp.present = false) (content : Except String (List Name)) :
    Underway (Function.update files path ⟨content, stamp, (files path).version + 1⟩)
      (Function.update past path (stamp :: past path)) config w marks := by
  obtain ⟨ts, hcovers, hrest⟩ := h
  exact ⟨ts, hcovers.put hstamp content, hrest⟩

theorem Over.put (h : Over files past config a marks) {path : String} {stamp : FileStamp}
    (hstamp : stamp ∉ past path ∨ stamp.present = false) (content : Except String (List Name)) :
    Over (Function.update files path ⟨content, stamp, (files path).version + 1⟩)
      (Function.update past path (stamp :: past path)) config a marks := by
  obtain ⟨ts, hpaths, hcovers, hreads⟩ := h
  exact ⟨ts, hpaths, hcovers.put hstamp content, fun reads hok =>
    ⟨(hreads reads hok).1.put hstamp content, (hreads reads hok).2⟩⟩

/-! ### Runs -/

structure Kept (config : ListsConfig) (s : System) : Prop where
  same : s.reloader.lists.config = config
  known : ∀ path, (s.reloader.files path).stamp ∈ s.past path
  idle : s.reloader.reloading = false → s.reloader.worker = none ∧ s.reloader.finished = none
  loading : ∀ w, s.loading = some w → Underway s.reloader.files s.past config w s.loadMarks
  worker : ∀ w, s.reloader.worker = some w → s.reloader.finished = none ∧
    Underway s.reloader.files s.past config w s.workMarks
  finished : ∀ a, s.reloader.finished = some a → Over s.reloader.files s.past config a s.workMarks
  inUse : ∀ ok, s.succeeded = some ok → Over s.reloader.files s.past config
    ⟨s.reloader.stamps, if ok then .ok s.reloader.used else .error ""⟩ s.marks
  trie : s.succeeded = some true → s.reloader.lists.trie = trieOfReads s.reloader.used

theorem kept_begin (config : ListsConfig) (files : Files) : Kept config (begin config files) where
  same := rfl
  known _ := List.mem_singleton_self _
  idle _ := ⟨rfl, rfl⟩
  loading _ h := by cases h
  worker _ h := by cases h
  finished _ h := by cases h
  inUse _ h := by cases h
  trie h := by cases h

theorem kept_put (h : Kept config s) {path : String} {stamp : FileStamp}
    (hstamp : stamp ∉ s.past path ∨ stamp.present = false) (content : Except String (List Name)) :
    Kept config (s.put path content stamp) where
  same := h.same
  known other := by
    unfold System.put
    dsimp only
    by_cases hother : other = path
    · subst hother
      rw [Function.update_self, Function.update_self]
      exact List.mem_cons_self
    · rw [Function.update_of_ne hother, Function.update_of_ne hother]
      exact h.known other
  idle := h.idle
  loading w hw := (h.loading w hw).put hstamp content
  worker w hw := ⟨(h.worker w hw).1, (h.worker w hw).2.put hstamp content⟩
  finished a ha := (h.finished a ha).put hstamp content
  inUse ok hok := (h.inUse ok hok).put hstamp content
  trie := h.trie

/-- `use` changes the stamps and, if the attempt succeeded, the lists. -/
theorem use_frame (r : Reloader) (a : Attempt) :
    (r.use a).lists.config = r.lists.config ∧ (r.use a).files = r.files ∧
      (r.use a).reloading = r.reloading ∧ (r.use a).worker = r.worker ∧
      (r.use a).finished = r.finished := by
  unfold Reloader.use
  split
  · exact ⟨rfl, rfl, rfl, rfl, rfl⟩
  · exact ⟨rfl, rfl, rfl, rfl, rfl⟩

theorem over_use (h : Over files past config a marks) (r : Reloader) : Over files past config
    ⟨(r.use a).stamps, if a.result.isOk then .ok (r.use a).used else .error ""⟩ marks := by
  obtain ⟨stamps, result⟩ := a
  obtain ⟨ts, hpaths, hcovers, hreads⟩ := h
  cases result with
  | error e => exact ⟨ts, hpaths, hcovers, fun reads hok => by simp [Except.isOk, Except.toBool] at hok⟩
  | ok reads => exact ⟨ts, hpaths, hcovers, hreads⟩

theorem trie_use (r : Reloader) (hok : a.result.isOk = true) :
    (r.use a).lists.trie = trieOfReads (r.use a).used := by
  obtain ⟨stamps, result⟩ := a
  cases result with
  | error e => simp [Except.isOk, Except.toBool] at hok
  | ok reads => rfl

theorem kept_loadNext (h : Kept config s) (hw : s.loading = some w)
    (hs : Step s .loadNext s') : Kept config s' := by
  have hnext := underway_next h.known (h.loading w hw)
  simp only [Step, apply, hw, Option.map_some, Option.some.injEq] at hs
  cases hread : readNext s.reloader.files w with
  | inl w' =>
    rw [hread] at hs
    subst hs
    refine ⟨h.same, h.known, h.idle, fun w'' hw'' => ?_, h.worker, h.finished, h.inUse, h.trie⟩
    obtain rfl := Option.some.inj hw''
    exact hnext.1 w' hread
  | inr a =>
    rw [hread] at hs
    dsimp only at hs
    subst hs
    obtain ⟨hconfig, hfiles, hreloading, hworker, hfinished⟩ := use_frame s.reloader a
    have hover := hnext.2 a hread
    refine ⟨hconfig.trans h.same, ?_, ?_, fun w' hw' => (by cases hw'), ?_, ?_, ?_, ?_⟩
    · rw [System.collect, hfiles]
      exact h.known
    · rw [System.collect, hreloading, hworker, hfinished]
      exact h.idle
    · rw [System.collect, hworker, hfinished, hfiles]
      exact h.worker
    · rw [System.collect, hfinished, hfiles]
      exact h.finished
    · intro ok hok
      obtain rfl := Option.some.inj hok
      rw [System.collect, hfiles]
      exact over_use hover s.reloader
    · intro hok
      exact trie_use s.reloader (Option.some.inj hok)

theorem kept_work (h : Kept config s) (hw : s.reloader.worker = some w) (hs : Step s .work s') :
    Kept config s' := by
  obtain ⟨hnone, hunderway⟩ := h.worker w hw
  have hnext := underway_next h.known hunderway
  have hbusy : ∀ {P : Prop}, s.reloader.reloading = false → P := fun hidle => by
    have hnone := (h.idle hidle).1
    simp [hw] at hnone
  simp only [Step, apply, hw, Option.map_some, Option.some.injEq] at hs
  subst hs
  rw [work_eq]
  cases hread : readNext s.reloader.files w with
  | inl w' =>
    refine ⟨h.same, h.known, hbusy, h.loading, fun w'' hw'' => ?_, fun a ha => ?_, h.inUse, h.trie⟩
    · obtain rfl := Option.some.inj hw''
      exact ⟨hnone, hnext.1 w' hread⟩
    · exact absurd (hnone.symm.trans ha) (by simp)
  | inr a =>
    refine ⟨h.same, h.known, hbusy, h.loading, fun w'' hw'' => (by cases hw''), fun a' ha' => ?_,
      h.inUse, h.trie⟩
    obtain rfl := Option.some.inj ha'
    have hstamped : w.toStamp = [] := by
      unfold readNext at hread
      split at hread
      · cases hread
      · assumption
      · assumption
    have hmarks : markNext s.reloader.files w s.workMarks = s.workMarks := by
      rw [markNext, hstamped]
    rw [hmarks]
    exact hnext.2 a hread

theorem kept_finishReload (h : Kept config s) (hs : Step s .finishReload s') : Kept config s' := by
  simp only [Step, apply] at hs
  split_ifs at hs
  split at hs
  · obtain rfl := Option.some.inj hs
    exact h
  · next a ha =>
    obtain rfl := Option.some.inj hs
    have hover := h.finished a ha
    have hworker : s.reloader.worker = none := by
      cases hw : s.reloader.worker with
      | none => rfl
      | some w => exact absurd ((h.worker w hw).1.symm.trans ha) (by simp)
    have hcollect : s.reloader.collectReload =
        { s.reloader with finished := none, reloading := false, collecting := false }.use a := by
      rw [Reloader.collectReload, ha]
    obtain ⟨hconfig, hfiles, -, hworker', hfinished⟩ :=
      use_frame { s.reloader with finished := none, reloading := false, collecting := false } a
    rw [hcollect]
    refine ⟨hconfig.trans h.same, ?_, fun _ => ⟨hworker'.trans hworker, hfinished⟩, ?_, ?_, ?_, ?_, ?_⟩
    · rw [System.collect, hfiles]
      exact h.known
    · rw [System.collect, hfiles]
      exact h.loading
    · intro w hw
      exact absurd ((hworker'.trans hworker).symm.trans hw) (by simp)
    · intro a' ha'
      exact absurd (hfinished.symm.trans ha') (by simp)
    · intro ok hok
      obtain rfl := Option.some.inj hok
      rw [System.collect, hfiles]
      exact over_use hover _
    · intro hok
      exact trie_use _ (Option.some.inj hok)

theorem kept_step {e : Event} (h : Kept config s) (hs : Step s e s') : Kept config s' := by
  cases e with
  | change path content stamp =>
    simp only [Step, apply] at hs
    split_ifs at hs with hfresh
    obtain rfl := Option.some.inj hs
    exact kept_put h (.inl (by simpa using (Bool.and_eq_true_iff.mp hfresh).2)) content
  | remove path error =>
    obtain rfl := Option.some.inj hs
    exact kept_put h (.inr rfl) (.error error)
  | load =>
    simp only [Step, apply] at hs
    split_ifs at hs
    obtain rfl := Option.some.inj hs
    refine ⟨h.same, h.known, h.idle, fun w hw => ?_, h.worker, h.finished, h.inUse, h.trie⟩
    obtain rfl := Option.some.inj hw
    rw [System.paths, h.same]
    exact underway_start
  | loadNext =>
    obtain ⟨w, hw, -⟩ := Option.map_eq_some_iff.mp hs
    exact kept_loadNext h hw hs
  | startReload =>
    simp only [Step, apply] at hs
    split_ifs at hs with hloading hreloading
    · obtain rfl := Option.some.inj hs
      exact h
    · obtain rfl := Option.some.inj hs
      obtain ⟨-, hfinished⟩ := h.idle (by simpa using hreloading)
      have hreload : s.reloader.reload = { s.reloader with
          reloading := true
          worker := some { toStamp := s.paths.map Prod.fst, toRead := s.paths }
          collecting := true } := by
        rw [Reloader.reload, if_neg hreloading]
      rw [hreload]
      refine ⟨h.same, h.known, fun hidle => by simp at hidle, h.loading, fun w hw => ?_, fun a ha => ?_,
        h.inUse, h.trie⟩
      · obtain rfl := Option.some.inj hw
        refine ⟨hfinished, ?_⟩
        rw [System.paths, h.same]
        exact underway_start
      · exact absurd (hfinished.symm.trans ha) (by simp)
  | work =>
    obtain ⟨w, hw, -⟩ := Option.map_eq_some_iff.mp hs
    exact kept_work h hw hs
  | finishReload => exact kept_finishReload h hs

theorem kept_run (h : Run Step (begin config files) es s) : Kept config s :=
  h.invariant (P := Kept config) (fun _ _ _ hs hstep => kept_step hs hstep) (kept_begin config files)

/-! ### What the stamps tell -/

/-- The rules in use are those of what the files are now. -/
def UpToDate (s : System) : Prop :=
  ∃ names : String → List Name, (∀ p ∈ s.paths, (s.reloader.files p.1).content = .ok (names p.1)) ∧
    s.reloader.lists.trie = trieOfReads (s.paths.map fun p => ⟨p.1, p.2, names p.1⟩)

/-- No list file has changed since the last attempt stamped it. -/
def Untouched (s : System) : Prop :=
  s.marks = s.paths.map fun p => (s.reloader.files p.1).version

/-- The event collects no attempt, or one that failed. -/
def Fails (s : System) (e : Event) (_ : System) : Prop :=
  ∀ a, s.collected e = some a → a.result.isOk = false

/-- Something of each list file, by the stamps that were taken. -/
theorem map_paths {ts : List Taken} (h : Kept config s)
    (hpaths : ts.map Taken.path = (Reload.paths config).map Prod.fst) {β : Type} (f : ListFile → β) :
    s.paths.map (fun p => f (s.reloader.files p.1)) =
      ts.map fun t => f (s.reloader.files t.path) := by
  have hmap := congrArg (List.map fun path => f (s.reloader.files path)) hpaths
  rw [List.map_map, List.map_map] at hmap
  rw [System.paths, h.same]
  exact hmap.symm

theorem upToDate_of_unchanged (h : Kept config s) (hok : s.succeeded = some true)
    (hexist : ∀ p ∈ s.paths, (s.reloader.files p.1).stamp.present = true)
    (hsame : s.reloader.filesChanged = false) : UpToDate s := by
  obtain ⟨ts, hpaths, -, hreads⟩ := h.inUse true hok
  obtain ⟨hcovers, hkeys⟩ := hreads s.reloader.used rfl
  have hstamps : s.paths.map (fun p => (s.reloader.files p.1).stamp) = s.reloader.stamps := by
    simpa [Reloader.filesChanged] using hsame
  have htaken : ∀ t ∈ ts, t.stamp = (s.reloader.files t.path).stamp := by
    refine List.map_inj_left.mp ?_
    calc ts.map Taken.stamp = s.reloader.stamps := hcovers.stamps
      _ = s.paths.map fun p => (s.reloader.files p.1).stamp := hstamps.symm
      _ = ts.map fun t => (s.reloader.files t.path).stamp := map_paths h hpaths ListFile.stamp
  have hread : ∀ r ∈ s.reloader.used, (s.reloader.files r.path).content = .ok r.names := by
    intro r hr
    have hkey : r.key ∈ s.paths := by
      rw [System.paths, h.same, ← hkeys]
      exact List.mem_map_of_mem hr
    obtain ⟨t, ht, htpath⟩ : ∃ t ∈ ts, t.path = r.path := by
      refine List.mem_map.mp ?_
      rw [hpaths, ← h.same]
      exact List.mem_map.mpr ⟨r.key, hkey, rfl⟩
    have hcurrent := htaken t ht
    refine hcovers.agrees t ht r hr htpath ?_ (htpath ▸ hcurrent)
    rw [hcurrent, htpath]
    exact hexist r.key hkey
  let names (path : String) : List Name := ((s.reloader.files path).content.toOption).getD []
  have hnames : ∀ r ∈ s.reloader.used, names r.path = r.names := by
    intro r hr
    show ((s.reloader.files r.path).content.toOption).getD [] = r.names
    rw [hread r hr]
    rfl
  refine ⟨names, fun p hp => ?_, ?_⟩
  · rw [System.paths, h.same, ← hkeys] at hp
    obtain ⟨r, hr, rfl⟩ := List.mem_map.mp hp
    show (s.reloader.files r.path).content = .ok (names r.path)
    rw [hread r hr, hnames r hr]
  · rw [h.trie hok, System.paths, h.same, ← hkeys, List.map_map]
    refine congrArg trieOfReads ((List.map_id _).symm.trans (List.map_congr_left fun r hr => ?_))
    show r = Read.mk r.path r.action (names r.path)
    rw [hnames r hr]

theorem unchanged_of_untouched (h : Kept config s) {ok : Bool} (hok : s.succeeded = some ok)
    (hsame : Untouched s) : s.reloader.filesChanged = false := by
  obtain ⟨ts, hpaths, hcovers, -⟩ := h.inUse ok hok
  have hmarks : ∀ t ∈ ts, t.mark = (s.reloader.files t.path).version := by
    refine List.map_inj_left.mp ?_
    rw [hcovers.marks, hsame]
    exact map_paths h hpaths ListFile.version
  have hstamps : s.paths.map (fun p => (s.reloader.files p.1).stamp) = s.reloader.stamps := by
    calc s.paths.map (fun p => (s.reloader.files p.1).stamp)
      _ = ts.map fun t => (s.reloader.files t.path).stamp := map_paths h hpaths ListFile.stamp
      _ = ts.map Taken.stamp :=
        List.map_congr_left fun t ht => ((hcovers.taken t ht).current (hmarks t ht)).symm
      _ = s.reloader.stamps := hcovers.stamps
  simpa [Reloader.filesChanged] using hstamps

/-- Only an attempt that succeeded changes the lists. -/
theorem lists_step {e : Event} (hs : Step s e s') (hfails : Fails s e s') :
    s'.reloader.lists = s.reloader.lists := by
  have huse : ∀ (r : Reloader) (a : Attempt), a.result.isOk = false → (r.use a).lists = r.lists := by
    intro r a hfail
    obtain ⟨stamps, result⟩ := a
    cases result with
    | error e => rfl
    | ok reads => simp [Except.isOk, Except.toBool] at hfail
  cases e with
  | change path content stamp | load =>
    simp only [Step, apply] at hs
    split_ifs at hs
    obtain rfl := Option.some.inj hs
    rfl
  | remove path error =>
    obtain rfl := Option.some.inj hs
    rfl
  | loadNext =>
    obtain ⟨w, hw, hnext⟩ := Option.map_eq_some_iff.mp hs
    cases hread : readNext s.reloader.files w with
    | inl w' =>
      rw [hread] at hnext
      subst hnext
      rfl
    | inr a =>
      rw [hread] at hnext
      subst hnext
      exact huse s.reloader a (hfails a (by simp [System.collected, hw, hread]))
  | startReload =>
    simp only [Step, apply] at hs
    split_ifs at hs with hloading hreloading
    · obtain rfl := Option.some.inj hs
      rfl
    · obtain rfl := Option.some.inj hs
      rw [Reloader.reload, if_neg hreloading]
  | work =>
    obtain ⟨w, hw, rfl⟩ := Option.map_eq_some_iff.mp hs
    rw [work_eq]
    cases readNext s.reloader.files w with
    | inl w' => rfl
    | inr a => rfl
  | finishReload =>
    simp only [Step, apply] at hs
    split_ifs at hs
    split at hs
    · obtain rfl := Option.some.inj hs
      rfl
    · next a ha =>
      obtain rfl := Option.some.inj hs
      rw [Reloader.collectReload, ha]
      exact huse _ a (hfails a ha)

/-- **Unchanged stamps mean that the lists in use are those of the files, and an attempt that failed
changes no rule.** -/
theorem stamps_tell (h : Run Step (begin config files) es s) :
    (s.succeeded = some true → (∀ p ∈ s.paths, (s.reloader.files p.1).stamp.present = true) →
      s.reloader.filesChanged = false → UpToDate s) ∧
    (s.succeeded = some false → Untouched s → s.reloader.filesChanged = false) ∧
    ∀ es' s', Run (Restrict Step Fails) s es' s' →
      ∀ n, s'.reloader.lists.lookup n = s.reloader.lists.lookup n := by
  have hkept := kept_run h
  refine ⟨upToDate_of_unchanged hkept, unchanged_of_untouched hkept, fun es' s' hrun n => ?_⟩
  have hlists : s'.reloader.lists = s.reloader.lists :=
    hrun.invariant (P := fun x => x.reloader.lists = s.reloader.lists)
      (fun _ _ _ hx hstep => (lists_step hstep.1 hstep.2).trans hx) rfl
  rw [hlists]

/-- A list that is there, with one name on it. -/
def trackerFile : Files := fun _ => { content := .ok [tracker], stamp := { present := true } }

/-- `load`, to its end. -/
def loadedOnce : List Event := [.load, .loadNext, .loadNext, .loadNext]

theorem stamps_tell_loaded : ∃ s, Run Step (begin oneList trackerFile) loadedOnce s ∧ UpToDate s := by
  have hcomputed : (Run.applyAll apply (begin oneList trackerFile) loadedOnce).any (fun s =>
      s.succeeded == some true && !s.reloader.filesChanged &&
        s.paths.all fun p => (s.reloader.files p.1).stamp.present) = true := by
    decide +kernel
  obtain ⟨s, hrun, hs⟩ := Run.exists_of_applyAll (fun _ _ _ h => (h : Step _ _ _)) hcomputed
  simp only [Bool.and_eq_true, beq_iff_eq, Bool.not_eq_true', List.all_eq_true] at hs
  exact ⟨s, hrun, (stamps_tell hrun).1 hs.1.1 hs.2 hs.1.2⟩

end DNSentinel.Policy.Stamps
