import DNSentinel.Wire.RoundTrip
import Mathlib.Data.List.Forall2

/-! # Name compression

What `Writer::name` writes with compression is decided by the table it starts with (`cut`): labels in
place up to the first suffix that the table has, then a pointer. The entries it adds for its own labels
have longer keys than what is left of the name, so they do not get in its way (`nameLoop_cut`).

* A pointer is never longer than what it stands for. So at the same point of a message the writer that
  compresses has not written more than the one that does not (`Leaner`), and what fits for the other fits
  for it (`Keeps`).
* The table has the offsets of labels that earlier calls wrote (`Covered`), so that is where pointers
  lead (`Traced`). -/

namespace DNSentinel.Wire.Compression

open DNSentinel.Types ByteIo Builder WellFormed NameCode RecordCode RoundTrip Lib.Buffer
open Edns (writeOpt kOptRecordSize kClassicUdpSize)
open Wire.Parser (parse)

/-! ### What a name is written as -/

abbrev Table := List (List UInt8 × UInt16)

/-- The labels that are written in place, and where the others are found. -/
def cut (table : Table) : List (Label × Label) → List (Label × Label) × Option UInt16
  | [] => ([], none)
  | p :: ps =>
    match table.lookup (keyOf (p :: ps)) with
    | some off => ([], some off)
    | none => (p :: (cut table ps).1, (cut table ps).2)

/-- The entries for the labels that are written in place from `size` on. -/
def newEntries (table : Table) : ℕ → List (Label × Label) → Table
  | _, [] => []
  | size, p :: ps =>
    match table.lookup (keyOf (p :: ps)) with
    | some _ => []
    | none => newEntries table (size + (labelBytes p.2).length) ps ++ newEntry (keyOf (p :: ps)) size

def inPlace (ps : List (Label × Label)) : List UInt8 := ps.flatMap fun p => labelBytes p.2

/-- The end of a name: the root, or a pointer. -/
def nameEnd : Option UInt16 → List UInt8
  | none => [0]
  | some off => putU16 (0xC000 ||| off)

def cutBytes (c : List (Label × Label) × Option UInt16) : List UInt8 := inPlace c.1 ++ nameEnd c.2

section Cut

variable {table : Table} {p : Label × Label} {ps : List (Label × Label)}

theorem cut_hit {off : UInt16} (h : table.lookup (keyOf (p :: ps)) = some off) :
    cut table (p :: ps) = ([], some off) := by
  rw [cut, h]

theorem cut_miss (h : table.lookup (keyOf (p :: ps)) = none) :
    cut table (p :: ps) = (p :: (cut table ps).1, (cut table ps).2) := by
  rw [cut, h]

theorem newEntries_hit {off : UInt16} {size : ℕ} (h : table.lookup (keyOf (p :: ps)) = some off) :
    newEntries table size (p :: ps) = [] := by
  rw [newEntries, h]

theorem newEntries_miss {size : ℕ} (h : table.lookup (keyOf (p :: ps)) = none) :
    newEntries table size (p :: ps) =
      newEntries table (size + (labelBytes p.2).length) ps ++ newEntry (keyOf (p :: ps)) size := by
  rw [newEntries, h]

end Cut

/-- A pointer is one of the table's. -/
theorem mem_of_cut {table : Table} {off : UInt16} : ∀ ps : List (Label × Label),
    (cut table ps).2 = some off → ∃ key, (key, off) ∈ table
  | [], h => by cases h
  | p :: ps, h => by
    cases hl : table.lookup (keyOf (p :: ps)) with
    | some off' =>
      rw [cut_hit hl] at h
      obtain rfl := Option.some.inj h
      obtain ⟨l₁, l₂, heq, -⟩ := List.lookup_eq_some_iff.mp hl
      exact ⟨_, heq ▸ List.mem_append_right _ List.mem_cons_self⟩
    | none =>
      rw [cut_miss hl] at h
      exact mem_of_cut ps h

/-- Entries with longer keys are not found. -/
theorem lookup_longer {extra : Table} {key : List UInt8} (h : ∀ e ∈ extra, key.length < e.1.length)
    (table : Table) : (extra ++ table).lookup key = table.lookup key := by
  rw [List.lookup_append]
  have hnone : extra.lookup key = none := by
    rw [List.lookup_eq_none_iff]
    intro e he
    have hlt := h e he
    rw [bne_iff_ne]
    rintro rfl
    omega
  rw [hnone]
  rfl

/-- So they make no difference to a name whose keys are shorter. -/
theorem cut_longer {extra : Table} (table : Table) : ∀ (ps : List (Label × Label)) (size : ℕ),
    (∀ e ∈ extra, (keyOf ps).length < e.1.length) →
      cut (extra ++ table) ps = cut table ps ∧
        newEntries (extra ++ table) size ps = newEntries table size ps
  | [], _, _ => ⟨rfl, rfl⟩
  | p :: ps, size, h => by
    have hlookup := lookup_longer h table
    obtain ⟨hcut, hnew⟩ := cut_longer table ps (size + (labelBytes p.2).length) fun e he =>
      (length_keyOf_cons p ps).trans (h e he)
    cases hl : table.lookup (keyOf (p :: ps)) with
    | some off =>
      rw [hl] at hlookup
      rw [cut_hit hl, cut_hit hlookup, newEntries_hit hl, newEntries_hit hlookup]
      exact ⟨rfl, rfl⟩
    | none =>
      rw [hl] at hlookup
      rw [cut_miss hl, cut_miss hlookup, newEntries_miss hl, newEntries_miss hlookup, hcut, hnew]
      exact ⟨rfl, rfl⟩

/-- **The loop of `Writer::name` with compression**: what it writes is decided by the table it starts
with. -/
theorem nameLoop_cut : ∀ (ps : List (Label × Label)) (w : Writer), w.compress = true →
    nameLoop ps w =
      { w with
        out := w.out ++ cutBytes (cut w.suffixes ps)
        suffixes := newEntries w.suffixes w.size ps ++ w.suffixes }
  | [], w, _ => rfl
  | p :: ps, w, hc => by
    obtain ⟨label, text⟩ := p
    cases hl : w.suffixes.lookup (keyOf ((label, text) :: ps)) with
    | some off =>
      rw [nameLoop_hit hc hl, cut_hit hl, newEntries_hit hl]
      rfl
    | none =>
      have hlonger : ∀ e ∈ newEntry (keyOf ((label, text) :: ps)) w.size,
          (keyOf ps).length < e.1.length := by
        intro e he
        rw [(offset_newEntry he).1]
        exact length_keyOf_cons _ _
      obtain ⟨hcut, hnew⟩ :=
        cut_longer w.suffixes ps (w.size + (labelBytes text).length) hlonger
      have ih := nameLoop_cut ps { w with
        out := w.out ++ labelBytes text
        suffixes := newEntry (keyOf ((label, text) :: ps)) w.size ++ w.suffixes } hc
      rw [nameLoop_miss hc hl, ih, cut_miss hl, newEntries_miss hl]
      simp only [Writer.size, List.length_append] at hcut hnew ⊢
      rw [hcut, hnew]
      simp [cutBytes, inPlace]

theorem nameLoop_inPlace : ∀ (ps : List (Label × Label)) (w : Writer), w.compress = false →
    nameLoop ps w = w.push (inPlace ps ++ [0])
  | [], _, _ => rfl
  | (label, text) :: ps, w, hc => by
    rw [nameLoop_plain hc, nameLoop_inPlace ps (w.push (labelBytes text)) hc]
    simp [Writer.push, inPlace]

/-- A pointer is no longer than what it stands for. -/
theorem length_cutBytes (table : Table) : ∀ ps : List (Label × Label),
    (cutBytes (cut table ps)).length ≤ (inPlace ps).length + 1
  | [] => le_rfl
  | p :: ps => by
    have hp : 1 ≤ (labelBytes p.2).length := by simp [labelBytes]
    have hcons : (inPlace (p :: ps)).length = (labelBytes p.2).length + (inPlace ps).length := by
      simp [inPlace]
    cases hl : table.lookup (keyOf (p :: ps)) with
    | some off =>
      rw [cut_hit hl]
      simp only [cutBytes, nameEnd, inPlace, List.flatMap_nil, List.nil_append, length_putU16] at hcons ⊢
      omega
    | none =>
      have ih := length_cutBytes table ps
      rw [cut_miss hl]
      simp only [cutBytes, List.length_append] at ih ⊢
      have hfront : (inPlace (p :: (cut table ps).1)).length =
          (labelBytes p.2).length + (inPlace (cut table ps).1).length := by
        simp [inPlace]
      omega

/-! ### No more is written -/

/-- `w` compresses and `w'` does not, and `w` has not written more. -/
structure Leaner (w w' : Writer) : Prop where
  compress : w.compress = true
  plain : w'.compress = false
  size : w.size ≤ w'.size

/-- What is done to both writers leaves it so. -/
def KeepsLeaner (f : Writer → Writer) : Prop := ∀ w w', Leaner w w' → Leaner (f w) (f w')

theorem keepsLeaner_push (bytes : List UInt8) : KeepsLeaner fun w => w.push bytes := by
  intro w w' h
  refine ⟨h.compress, h.plain, ?_⟩
  have hsize := h.size
  rw [size_push, size_push]
  omega

theorem KeepsLeaner.comp {f g : Writer → Writer} (hg : KeepsLeaner g) (hf : KeepsLeaner f) :
    KeepsLeaner fun w => g (f w) := fun w w' h => hg _ _ (hf w w' h)

theorem keepsLeaner_name (n : Name) : KeepsLeaner fun w => w.name n := by
  intro w w' h
  have hsize := h.size
  have hle := length_cutBytes w.suffixes (n.labels.zip n.asWritten)
  dsimp only [Writer.name]
  rw [nameLoop_cut _ w h.compress, nameLoop_inPlace _ w' h.plain]
  refine ⟨h.compress, h.plain, ?_⟩
  simp only [Writer.size, Writer.push, List.length_append, List.length_singleton] at hsize hle ⊢
  omega

theorem keepsLeaner_question (q : Question) : KeepsLeaner fun w => w.question q :=
  (keepsLeaner_push _).comp ((keepsLeaner_push _).comp (keepsLeaner_name q.qname))

theorem keepsLeaner_rdata : ∀ d : RData, KeepsLeaner fun w => w.rdata d
  | .a _ | .aaaa _ | .txt _ | .raw _ => keepsLeaner_push _
  | .ns n | .cname n | .ptr n => keepsLeaner_name n
  | .mx _ n => (keepsLeaner_name n).comp (keepsLeaner_push _)
  | .soa m r .. => (keepsLeaner_push _).comp ((keepsLeaner_name r).comp (keepsLeaner_name m))

theorem keepsLeaner_rr (r : RR) : KeepsLeaner fun w => w.rr r := by
  intro w w' h
  have hhead : Leaner (rrHead w r) (rrHead w' r) :=
    (keepsLeaner_push (putU32 r.ttl)).comp ((keepsLeaner_push (putU16 r.cls)).comp
      ((keepsLeaner_push (putU16 r.type)).comp (keepsLeaner_name r.name))) w w' h
  obtain ⟨hc, hp, hsize⟩ :=
    (keepsLeaner_rdata r.rdata).comp (keepsLeaner_push (putU16 0)) _ _ hhead
  refine ⟨hc, hp, ?_⟩
  simp only [Writer.size] at hsize
  simp only [rr_eq, withLength, Writer.size, length_storeU16]
  exact hsize

theorem keepsLeaner_foldl {α : Type} {f : Writer → α → Writer} (hf : ∀ a, KeepsLeaner fun w => f w a) :
    ∀ xs : List α, KeepsLeaner fun w => xs.foldl f w
  | [] => fun _ _ h => h
  | x :: xs => (keepsLeaner_foldl hf xs).comp (hf x)

theorem keepsLeaner_writeAll (k : Message) : KeepsLeaner (writeAll k) :=
  (keepsLeaner_foldl keepsLeaner_rr _).comp ((keepsLeaner_foldl keepsLeaner_rr _).comp
    ((keepsLeaner_foldl keepsLeaner_rr _).comp (keepsLeaner_foldl keepsLeaner_question _)))

/-! ### No less is kept -/

section Kept

variable {w w' : Writer} {limit : ℕ}

theorem keptQuestions_mono (limit : ℕ) : ∀ (qs : List Question) (w w' : Writer), Leaner w w' →
    keptQuestions limit qs w' <+: keptQuestions limit qs w
  | [], _, _, _ => List.prefix_rfl
  | q :: qs, w, w', h => by
    have hq : Leaner (w.question q) (w'.question q) := keepsLeaner_question q w w' h
    have hsize := hq.size
    rw [keptQuestions, keptQuestions]
    by_cases hbig : limit < (w'.question q).size
    · rw [if_pos hbig]
      exact List.nil_prefix
    · rw [if_neg hbig, if_neg (by omega)]
      exact List.cons_prefix_cons.mpr ⟨rfl, keptQuestions_mono limit qs _ _ hq⟩

theorem keptRecords_mono : ∀ (fuel : ℕ) (rrs : List RR) (w w' : Writer), Leaner w w' →
    keptRecords limit fuel rrs w' <+: keptRecords limit fuel rrs w
  | 0, _, _, _, _ => List.prefix_rfl
  | _ + 1, [], _, _, _ => List.prefix_rfl
  | fuel + 1, r :: rest, w, w', h => by
    have hrun := keepsLeaner_foldl keepsLeaner_rr (r :: rest.takeWhile (sameRrset r)) w w' h
    have hsize := hrun.size
    rw [keptRecords, keptRecords]
    dsimp only at hrun hsize ⊢
    by_cases hbig : limit < ((r :: rest.takeWhile (sameRrset r)).foldl Writer.rr w').size
    · rw [if_pos hbig]
      exact List.nil_prefix
    · rw [if_neg hbig, if_neg (by omega)]
      exact (List.prefix_append_right_inj _).mpr (keptRecords_mono fuel _ _ _ hrun)

theorem keptSection_mono (limit : ℕ) (rrs : List RR) (h : Leaner w w') :
    keptSection limit rrs w' <+: keptSection limit rrs w := keptRecords_mono _ rrs w w' h

/-- `k` has at least what `k'` has, in every section. -/
structure Keeps (k k' : Message) : Prop where
  questions : k'.questions <+: k.questions
  answers : k'.answers <+: k.answers
  authority : k'.authority <+: k.authority
  additional : k'.additional <+: k.additional

/-- Either the writer that does not compress stopped in a section, or both kept it whole. -/
theorem prefix_cases {α : Type} {all kept kept' : List α} (hpre : kept' <+: kept) (hall : kept <+: all) :
    kept'.length < all.length ∨ kept' = all ∧ kept = all := by
  by_cases hlt : kept'.length < all.length
  · exact .inl hlt
  · have hle := hpre.length_le
    have hmost := hall.length_le
    exact .inr ⟨(hpre.trans hall).eq_of_length (by omega), hall.eq_of_length (by omega)⟩

/-- **Compression keeps no less**, and truncates only what is truncated without it. -/
theorem kept_keeps {m : Message} (hm : MessageWf m) (hw : WriterOk w) (hle : w.size ≤ limit)
    (h : Leaner w w') : Keeps (kept m limit w) (kept m limit w') ∧
      (Dropped m (kept m limit w) → Dropped m (kept m limit w')) := by
  obtain ⟨hqs, -, hqle⟩ := writeQuestions_spec m.questions w 0 hw hm.questions hle
  have hqok := (foldl_question_ok hw fun q h => hm.questions q (hqs.subset h)).1
  have hpre := keptQuestions_mono limit m.questions w w' h
  unfold kept
  dsimp only
  rcases prefix_cases hpre hqs with hlt | ⟨hq', hq⟩
  · rw [if_pos hlt]
    refine ⟨?_, fun _ => .inl hlt⟩
    split_ifs <;> exact ⟨hpre, List.nil_prefix, List.nil_prefix, List.nil_prefix⟩
  rw [hq] at hqok hqle
  rw [hq, hq', if_neg (lt_irrefl _), if_neg (lt_irrefl _)]
  have h : Leaner (m.questions.foldl Writer.question w) (m.questions.foldl Writer.question w') :=
    keepsLeaner_foldl keepsLeaner_question m.questions w w' h
  obtain ⟨has, -, hale, haok⟩ := writeSection_spec hqok hm.answers hqle
  have hpre := keptSection_mono limit m.answers h
  rcases prefix_cases hpre has.isPrefix with hlt | ⟨ha', ha⟩
  · rw [if_pos hlt]
    refine ⟨?_, fun _ => .inr (.inl hlt)⟩
    split_ifs <;> exact ⟨List.prefix_rfl, hpre, List.nil_prefix, List.nil_prefix⟩
  rw [ha] at haok hale
  rw [ha, ha', if_neg (lt_irrefl _), if_neg (lt_irrefl _)]
  have h : Leaner (m.answers.foldl Writer.rr _) (m.answers.foldl Writer.rr _) :=
    keepsLeaner_foldl keepsLeaner_rr m.answers _ _ h
  obtain ⟨hns, -, hnle, hnok⟩ := writeSection_spec haok hm.authority hale
  have hpre := keptSection_mono limit m.authority h
  rcases prefix_cases hpre hns.isPrefix with hlt | ⟨hn', hn⟩
  · rw [if_pos hlt]
    refine ⟨?_, fun _ => .inr (.inr hlt)⟩
    split_ifs <;> exact ⟨List.prefix_rfl, List.prefix_rfl, hpre, List.nil_prefix⟩
  rw [hn, hn', if_neg (lt_irrefl _), if_neg (lt_irrefl _)]
  have h : Leaner (m.authority.foldl Writer.rr _) (m.authority.foldl Writer.rr _) :=
    keepsLeaner_foldl keepsLeaner_rr m.authority _ _ h
  refine ⟨⟨List.prefix_rfl, List.prefix_rfl, List.prefix_rfl, ?_⟩, fun hd => hd⟩
  exact keptSection_mono limit m.additional h

end Kept

/-! ### Where pointers lead -/

/-- A call of `Writer::name`, with the table and the size it finds. -/
structure Call where
  table : Table
  size : ℕ
  name : Name

namespace Call

def cut (c : Call) : List (Label × Label) × Option UInt16 :=
  Compression.cut c.table (c.name.labels.zip c.name.asWritten)

/-- The call writes a label at `off`. -/
def HasLabel (c : Call) (off : ℕ) : Prop :=
  ∃ front label back, c.cut.1 = front ++ label :: back ∧ off = c.size + (inPlace front).length

end Call

def callOf (w : Writer) (n : Name) : Call := ⟨w.suffixes, w.size, n⟩

/-- The calls that writing record data makes. -/
def rdataCalls (w : Writer) : RData → List Call
  | .ns n | .cname n | .ptr n => [callOf w n]
  | .mx preference n => [callOf (w.push (putU16 preference)) n]
  | .soa m r .. => [callOf w m, callOf (w.name m) r]
  | .a _ | .aaaa _ | .txt _ | .raw _ => []

def rrCalls (w : Writer) (r : RR) : List Call :=
  callOf w r.name :: rdataCalls ((rrHead w r).push (putU16 0)) r.rdata

def questionCalls (w : Writer) (q : Question) : List Call := [callOf w q.qname]

/-- The calls that a loop makes. -/
def loopCalls {α : Type} (f : Writer → α → Writer) (calls : Writer → α → List Call) :
    List α → Writer → List Call
  | [], _ => []
  | x :: xs, w => calls w x ++ loopCalls f calls xs (f w x)

/-- The calls that writing all sections makes. -/
def allCalls (k : Message) (w : Writer) : List Call :=
  let wq := k.questions.foldl Writer.question w
  let wa := k.answers.foldl Writer.rr wq
  let wn := k.authority.foldl Writer.rr wa
  loopCalls Writer.question questionCalls k.questions w ++
    (loopCalls Writer.rr rrCalls k.answers wq ++
      (loopCalls Writer.rr rrCalls k.authority wa ++ loopCalls Writer.rr rrCalls k.additional wn))

/-- The table has offsets of labels that the calls wrote, all within reach of a pointer. -/
def Covered (cs : List Call) (table : Table) : Prop :=
  ∀ e ∈ table, e.2.toNat ≤ kMaxPointerOffset ∧ ∃ c ∈ cs, c.HasLabel e.2.toNat

/-- Each call finds a table of offsets of labels that earlier calls wrote. -/
def Sound (cs : List Call) : List Call → Prop
  | [] => True
  | c :: calls => Covered cs c.table ∧ Sound (cs ++ [c]) calls

theorem sound_append {cs : List Call} : ∀ {xs ys : List Call},
    Sound cs xs → Sound (cs ++ xs) ys → Sound cs (xs ++ ys)
  | [], ys, _, h => by rwa [List.append_nil] at h
  | x :: xs, ys, hx, hy => by
    refine ⟨hx.1, sound_append hx.2 ?_⟩
    rwa [List.append_assoc, List.singleton_append]

theorem Sound.covered {cs : List Call} : ∀ {before after : List Call} {c : Call},
    Sound cs (before ++ c :: after) → Covered (cs ++ before) c.table
  | [], after, c, h => by
    rw [List.append_nil]
    exact h.1
  | b :: before, after, c, h => by
    have hrest := Sound.covered h.2
    rwa [List.append_assoc, List.singleton_append] at hrest

/-- What `calls`, made from `w` to `w'` after the calls `cs`, leave. -/
structure Traced (cs calls : List Call) (w w' : Writer) : Prop where
  compress : w'.compress = true
  out : ∃ x, w'.out = w.out ++ x
  covered : Covered (cs ++ calls) w'.suffixes
  sound : Sound cs calls
  written : ∀ c ∈ calls, w.size ≤ c.size ∧ At w'.out c.size (cutBytes c.cut)

section Traced

variable {cs calls calls' : List Call} {w w' w'' : Writer}

theorem at_append_left {buf xs more : List UInt8} {pos : ℕ} (h : At buf pos xs)
    (hle : pos + xs.length ≤ buf.length) : At (buf ++ more) pos xs := by
  intro k hk
  rw [List.getElem?_append_left (by omega)]
  exact h k hk

theorem cutBytes_ne_nil (c : List (Label × Label) × Option UInt16) : cutBytes c ≠ [] := by
  unfold cutBytes nameEnd
  cases c.2 <;> simp [putU16]

theorem Traced.trans (h : Traced cs calls w w') (h' : Traced (cs ++ calls) calls' w' w'') :
    Traced cs (calls ++ calls') w w'' := by
  obtain ⟨x, hx⟩ := h.out
  obtain ⟨y, hy⟩ := h'.out
  refine ⟨h'.compress, ⟨x ++ y, by rw [hy, hx, List.append_assoc]⟩, ?_, ?_, ?_⟩
  · have hcovered := h'.covered
    rwa [List.append_assoc] at hcovered
  · exact sound_append h.sound h'.sound
  · intro c hc
    rcases List.mem_append.mp hc with hc | hc
    · obtain ⟨hsize, hat⟩ := h.written c hc
      refine ⟨hsize, ?_⟩
      rw [hy]
      exact at_append_left hat (hat.length_le (cutBytes_ne_nil _))
    · obtain ⟨hsize, hat⟩ := h'.written c hc
      refine ⟨le_trans ?_ hsize, hat⟩
      rw [Writer.size, Writer.size, hx, List.length_append]
      omega

theorem traced_push (hc : w.compress = true) (h : Covered cs w.suffixes) (bytes : List UInt8) :
    Traced cs [] w (w.push bytes) := by
  refine ⟨hc, ⟨bytes, rfl⟩, ?_, trivial, fun c hc => ?_⟩
  · rwa [List.append_nil]
  · cases hc

/-- The entries a call adds are for labels that it writes. -/
theorem offset_newEntries (table : Table) : ∀ (ps : List (Label × Label)) (size : ℕ),
    ∀ e ∈ newEntries table size ps, e.2.toNat ≤ kMaxPointerOffset ∧
      ∃ front label back, (cut table ps).1 = front ++ label :: back ∧
        e.2.toNat = size + (inPlace front).length
  | [], _, e, he => by cases he
  | p :: ps, size, e, he => by
    cases hl : table.lookup (keyOf (p :: ps)) with
    | some off =>
      rw [newEntries_hit hl] at he
      cases he
    | none =>
      rw [newEntries_miss hl] at he
      rw [cut_miss hl]
      rcases List.mem_append.mp he with he | he
      · obtain ⟨hmax, front, label, back, hfront, hoff⟩ := offset_newEntries table ps _ e he
        refine ⟨hmax, p :: front, label, back, by rw [hfront]; rfl, ?_⟩
        simp only [inPlace, List.flatMap_cons, List.length_append] at hoff ⊢
        omega
      · obtain ⟨-, hoff, hmax⟩ := offset_newEntry he
        exact ⟨by omega, [], p, (cut table ps).1, rfl, by simpa [inPlace] using hoff⟩

theorem covered_mono (h : Covered cs w.suffixes) (calls : List Call) :
    Covered (cs ++ calls) w.suffixes := by
  intro e he
  obtain ⟨hmax, c, hc, hlabel⟩ := h e he
  exact ⟨hmax, c, List.mem_append_left _ hc, hlabel⟩

/-- **One call of `Writer::name`.** -/
theorem traced_name (hc : w.compress = true) (h : Covered cs w.suffixes) (n : Name) :
    Traced cs [callOf w n] w (w.name n) := by
  have hname : w.name n =
      { w with
        out := w.out ++ cutBytes (callOf w n).cut
        suffixes := newEntries w.suffixes w.size (n.labels.zip n.asWritten) ++ w.suffixes } :=
    nameLoop_cut _ w hc
  rw [hname]
  refine ⟨hc, ⟨_, rfl⟩, ?_, ⟨h, trivial⟩, ?_⟩
  · intro e he
    rcases List.mem_append.mp he with he | he
    · obtain ⟨hmax, hlabel⟩ := offset_newEntries _ _ _ e he
      exact ⟨hmax, callOf w n, List.mem_append_right _ List.mem_cons_self, hlabel⟩
    · exact covered_mono h _ e he
  · intro c hmem
    obtain rfl := List.mem_singleton.mp hmem
    exact ⟨le_rfl, at_end _ _⟩

theorem Traced.push (h : Traced cs calls w w') (bytes : List UInt8) :
    Traced cs calls w (w'.push bytes) := by
  have htrans := h.trans (traced_push h.compress h.covered bytes)
  rwa [List.append_nil] at htrans

theorem Traced.name (h : Traced cs calls w w') (n : Name) :
    Traced cs (calls ++ [callOf w' n]) w (w'.name n) :=
  h.trans (traced_name h.compress h.covered n)

theorem traced_rdata (hc : w.compress = true) (h : Covered cs w.suffixes) : ∀ d : RData,
    Traced cs (rdataCalls w d) w (w.rdata d)
  | .a _ | .aaaa _ | .txt _ | .raw _ => traced_push hc h _
  | .ns n | .cname n | .ptr n => traced_name hc h n
  | .mx preference n => (traced_push hc h (putU16 preference)).name n
  | .soa m r .. => ((traced_name hc h m).name r).push _

/-- The calls do not depend on the bytes before them. -/
theorem rdataCalls_push (hc : w.compress = true) (u v : UInt16) (d : RData) :
    rdataCalls (w.push (putU16 u)) d = rdataCalls (w.push (putU16 v)) d := by
  have hcall : ∀ n, callOf (w.push (putU16 u)) n = callOf (w.push (putU16 v)) n := by
    intro n
    simp [callOf, Writer.push, Writer.size]
  cases d with
  | ns n | cname n | ptr n => exact congrArg (fun c => [c]) (hcall n)
  | mx preference n => simp [rdataCalls, callOf, Writer.push, Writer.size]
  | soa m r =>
    have hsize : (w.push (putU16 u)).size = (w.push (putU16 v)).size := by
      rw [size_push, size_push, length_putU16, length_putU16]
    simp only [rdataCalls, hcall, List.cons.injEq, true_and, and_true]
    unfold callOf Writer.name
    rw [nameLoop_cut _ (w.push (putU16 u)) hc, nameLoop_cut _ (w.push (putU16 v)) hc, hsize]
    simp only [Writer.size, Writer.push, List.length_append, length_putU16]
  | _ => rfl

theorem traced_rr (hc : w.compress = true) (h : Covered cs w.suffixes) (r : RR) :
    Traced cs (rrCalls w r) w (w.rr r) := by
  have hhead : Traced cs [callOf w r.name] w (rrHead w r) :=
    (((traced_name hc h r.name).push _).push _).push _
  obtain ⟨v, hv, -⟩ := withLength_eq (appends_rdata r.rdata) (rrHead w r)
  rw [rr_eq, hv, rrCalls, rdataCalls_push hhead.compress 0 v]
  have hfixed := hhead.push (putU16 v)
  exact hfixed.trans (traced_rdata hfixed.compress hfixed.covered r.rdata)

theorem traced_question (hc : w.compress = true) (h : Covered cs w.suffixes) (q : Question) :
    Traced cs (questionCalls w q) w (w.question q) :=
  ((traced_name hc h q.qname).push _).push _

theorem traced_loop {α : Type} {f : Writer → α → Writer} {calls : Writer → α → List Call}
    (hf : ∀ {cs w}, w.compress = true → Covered cs w.suffixes → ∀ x, Traced cs (calls w x) w (f w x)) :
    ∀ (xs : List α) {cs : List Call} {w : Writer}, w.compress = true → Covered cs w.suffixes →
      Traced cs (loopCalls f calls xs w) w (xs.foldl f w)
  | [], cs, w, hc, h => by
    refine ⟨hc, ⟨[], (List.append_nil _).symm⟩, ?_, trivial, fun c hc => ?_⟩
    · rwa [loopCalls, List.append_nil]
    · cases hc
  | x :: xs, cs, w, hc, h => by
    have hfirst := hf hc h x
    exact hfirst.trans (traced_loop hf xs hfirst.compress hfirst.covered)

theorem traced_writeAll (hc : w.compress = true) (h : Covered cs w.suffixes) (k : Message) :
    Traced cs (allCalls k w) w (writeAll k w) := by
  have hq := traced_loop traced_question k.questions hc h
  have ha := traced_loop traced_rr k.answers hq.compress hq.covered
  have hn := traced_loop traced_rr k.authority ha.compress ha.covered
  exact hq.trans (ha.trans (hn.trans (traced_loop traced_rr k.additional hn.compress hn.covered)))

end Traced

/-! ### The built message -/

/-- The number of records in each section. -/
def counts (m : Message) : List ℕ :=
  [m.questions.length, m.answers.length, m.authority.length, m.additional.length]

/-- `k`, decoded from `bytes`, has at least as much in every section as `k'`, decoded from `bytes'`, is
truncated only if `k'` is, and took no more bytes for the same number of records. -/
structure Better (bytes bytes' : List UInt8) (k k' : Message) : Prop where
  counts : List.Forall₂ (· ≤ ·) (counts k') (counts k)
  truncated : k.header.tc = true → k'.header.tc = true
  length : Compression.counts k = Compression.counts k' → bytes.length ≤ bytes'.length

/-- The calls of `Writer::name` for what is kept of `m`. -/
def writtenCalls (m : Message) (maxSize : ℕ) : List Call :=
  allCalls (keptOf m maxSize true) (startWriter true)

/-- The call is in the message, and if it ends with a pointer, that leads to a label which an earlier call
wrote, at an offset that 14 bits hold. -/
structure Points (bytes : List UInt8) (before : List Call) (c : Call) : Prop where
  written : At bytes c.size (cutBytes c.cut)
  target : ∀ off, c.cut.2 = some off → off.toNat < 0x4000 ∧ ∃ e ∈ before, e.HasLabel off.toNat

section Built

variable {m : Message} {maxSize : ℕ}

theorem leaner_start : Leaner (startWriter true) (startWriter false) := ⟨rfl, rfl, le_rfl⟩

theorem length_buildMessage (hm : MessageWf m) (h512 : 512 ≤ maxSize) (compress : Bool) :
    (buildMessage m maxSize compress).length =
      (writeAll (keptOf m maxSize compress) (startWriter compress)).size +
        kOptRecordSize * ednsCount m.edns := by
  obtain ⟨x, -, hx, heq, -⟩ := buildMessage_eq hm h512 compress
  rw [← size_writeEdns, Writer.size, hx, heq, List.length_append, List.length_append,
    length_headerBytes, List.length_replicate]

theorem length_sameSections {k k' : Message} (h : SameSections k k') : counts k = counts k' := by
  unfold counts
  rw [h.questions.length_eq, h.answers.length_eq, h.authority.length_eq, h.additional.length_eq]

theorem keeps_keptOf (hm : MessageWf m) (h512 : 512 ≤ maxSize) :
    Keeps (keptOf m maxSize true) (keptOf m maxSize false) ∧
      (Dropped m (keptOf m maxSize true) → Dropped m (keptOf m maxSize false)) := by
  refine kept_keeps hm (startWriter_ok true) ?_ leaner_start
  have hstart : (startWriter true).size = 12 := rfl
  have hcount := ednsSize_le m.edns
  rw [sectionLimit_eq (by omega)]
  omega

/-- What is kept is the same if there is as much of it. -/
theorem Keeps.writeAll_eq {k k' : Message} (h : Keeps k k') (hcounts : counts k = counts k')
    (w : Writer) : writeAll k w = writeAll k' w := by
  simp only [counts, List.cons.injEq, and_true] at hcounts
  obtain ⟨hq, ha, hn, hr⟩ := hcounts
  unfold writeAll
  rw [h.questions.eq_of_length hq.symm, h.answers.eq_of_length ha.symm,
    h.authority.eq_of_length hn.symm, h.additional.eq_of_length hr.symm]

theorem better_buildMessage (hm : MessageWf m) (h512 : 512 ≤ maxSize)
    (hmax : maxSize ≤ kMaxTcpMessage) : ∃ k k', parse (buildMessage m maxSize true) = .ok k ∧
      parse (buildMessage m maxSize false) = .ok k' ∧
      Better (buildMessage m maxSize true) (buildMessage m maxSize false) k k' := by
  obtain ⟨-, -, k, hk, hsame, -, hheader⟩ := parse_buildMessage hm h512 hmax true
  obtain ⟨-, -, k', hk', hsame', -, hheader'⟩ := parse_buildMessage hm h512 hmax false
  obtain ⟨hkeeps, hdropped⟩ := keeps_keptOf hm h512
  refine ⟨k, k', hk, hk', ?_, ?_, ?_⟩
  · rw [length_sameSections hsame, length_sameSections hsame']
    exact .cons hkeeps.questions.length_le (.cons hkeeps.answers.length_le
      (.cons hkeeps.authority.length_le (.cons hkeeps.additional.length_le .nil)))
  · rw [hheader, hheader']
    simp only [builtHeader, Bool.or_eq_true, decide_eq_true_eq]
    exact Or.imp_right hdropped
  · intro hcounts
    rw [length_sameSections hsame, length_sameSections hsame'] at hcounts
    rw [length_buildMessage hm h512 true, length_buildMessage hm h512 false,
      hkeeps.writeAll_eq hcounts]
    have hsize := (keepsLeaner_writeAll (keptOf m maxSize false) _ _ leaner_start).size
    omega

theorem points_buildMessage (hm : MessageWf m) (h512 : 512 ≤ maxSize) {before after : List Call}
    {c : Call} (h : writtenCalls m maxSize = before ++ c :: after) :
    Points (buildMessage m maxSize true) before c := by
  have hnone : Covered [] (startWriter true).suffixes := fun e he => by cases he
  obtain ⟨-, -, -, hsound, hwritten⟩ :=
    traced_writeAll (w := startWriter true) rfl hnone (keptOf m maxSize true)
  change Sound [] (writtenCalls m maxSize) at hsound
  change ∀ c ∈ writtenCalls m maxSize, _ at hwritten
  rw [h] at hsound hwritten
  obtain ⟨hsize, hat⟩ := hwritten c (List.mem_append_right _ List.mem_cons_self)
  have hcovered := hsound.covered
  rw [List.nil_append] at hcovered
  obtain ⟨x, -, hx, heq, -⟩ := buildMessage_eq hm h512 true
  constructor
  · rw [heq]
    have hall : Above kHeaderSize (writeAll (keptOf m maxSize true) (startWriter true)).out _ :=
      Holds.of_appends (holds_headerBytes hx (builtHeader m (keptOf m maxSize true)))
        (appends_writeEdns m.edns)
    exact hat.above hall hsize
  · intro off hoff
    obtain ⟨key, hkey⟩ := mem_of_cut _ hoff
    obtain ⟨hle, hlabel⟩ := hcovered _ hkey
    exact ⟨Nat.lt_succ_of_le hle, hlabel⟩

end Built

/-- **Compression only helps**, whatever the limit: no less is kept, TC is set only if it is set without
compression, the same records take no more bytes, and every pointer leads to a label of a name written
earlier, below 0x4000. -/
theorem compression_helps (m : Message) (hm : MessageWf m) (maxSize : UInt16) :
    (∃ k k', parse (build m { maxSize }) = .ok k ∧
      parse (build m { maxSize, compress := false }) = .ok k' ∧
      Better (build m { maxSize }) (build m { maxSize, compress := false }) k k') ∧
    ∀ before c after, writtenCalls m (max 512 maxSize.toNat) = before ++ c :: after →
      Points (build m { maxSize }) before c := by
  have hmax : (max maxSize kClassicUdpSize).toNat = max 512 maxSize.toNat := by
    rw [toNat_max, max_comm]
    rfl
  have hlt := maxSize.toNat_lt
  have h512 : 512 ≤ max 512 maxSize.toNat := le_max_left _ _
  unfold build
  rw [hmax]
  exact ⟨better_buildMessage hm h512 (by unfold kMaxTcpMessage; omega),
    fun _ _ _ h => points_buildMessage hm h512 h⟩

/-- The name of the alias ends with a pointer to the second label of the question. -/
theorem compression_helps_alias : MessageWf sampleResponse ∧
    (∃ k k', parse (build sampleResponse { maxSize := 512 }) = .ok k ∧
      parse (build sampleResponse { maxSize := 512, compress := false }) = .ok k' ∧
      Better (build sampleResponse { maxSize := 512 })
        (build sampleResponse { maxSize := 512, compress := false }) k k') ∧
    ∃ before c after, writtenCalls sampleResponse 512 = before ++ c :: after ∧ c.cut.2 = some 14 ∧
      Points (build sampleResponse { maxSize := 512 }) before c := by
  obtain ⟨hbetter, hpoints⟩ := compression_helps sampleResponse sampleResponse_wf 512
  obtain ⟨c, after, hdrop, hcut⟩ : ∃ c after,
      (writtenCalls sampleResponse 512).drop 2 = c :: after ∧ c.cut.2 = some 14 := ⟨_, _, rfl, rfl⟩
  have hcalls : writtenCalls sampleResponse 512 =
      (writtenCalls sampleResponse 512).take 2 ++ c :: after := by
    rw [← hdrop, List.take_append_drop]
  exact ⟨sampleResponse_wf, hbetter, _, c, after, hcalls, hcut, hpoints _ c after hcalls⟩

end DNSentinel.Wire.Compression
