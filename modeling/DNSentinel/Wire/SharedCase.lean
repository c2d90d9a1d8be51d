import DNSentinel.Lib.Aligned
import DNSentinel.Wire.Refusal

/-! # Names in another letter case

Two messages that differ in letter case only, and there only in suffixes of one name, the name asked
(`NameAlike`, `ResponsesAlike`). A server that compresses against the question sends such messages for
questions that differ in case. The builder writes the question first and then, with compression, a
pointer to it in place of every suffix it has (`Covers`): the bytes are the same. -/

namespace DNSentinel.Wire.SharedCase

open DNSentinel.Types Lib ByteIo Builder WellFormed NameCode RecordCode RoundTrip Refusal
open Compression (Table cut inPlace cut_miss nameLoop_cut)
open List (Forall₂)

/-! ### Messages alike -/

/-- One name, written alike up to where the rest is a suffix of `asked`. -/
structure NameAlike (asked : List Label) (a b : Name) : Prop where
  labels : a.labels = b.labels
  written : ∀ i, ¬ a.labels.drop i <:+ asked → a.asWritten[i]? = b.asWritten[i]?

inductive RdataAlike (asked : List Label) : RData → RData → Prop where
  | same (d : RData) : RdataAlike asked d d
  | ns {a b : Name} (h : NameAlike asked a b) : RdataAlike asked (.ns a) (.ns b)
  | cname {a b : Name} (h : NameAlike asked a b) : RdataAlike asked (.cname a) (.cname b)
  | ptr {a b : Name} (h : NameAlike asked a b) : RdataAlike asked (.ptr a) (.ptr b)
  | mx (preference : UInt16) {a b : Name} (h : NameAlike asked a b) :
      RdataAlike asked (.mx preference a) (.mx preference b)
  | soa {m m' r r' : Name} (hm : NameAlike asked m m') (hr : NameAlike asked r r')
      (serial refresh retry expire minimum : UInt32) :
      RdataAlike asked (.soa m r serial refresh retry expire minimum)
        (.soa m' r' serial refresh retry expire minimum)

structure RrAlike (asked : List Label) (a b : RR) : Prop where
  name : NameAlike asked a.name b.name
  type : a.type = b.type
  cls : a.cls = b.cls
  ttl : a.ttl = b.ttl
  trust : a.trust = b.trust
  rdata : RdataAlike asked a.rdata b.rdata

/-- The records of two sections, one by one. -/
abbrev RrsAlike (asked : List Label) : List RR → List RR → Prop := Forall₂ (RrAlike asked)

/-- Replies to two queries: the IDs and the questions are those of the queries. -/
structure RepliesAlike (asked : List Label) (m m' : Message) : Prop where
  header : { m.header with id := 0 } = { m'.header with id := 0 }
  answers : RrsAlike asked m.answers m'.answers
  authority : RrsAlike asked m.authority m'.authority
  additional : RrsAlike asked m.additional m'.additional

/-- Responses to one query. -/
structure ResponsesAlike (asked : List Label) (m m' : Message) : Prop where
  header : m.header = m'.header
  questions : m.questions = m'.questions
  edns : m.edns = m'.edns
  answers : RrsAlike asked m.answers m'.answers
  authority : RrsAlike asked m.authority m'.authority
  additional : RrsAlike asked m.additional m'.additional

variable {asked : List Label} {a b : Name} {r r' : RR} {rrs rrs' : List RR} {m m' : Message}

theorem NameAlike.refl (a : Name) : NameAlike asked a a := ⟨rfl, fun _ _ => rfl⟩

theorem RrAlike.refl (r : RR) : RrAlike asked r r := ⟨.refl _, rfl, rfl, rfl, rfl, .same _⟩

theorem rrsAlike_refl (rrs : List RR) : RrsAlike asked rrs rrs := Aligned.self RrAlike.refl rrs

theorem ResponsesAlike.refl (m : Message) : ResponsesAlike asked m m :=
  ⟨rfl, rfl, rfl, rrsAlike_refl _, rrsAlike_refl _, rrsAlike_refl _⟩

/-- Names alike but for suffixes of a name are so but for suffixes of one below it. -/
theorem NameAlike.mono {below : List Label} (h : NameAlike asked a b) (hsuffix : asked <:+ below) :
    NameAlike below a b :=
  ⟨h.labels, fun i hi => h.written i fun hs => hi (hs.trans hsuffix)⟩

theorem RdataAlike.mono {below : List Label} {d d' : RData} (h : RdataAlike asked d d')
    (hsuffix : asked <:+ below) : RdataAlike below d d' := by
  cases h with
  | same => exact .same _
  | ns h => exact .ns (h.mono hsuffix)
  | cname h => exact .cname (h.mono hsuffix)
  | ptr h => exact .ptr (h.mono hsuffix)
  | mx preference h => exact .mx preference (h.mono hsuffix)
  | soa hm hr => exact .soa (hm.mono hsuffix) (hr.mono hsuffix) _ _ _ _ _

theorem RrAlike.mono {below : List Label} (h : RrAlike asked r r') (hsuffix : asked <:+ below) :
    RrAlike below r r' :=
  ⟨h.name.mono hsuffix, h.type, h.cls, h.ttl, h.trust, h.rdata.mono hsuffix⟩

theorem ResponsesAlike.mono {below : List Label} (h : ResponsesAlike asked m m')
    (hsuffix : asked <:+ below) : ResponsesAlike below m m' := by
  have hrrs : ∀ {rrs rrs' : List RR}, RrsAlike asked rrs rrs' → RrsAlike below rrs rrs' := fun h =>
    h.imp fun _ _ hr => hr.mono hsuffix
  exact ⟨h.header, h.questions, h.edns, hrrs h.answers, hrrs h.authority, hrrs h.additional⟩

theorem NameAlike.beq (h : NameAlike asked a b) (n : Name) : (a == n) = (b == n) := by
  rw [Bool.eq_iff_iff, Name.beq_iff, Name.beq_iff, h.labels]

theorem NameAlike.beq_right (h : NameAlike asked a b) (n : Name) : (n == a) = (n == b) := by
  rw [Name.beq_comm, h.beq, Name.beq_comm]

theorem RrAlike.sameRrset {x x' : RR} (h : RrAlike asked r r') (hx : RrAlike asked x x') :
    sameRrset r x = sameRrset r' x' := by
  unfold Builder.sameRrset
  rw [h.type, hx.type, h.cls, hx.cls, h.name.beq, hx.name.beq_right]

/-! ### The table has the suffixes of the name asked -/

/-- A pointer can be written for every suffix of `asked`. -/
structure Covers (asked : List Label) (w : Writer) : Prop where
  compress : w.compress = true
  found : ∀ s, s ≠ [] → s <:+ asked → (w.suffixes.lookup (suffixKey s)).isSome = true

variable {w : Writer}

theorem Covers.more {w' : Writer} (h : Covers asked w) (hcompress : w'.compress = w.compress)
    (new : List (List UInt8 × UInt16)) (hnew : w'.suffixes = new ++ w.suffixes) :
    Covers asked w' where
  compress := hcompress.trans h.compress
  found s hne hs := by
    rw [hnew, lookup_isSome_append]
    exact .inr (h.found s hne hs)

theorem Covers.appends {f : Writer → Writer} (h : Covers asked w) (hf : Appends f) :
    Covers asked (f w) := by
  obtain ⟨code, hcode, -⟩ := hf
  refine h.more ?_ (code w.compress w.suffixes w.size).2 ?_ <;> rw [hcode] <;> rfl

theorem Covers.push (h : Covers asked w) (bytes : List UInt8) : Covers asked (w.push bytes) :=
  h.appends (appends_push bytes)

/-- Labels are written up to a suffix that the table has, which comes no later than one of
`asked`. -/
theorem nameLoop_alike : ∀ (ls ts ts' : List Label) (w : Writer), Covers asked w →
    ts.length = ls.length → ts'.length = ls.length →
    (∀ i, ¬ ls.drop i <:+ asked → ts[i]? = ts'[i]?) →
    nameLoop (ls.zip ts) w = nameLoop (ls.zip ts') w
  | [], _, _, _, _, _, _, _ => rfl
  | l :: ls, t :: ts, t' :: ts', w, hw, hlen, hlen', hsame => by
    have hlen₀ : ts.length = ls.length := by simpa using hlen
    have hlen₁ : ts'.length = ls.length := by simpa using hlen'
    have hkey : (ls.zip ts).map Prod.fst = ls := List.map_fst_zip (le_of_eq hlen₀.symm)
    have hkey' : (ls.zip ts').map Prod.fst = ls := List.map_fst_zip (le_of_eq hlen₁.symm)
    rw [List.zip_cons_cons, List.zip_cons_cons, nameLoop, nameLoop, if_pos hw.compress,
      if_pos hw.compress, hkey, hkey']
    dsimp only
    cases hfound : w.suffixes.lookup (suffixKey (l :: ls)) with
    | some off => rfl
    | none =>
      have hout : ¬ (l :: ls) <:+ asked := by
        intro hs
        have := hw.found _ (List.cons_ne_nil _ _) hs
        rw [hfound] at this
        exact Bool.false_ne_true this
      obtain rfl : t = t' := by simpa using hsame 0 hout
      refine nameLoop_alike ls ts ts' _ ?_ hlen₀ hlen₁ fun i hi => ?_
      · refine Covers.push ?_ _
        split_ifs
        · exact hw.more rfl [(suffixKey (l :: ls), UInt16.ofNat w.out.length)] rfl
        · exact hw
      · simpa using hsame (i + 1) hi

theorem length_asWritten (n : Name) : n.asWritten.length = n.labels.length := by
  unfold Name.asWritten
  split_ifs with h
  · exact h
  · rfl

theorem name_alike (hw : Covers asked w) (h : NameAlike asked a b) : w.name a = w.name b := by
  unfold Writer.name
  rw [← h.labels]
  refine nameLoop_alike a.labels a.asWritten b.asWritten w hw (length_asWritten a) ?_ h.written
  rw [length_asWritten, h.labels]

theorem rdata_alike (hw : Covers asked w) {d d' : RData} (h : RdataAlike asked d d') :
    w.rdata d = w.rdata d' := by
  cases h with
  | same => rfl
  | ns h | cname h | ptr h => exact name_alike hw h
  | mx preference h => exact name_alike (hw.push _) h
  | soa hm hr =>
    dsimp only [Writer.rdata]
    rw [name_alike hw hm, name_alike (hw.appends (appends_name _)) hr]

theorem rr_alike (hw : Covers asked w) (h : RrAlike asked r r') : w.rr r = w.rr r' := by
  have hhead : rrHead w r = rrHead w r' := by
    unfold rrHead
    rw [name_alike hw h.name, h.type, h.cls, h.ttl]
  have hcovers : Covers asked ((rrHead w r').push (putU16 0)) :=
    ((((hw.appends (appends_name _)).push _).push _).push _).push _
  rw [rr_eq, rr_eq, hhead, withLength, withLength, rdata_alike hcovers h.rdata]

/-! ### Sections -/

theorem foldl_rr_alike (h : RrsAlike asked rrs rrs') :
    ∀ {w : Writer}, Covers asked w → rrs.foldl Writer.rr w = rrs'.foldl Writer.rr w := by
  induction h with
  | nil => exact fun _ => rfl
  | @cons r r' _ _ hr _ ih =>
    intro w hw
    rw [List.foldl_cons, List.foldl_cons, rr_alike hw hr]
    exact ih (hw.appends (appends_rr r'))

/-- The same RRsets fit, and what is written of them is the same. -/
theorem writeSectionLoop_alike (limit : ℕ) : ∀ (fuel : ℕ) {rrs rrs' : List RR} (w : Writer)
    (count : UInt16), RrsAlike asked rrs rrs' → Covers asked w →
    writeSectionLoop limit fuel rrs w count = writeSectionLoop limit fuel rrs' w count ∧
      ((writeSectionLoop limit fuel rrs w count).2.2 = true →
        Covers asked (writeSectionLoop limit fuel rrs w count).1)
  | 0, _, _, _, _, _, hw => ⟨rfl, fun _ => hw⟩
  | _ + 1, _, _, _, _, .nil, hw => ⟨rfl, fun _ => hw⟩
  | fuel + 1, r :: rest, r' :: rest', w, count, .cons hr hrest, hw => by
    have hsame : ∀ x x', RrAlike asked x x' → sameRrset r x = sameRrset r' x' := fun _ _ hx =>
      hr.sameRrset hx
    have hrun : RrsAlike asked (r :: rest.takeWhile (sameRrset r))
        (r' :: rest'.takeWhile (sameRrset r')) := .cons hr (Aligned.takeWhile hsame hrest)
    rw [writeSectionLoop, writeSectionLoop]
    rw [foldl_rr_alike hrun hw, hrun.length_eq]
    split_ifs with hlimit
    · exact ⟨rfl, False.elim⟩
    · exact writeSectionLoop_alike limit fuel _ _ (Aligned.dropWhile hsame hrest)
        (hw.appends (appends_foldl appends_rr _))

theorem writeSection_alike (limit : ℕ) (h : RrsAlike asked rrs rrs') (hw : Covers asked w) :
    writeSection limit rrs w = writeSection limit rrs' w ∧
      ((writeSection limit rrs w).2.2 = true → Covers asked (writeSection limit rrs w).1) := by
  unfold writeSection
  rw [← h.length_eq]
  exact writeSectionLoop_alike limit _ w 0 h hw

/-! ### The question comes first -/

/-- All suffixes of a name that ends within the reach of a pointer are learned. -/
theorem mem_learned_of_suffix {s : List Label} (hne : s ≠ []) : ∀ {ls : List Label} {size : ℕ},
    size + (ls.map fun l => 1 + l.length).sum ≤ kMaxPointerOffset → s <:+ ls → s ∈ learned [] size ls
  | [], _, _, hs => absurd (List.suffix_nil.mp hs) hne
  | l :: ls, size, hsize, hs => by
    rw [List.map_cons, List.sum_cons] at hsize
    rw [learned, if_neg List.not_mem_nil, if_pos (by omega), List.mem_append]
    rcases List.suffix_cons_iff.mp hs with rfl | hs
    · exact .inr List.mem_cons_self
    · refine .inl (mem_learned_of_suffix hne ?_ hs)
      omega

/-- **The first question covers its name.** -/
theorem covers_question {q : Question} (hq : NameWf q.qname) :
    Covers q.qname.labels ((startWriter true).question q) := by
  obtain ⟨hcompress, -, hknows⟩ := question_knows rfl knows_start hq
  refine ⟨hcompress, fun s hne hs => ?_⟩
  refine (hknows s hne fun l hl => (hq.label l (hs.subset hl)).2).mpr ?_
  rw [List.append_nil]
  refine mem_learned_of_suffix hne ?_ hs
  have hwire := hq.wire
  unfold Name.wireLength at hwire
  have hstart : (startWriter true).size = 12 := rfl
  simp only [kMaxNameWireLength, kMaxPointerOffset] at hwire ⊢
  omega

/-- The name of the first question, the root if there is none. -/
def firstName (m : Message) : Name := (m.questions.headD {}).qname

theorem covers_writeQuestions (limit : ℕ) : ∀ (qs : List Question) (w : Writer) (count : UInt16),
    Covers asked w → (writeQuestions limit qs w count).2.2 = false →
    Covers asked (writeQuestions limit qs w count).1
  | [], _, _, hw, _ => hw
  | q :: qs, w, count, hw, hall => by
    rw [writeQuestions] at hall ⊢
    split_ifs at hall ⊢
    exact covers_writeQuestions limit qs _ _ (hw.appends (appends_question q)) hall

/-- With all questions written, the name of the first is covered. -/
theorem covers_questions (limit : ℕ) (count : UInt16) {qs : List Question}
    (hqs : ∀ q ∈ qs, NameWf q.qname)
    (hall : (writeQuestions limit qs (startWriter true) count).2.2 = false) :
    Covers (qs.headD {}).qname.labels (writeQuestions limit qs (startWriter true) count).1 := by
  cases qs with
  | nil =>
    refine ⟨rfl, fun s hne hs => ?_⟩
    exact absurd (List.suffix_nil.mp hs) hne
  | cons q qs =>
    rw [writeQuestions] at hall ⊢
    split_ifs at hall ⊢
    exact covers_writeQuestions limit qs _ _ (covers_question (hqs q List.mem_cons_self)) hall

/-! ### Whole messages -/

theorem writeSections_alike (limit : ℕ) (h : ResponsesAlike (firstName m).labels m m')
    (hqs : ∀ q ∈ m.questions, NameWf q.qname) :
    writeSections m limit (startWriter true) = writeSections m' limit (startWriter true) := by
  unfold writeSections
  rw [← h.questions]
  have hcovers := covers_questions limit 0 hqs
  generalize writeQuestions limit m.questions (startWriter true) 0 = written at hcovers ⊢
  obtain ⟨w, qdcount, truncated⟩ := written
  dsimp only at hcovers ⊢
  cases truncated with
  | true => rfl
  | false =>
    obtain ⟨hanswers, hcovers⟩ := writeSection_alike limit h.answers (hcovers rfl)
    simp only [Bool.false_eq_true, if_false]
    rw [← hanswers]
    generalize writeSection limit m.answers w = written at hcovers ⊢
    obtain ⟨w, ancount, complete⟩ := written
    dsimp only at hcovers ⊢
    cases complete with
    | false => rfl
    | true =>
      obtain ⟨hauthority, hcovers⟩ := writeSection_alike limit h.authority (hcovers rfl)
      simp only [Bool.not_true, Bool.false_eq_true, if_false]
      rw [← hauthority]
      generalize writeSection limit m.authority w = written at hcovers ⊢
      obtain ⟨w, nscount, complete⟩ := written
      dsimp only at hcovers ⊢
      cases complete with
      | false => rfl
      | true =>
        simp only [Bool.not_true, Bool.false_eq_true, if_false]
        rw [(writeSection_alike limit h.additional (hcovers rfl)).1]

/-- **Responses that are alike but for suffixes of the question's name take the same bytes.** -/
theorem buildMessage_alike (h : ResponsesAlike (firstName m).labels m m')
    (hqs : ∀ q ∈ m.questions, NameWf q.qname) (maxSize : ℕ) :
    buildMessage m maxSize true = buildMessage m' maxSize true := by
  have hsections := writeSections_alike (sectionLimit m maxSize) h hqs
  unfold startWriter sectionLimit at hsections
  unfold buildMessage
  dsimp only
  rw [← h.edns, ← h.header, hsections]

theorem build_alike (h : ResponsesAlike (firstName m).labels m m')
    (hqs : ∀ q ∈ m.questions, NameWf q.qname) {opts : BuildOptions} (hopts : opts.compress = true) :
    build m opts = build m' opts := by
  unfold build
  rw [hopts, buildMessage_alike h hqs]

theorem buildTcp_alike (h : ResponsesAlike (firstName m).labels m m')
    (hqs : ∀ q ∈ m.questions, NameWf q.qname) {opts : BuildOptions} (hopts : opts.compress = true) :
    buildTcp m opts = buildTcp m' opts := by
  unfold buildTcp
  rw [hopts, buildMessage_alike h hqs]

/-! ### How a message ends

A name beyond the reach of a pointer is not learned, and is written out again. How far a writer that
compresses has come is followed here without the bytes before its last ones. -/

/-- The bytes written, the suffixes that are known, and the last name, if it was written out. -/
structure Extent where
  size : ℕ := kHeaderSize
  known : List (List Label) := []
  last : List UInt8 := []

namespace Extent

def skip (x : Extent) (n : ℕ) : Extent := { x with size := x.size + n, last := [] }

def name (x : Extent) (n : Name) : Extent where
  size := x.size + sharedSize x.known n.labels
  known := learned x.known x.size n.labels ++ x.known
  last := if n.labels.tails.any x.known.contains then [] else inPlace (n.labels.zip n.asWritten) ++ [0]

def rdata (x : Extent) : RData → Extent
  | .ns n | .cname n | .ptr n => x.name n
  | .mx _ n => (x.skip 2).name n
  | .soa m r .. => ((x.name m).name r).skip 20
  | d => x.skip (rdataLength d)

def rr (x : Extent) (r : RR) : Extent :=
  (((((x.name r.name).skip 2).skip 2).skip 4).skip 2).rdata r.rdata

def question (x : Extent) (q : Question) : Extent := ((x.name q.qname).skip 2).skip 2

end Extent

/-- The extent of a message that is kept whole. -/
def extentOf (m : Message) : Extent :=
  m.additional.foldl .rr (m.authority.foldl .rr (m.answers.foldl .rr (m.questions.foldl .question {})))

/-- The extent is that of the writer. -/
structure Reached (x : Extent) (w : Writer) : Prop where
  compress : w.compress = true
  size : x.size = w.size
  known : Knows w.suffixes x.known
  header : kHeaderSize ≤ w.size
  last : x.last <:+ w.out.drop kHeaderSize

variable {x : Extent}

/-- A name of which nothing is known is written out. -/
theorem cut_unknown {table : Table} {known : List (List Label)} (h : Knows table known) :
    ∀ {ps : List (Label × Label)}, PairsOk ps → (∀ s ∈ (ps.map Prod.fst).tails, s ∉ known) →
      cut table ps = (ps, none)
  | [], _, _ => rfl
  | p :: ps, hps, hnew => by
    rw [List.map_cons, List.tails_cons] at hnew
    have hmiss : table.lookup (keyOf (p :: ps)) = none := by
      rw [← Option.not_isSome_iff_eq_none, h.key hps]
      exact hnew _ List.mem_cons_self
    rw [cut_miss hmiss, cut_unknown h (fun x hx => hps x (List.mem_cons_of_mem _ hx))
      fun s hs => hnew s (List.mem_cons_of_mem _ hs)]

theorem Reached.push {bytes : List UInt8} {n : ℕ} (h : Reached x w) (hn : bytes.length = n) :
    Reached (x.skip n) (w.push bytes) := by
  refine ⟨h.compress, ?_, h.known, ?_, List.nil_suffix⟩
  · rw [size_push, hn, ← h.size]
    rfl
  · rw [size_push]
    exact h.header.trans (Nat.le_add_right _ _)

theorem Reached.name {n : Name} (h : Reached x w) (hn : NameWf n) : Reached (x.name n) (w.name n) := by
  obtain ⟨hcompress, hsize, hknows⟩ := name_knows h.compress h.known hn
  rw [← h.size] at hsize hknows
  refine ⟨hcompress, hsize.symm, hknows, ?_, ?_⟩
  · exact h.header.trans (by rw [hsize, h.size]; exact Nat.le_add_right _ _)
  · unfold Extent.name
    dsimp only
    split_ifs with hknown
    · exact List.nil_suffix
    · have hnew : ∀ s ∈ n.labels.tails, s ∉ x.known := by simpa using hknown
      rw [← fst_name hn] at hnew
      rw [Writer.name, nameLoop_cut _ w h.compress, cut_unknown h.known (pairsOk_name hn) hnew,
        List.drop_append_of_le_length h.header]
      exact List.suffix_append _ _

theorem Reached.rdata (h : Reached x w) : ∀ {d : RData}, (∀ n ∈ rdataNames d, NameWf n) →
    Reached (x.rdata d) (w.rdata d)
  | .ns n, hd | .cname n, hd | .ptr n, hd => h.name (hd n List.mem_cons_self)
  | .mx _ n, hd => (h.push (length_putU16 _)).name (hd n List.mem_cons_self)
  | .soa m r .., hd => ((h.name (hd m List.mem_cons_self)).name (hd r (by simp [rdataNames]))).push rfl
  | .a _, _ => h.push rfl
  | .aaaa addr, _ => h.push addr.property
  | .txt strings, _ => h.push (length_txtBytes strings)
  | .raw _, _ => h.push rfl

theorem Reached.rr {r : RR} (h : Reached x w) (hr : RRWf r) : Reached (x.rr r) (w.rr r) := by
  obtain ⟨v, heq, -⟩ := withLength_eq (appends_rdata r.rdata) (rrHead w r)
  have hhead : Reached _ (rrHead w r) :=
    (((h.name hr.name).push (length_putU16 _)).push (length_putU16 _)).push (length_putU32 _)
  rw [rr_eq, heq]
  exact (hhead.push (length_putU16 v)).rdata hr.rdata.names

theorem reached_writeAll (hm : MessageWf m) :
    Reached (extentOf m) (writeAll m (startWriter true)) := by
  have hrrs {x : Extent} {w : Writer} {rrs : List RR} (h : Reached x w) (hwf : ∀ r ∈ rrs, RRWf r) :
      Reached (rrs.foldl .rr x) (rrs.foldl .rr w) :=
    List.foldl_rel h fun r hr _ _ h => h.rr (hwf r hr)
  have hqs : Reached (m.questions.foldl .question {}) (m.questions.foldl .question (startWriter true)) :=
    List.foldl_rel ⟨rfl, rfl, knows_start, le_rfl, List.nil_suffix⟩ fun q hq _ _ h =>
      ((h.name (hm.questions q hq)).push (length_putU16 _)).push (length_putU16 _)
  exact hrrs (hrrs (hrrs hqs hm.answers) hm.authority) hm.additional

/-- **The last bytes of a message** that fits and has no OPT record. -/
theorem last_suffix_buildTcp (hm : MessageWf m) (hedns : m.edns = none)
    (hfits : (extentOf m).size ≤ kMaxTcpMessage) : (extentOf m).last <:+ buildTcp m := by
  have hreached := reached_writeAll hm
  have hfull : fullSize m true ≤ kMaxTcpMessage := by
    rw [fullSize, hedns, writeEdns, ← hreached.size]
    exact hfits
  obtain ⟨x, -, hx, hbuild, -⟩ := buildMessage_eq hm (by decide : 512 ≤ kMaxTcpMessage) true
  rw [keptOf_whole hfull, hedns] at hx
  have hlast : (extentOf m).last <:+ x := by
    have hsuffix := hreached.last
    rwa [show (writeAll m (startWriter true)).out = _ from hx,
      List.drop_left' (List.length_replicate ..)] at hsuffix
  refine hlast.trans ?_
  unfold buildTcp
  rw [hbuild, ← List.append_assoc]
  exact List.suffix_append _ _

end DNSentinel.Wire.SharedCase
