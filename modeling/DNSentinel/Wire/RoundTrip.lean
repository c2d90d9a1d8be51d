import DNSentinel.Wire.RecordCode
import Mathlib.Data.List.TakeWhile

/-! # What is built is parsed back

The builder writes whole RRsets while they fit below the limit and takes the first that does not fit
back. `Truncation m k`: `k` is what is left of `m`. The parser reads `k`, up to the case of names.

* `writeSectionLoop_spec`, `writeQuestions_spec`: what the loops of the builder keep.
* `readSection_written`, `readQuestions_written`: the loops of the parser on it.
* `parse_buildMessage`: the whole message. -/

namespace DNSentinel.Wire.RoundTrip

open DNSentinel.Types ByteIo Builder WellFormed NameCode RecordCode Lib.Buffer
open Edns (writeOpt optTtl parseOpt parseOptLoop kOptRecordSize kClassicUdpSize)
open Wire.Parser (readName readQuestions readSection readRecord parseHeader minNeeded
  parse)

/-! ### What is kept of a message -/

/-- `kept` is a prefix of `all` that ends between two runs of equal name, type and class. -/
def CutAtRun (kept all : List RR) : Prop :=
  ∃ dropped, all = kept ++ dropped ∧
    ∀ a ∈ kept.getLast?, ∀ b ∈ dropped.head?, sameRrset a b = false

/-- **What truncation leaves**: prefixes of the sections, cut between RRsets; nothing follows a
section that was cut. -/
structure Truncation (m k : Message) : Prop where
  questions : k.questions <+: m.questions
  answers : CutAtRun k.answers m.answers
  authority : CutAtRun k.authority m.authority
  additional : CutAtRun k.additional m.additional
  afterQuestions : k.questions ≠ m.questions →
    k.answers = [] ∧ k.authority = [] ∧ k.additional = []
  afterAnswers : k.answers ≠ m.answers → k.authority = [] ∧ k.additional = []
  afterAuthority : k.authority ≠ m.authority → k.additional = []

/-- Something was dropped that makes the builder set TC. -/
def Dropped (m k : Message) : Prop :=
  k.questions.length < m.questions.length ∨ k.answers.length < m.answers.length ∨
    k.authority.length < m.authority.length

instance (m k : Message) : Decidable (Dropped m k) := by unfold Dropped; infer_instance

/-- Equal sections, names compared without case. -/
structure SameSections (m k : Message) : Prop where
  questions : List.Forall₂ (fun q q' => (q == q') = true) m.questions k.questions
  answers : List.Forall₂ (fun r r' => (r == r') = true) m.answers k.answers
  authority : List.Forall₂ (fun r r' => (r == r') = true) m.authority k.authority
  additional : List.Forall₂ (fun r r' => (r == r') = true) m.additional k.additional

theorem sameRrset_iff {a b : RR} : sameRrset a b = true ↔
    a.type = b.type ∧ a.cls = b.cls ∧ a.name.labels = b.name.labels := by
  simp [sameRrset, Name.beq_iff, and_assoc]

theorem cutAtRun_nil (all : List RR) : CutAtRun [] all := ⟨all, rfl, by simp⟩

/-- A cut of what follows the first run is a cut of the whole. -/
theorem CutAtRun.cons_run {r : RR} {rest kept : List RR}
    (h : CutAtRun kept (rest.dropWhile (sameRrset r))) :
    CutAtRun ((r :: rest.takeWhile (sameRrset r)) ++ kept) (r :: rest) := by
  obtain ⟨dropped, hall, hcut⟩ := h
  refine ⟨dropped, ?_, fun a ha b hb => ?_⟩
  · rw [List.append_assoc, ← hall, List.cons_append, List.takeWhile_append_dropWhile]
  rcases List.eq_nil_or_concat kept with rfl | ⟨kept, last, rfl⟩
  · -- the cut is at the end of the first run
    have hra : sameRrset r a = true := by
      rw [List.append_nil] at ha
      have hmem := List.mem_of_getLast? ha
      rcases List.mem_cons.mp hmem with rfl | hmem
      · exact sameRrset_iff.mpr ⟨rfl, rfl, rfl⟩
      · exact List.mem_takeWhile_imp hmem
    have hrb : sameRrset r b = false := by
      rw [List.nil_append] at hall
      have := List.head?_dropWhile_not (sameRrset r) rest
      rw [hall, hb] at this
      simpa using this
    by_contra hab
    rw [Bool.not_eq_false, sameRrset_iff] at hab
    rw [sameRrset_iff] at hra
    rw [Bool.eq_false_iff, ne_eq, sameRrset_iff] at hrb
    exact hrb ⟨hra.1.trans hab.1, hra.2.1.trans hab.2.1, hra.2.2.trans hab.2.2⟩
  · refine hcut a ?_ b hb
    rw [List.concat_eq_append] at ha ⊢
    rw [← List.append_assoc, List.getLast?_concat] at ha
    rwa [List.getLast?_concat]

/-! ### What the loops of the builder keep -/

variable {msg : List UInt8}

theorem appends_foldl {α : Type} {f : Writer → α → Writer} (hf : ∀ a, Appends fun w => f w a) :
    ∀ xs : List α, Appends fun w => xs.foldl f w
  | [] => appends_id
  | x :: xs => (appends_foldl hf xs).comp (hf x)

theorem foldl_rr_ok : ∀ {rrs : List RR} {w : Writer}, WriterOk w → (∀ r ∈ rrs, RRWf r) →
    WriterOk (rrs.foldl Writer.rr w) ∧ w.size + 11 * rrs.length ≤ (rrs.foldl Writer.rr w).size
  | [], w, hw, _ => ⟨hw, by simp⟩
  | r :: rrs, w, hw, h => by
    have hr := h r List.mem_cons_self
    have hsize := size_rr hw hr
    obtain ⟨hok, hle⟩ := foldl_rr_ok (rr_ok hw hr) fun x hx => h x (List.mem_cons_of_mem _ hx)
    simp only [List.foldl_cons, List.length_cons]
    exact ⟨hok, by omega⟩

theorem foldl_question_ok : ∀ {qs : List Question} {w : Writer}, WriterOk w →
    (∀ q ∈ qs, NameWf q.qname) → WriterOk (qs.foldl Writer.question w) ∧
      w.size + 5 * qs.length ≤ (qs.foldl Writer.question w).size
  | [], w, hw, _ => ⟨hw, by simp⟩
  | q :: qs, w, hw, h => by
    have hq := h q List.mem_cons_self
    have hsize := size_question hw hq
    obtain ⟨hok, hle⟩ := foldl_question_ok (question_ok hw hq)
      fun x hx => h x (List.mem_cons_of_mem _ hx)
    simp only [List.foldl_cons, List.length_cons]
    exact ⟨hok, by omega⟩

/-- The questions that fit below the limit. -/
def keptQuestions (limit : ℕ) : List Question → Writer → List Question
  | [], _ => []
  | q :: qs, w =>
    if limit < (w.question q).size then [] else q :: keptQuestions limit qs (w.question q)

/-- The records of a section that fit, in whole runs. -/
def keptRecords (limit : ℕ) : ℕ → List RR → Writer → List RR
  | 0, _, _ => []
  | _ + 1, [], _ => []
  | fuel + 1, r :: rest, w =>
    let run := r :: rest.takeWhile (sameRrset r)
    if limit < (run.foldl Writer.rr w).size then []
    else run ++ keptRecords limit fuel (rest.dropWhile (sameRrset r)) (run.foldl Writer.rr w)

theorem writeQuestions_spec {limit : ℕ} : ∀ (qs : List Question) (w : Writer) (count : UInt16),
    WriterOk w → (∀ q ∈ qs, NameWf q.qname) → w.size ≤ limit →
    keptQuestions limit qs w <+: qs ∧
      writeQuestions limit qs w count =
        ((keptQuestions limit qs w).foldl Writer.question w,
          count + UInt16.ofNat (keptQuestions limit qs w).length,
          decide ((keptQuestions limit qs w).length < qs.length)) ∧
      ((keptQuestions limit qs w).foldl Writer.question w).size ≤ limit
  | [], w, count, _, _, hle => ⟨List.prefix_rfl, by simp [writeQuestions, keptQuestions], hle⟩
  | q :: qs, w, count, hw, h, hle => by
    have hq := h q List.mem_cons_self
    rw [writeQuestions, keptQuestions]
    split_ifs with hbig
    · refine ⟨List.nil_prefix, ?_, hle⟩
      rw [(appends_question q).rollback hw]
      simp
    · obtain ⟨hpre, heq, hsize⟩ := writeQuestions_spec qs (w.question q) (count + 1)
        (question_ok hw hq) (fun x hx => h x (List.mem_cons_of_mem _ hx)) (not_lt.mp hbig)
      refine ⟨List.cons_prefix_cons.mpr ⟨rfl, hpre⟩, ?_, hsize⟩
      rw [heq]
      simp [UInt16.ofNat_add, UInt16.add_assoc, UInt16.add_comm]

/-- **The loop of `write_section`** keeps whole runs while they fit. -/
theorem writeSectionLoop_spec {limit : ℕ} : ∀ (fuel : ℕ) (rrs : List RR) (w : Writer)
    (count : UInt16), rrs.length < fuel → WriterOk w → (∀ r ∈ rrs, RRWf r) → w.size ≤ limit →
    CutAtRun (keptRecords limit fuel rrs w) rrs ∧
      writeSectionLoop limit fuel rrs w count =
        ((keptRecords limit fuel rrs w).foldl Writer.rr w,
          count + UInt16.ofNat (keptRecords limit fuel rrs w).length,
          decide ((keptRecords limit fuel rrs w).length = rrs.length)) ∧
      ((keptRecords limit fuel rrs w).foldl Writer.rr w).size ≤ limit
  | 0, _, _, _, hf, _, _, _ => by omega
  | fuel + 1, [], w, count, _, _, _, hle =>
    ⟨cutAtRun_nil [], by simp [writeSectionLoop, keptRecords], hle⟩
  | fuel + 1, r :: rest, w, count, hf, hw, h, hle => by
    let run := r :: rest.takeWhile (sameRrset r)
    let after := rest.dropWhile (sameRrset r)
    have hsplit : run ++ after = r :: rest := by
      simp [run, after, List.takeWhile_append_dropWhile]
    have hlen : run.length + after.length = rest.length + 1 := by
      rw [← List.length_append, hsplit, List.length_cons]
    have hrun : ∀ x ∈ run, RRWf x := fun x hx => h x (hsplit ▸ List.mem_append_left _ hx)
    have hafter : ∀ x ∈ after, RRWf x := fun x hx => h x (hsplit ▸ List.mem_append_right _ hx)
    rw [writeSectionLoop, keptRecords]
    split_ifs with hbig
    · refine ⟨cutAtRun_nil _, ?_, hle⟩
      rw [(appends_foldl appends_rr run).rollback hw]
      simp
    · have hshort : after.length < fuel := by
        simp only [List.length_cons] at hf
        have : 0 < run.length := List.length_pos_of_mem List.mem_cons_self
        omega
      obtain ⟨hcut, heq, hsize⟩ := writeSectionLoop_spec fuel after
        (run.foldl Writer.rr w) (count + UInt16.ofNat run.length) hshort (foldl_rr_ok hw hrun).1
        hafter (by simpa [run] using hbig)
      refine ⟨hcut.cons_run, ?_, by rwa [List.foldl_append]⟩
      have hall : (run ++ keptRecords limit fuel after (run.foldl Writer.rr w)).length =
          (r :: rest).length ↔
            (keptRecords limit fuel after (run.foldl Writer.rr w)).length = after.length := by
        rw [← hsplit, List.length_append, List.length_append]
        omega
      rw [heq, List.foldl_append, decide_eq_decide.mpr hall, List.length_append, UInt16.ofNat_add,
        UInt16.add_assoc]

theorem keptQuestions_whole {limit : ℕ} : ∀ (qs : List Question) (w : Writer),
    (qs.foldl Writer.question w).size ≤ limit → keptQuestions limit qs w = qs
  | [], _, _ => rfl
  | q :: qs, w, h => by
    have hle := (appends_foldl appends_question qs).size_le (w.question q)
    rw [keptQuestions, if_neg (not_lt.mpr (hle.trans h)), keptQuestions_whole qs _ h]

theorem keptRecords_whole {limit : ℕ} : ∀ (fuel : ℕ) (rrs : List RR) (w : Writer),
    rrs.length < fuel → (rrs.foldl Writer.rr w).size ≤ limit → keptRecords limit fuel rrs w = rrs
  | 0, _, _, hf, _ => by omega
  | _ + 1, [], _, _, _ => rfl
  | fuel + 1, r :: rest, w, hf, h => by
    have hsplit := List.takeWhile_append_dropWhile (p := sameRrset r) (l := rest)
    have hshort : (rest.dropWhile (sameRrset r)).length < fuel := by
      have hle := List.length_dropWhile_le (sameRrset r) rest
      simp only [List.length_cons] at hf
      omega
    rw [← hsplit, ← List.cons_append, List.foldl_append] at h
    have hle := (appends_foldl appends_rr (rest.dropWhile (sameRrset r))).size_le
      ((r :: rest.takeWhile (sameRrset r)).foldl Writer.rr w)
    rw [keptRecords, if_neg (not_lt.mpr (hle.trans h)), keptRecords_whole fuel _ _ hshort h,
      List.cons_append, hsplit]

/-! ### The loops of the parser on it -/

theorem readQuestions_written : ∀ (qs : List Question) (w : Writer) (out : List Question),
    WriterOk w → (∀ q ∈ qs, NameWf q.qname) → Holds msg (qs.foldl Writer.question w) →
    ∃ qs', readQuestions msg qs.length w.size out =
        .ok ((qs.foldl Writer.question w).size, out ++ qs') ∧
      List.Forall₂ (fun q q' => (q == q') = true) qs' qs
  | [], w, out, _, _, _ => ⟨[], by simp [readQuestions], .nil⟩
  | q :: qs, w, out, hw, h, hm => by
    have hq := h q List.mem_cons_self
    have hm' : Holds msg (w.question q) := hm.of_appends (appends_foldl appends_question qs)
    obtain ⟨q', hread, hbeq⟩ := readQuestion_written hw hq hm'
    obtain ⟨qs', hrest, hsame⟩ := readQuestions_written qs (w.question q) (out ++ [q'])
      (question_ok hw hq) (fun x hx => h x (List.mem_cons_of_mem _ hx)) hm
    refine ⟨q' :: qs', ?_, .cons hbeq hsame⟩
    rw [List.length_cons, readQuestions, hread]
    simp only [Bind.bind, Except.bind]
    rw [hrest]
    simp

/-- **The loop of `read_section`** reads the records written and goes on after them. -/
theorem readSection_written (isAdditional : Bool) (edns : Option EdnsInfo) (more : ℕ) :
    ∀ (rrs : List RR) (w : Writer) (out : List RR),
    WriterOk w → (∀ r ∈ rrs, RRWf r) → Holds msg (rrs.foldl Writer.rr w) →
    ∃ rrs', readSection msg isAdditional (rrs.length + more) w.size out edns =
        readSection msg isAdditional more (rrs.foldl Writer.rr w).size (out ++ rrs') edns ∧
      List.Forall₂ (fun r r' => (r == r') = true) rrs' rrs
  | [], w, out, _, _, _ => ⟨[], by simp, .nil⟩
  | r :: rrs, w, out, hw, h, hm => by
    have hr := h r List.mem_cons_self
    have hm' : Holds msg (w.rr r) := hm.of_appends (appends_foldl appends_rr rrs)
    obtain ⟨r', hread, hbeq⟩ := readRecord_written hw hr hm'
    obtain ⟨rrs', hrest, hsame⟩ := readSection_written isAdditional edns more rrs (w.rr r)
      (out ++ [r']) (rr_ok hw hr) (fun x hx => h x (List.mem_cons_of_mem _ hx)) hm
    refine ⟨r' :: rrs', ?_, .cons hbeq hsame⟩
    rw [List.length_cons, Nat.add_right_comm, readSection, hread]
    simp only [Bind.bind, Except.bind, Option.toList]
    rw [hrest]
    simp

/-! ### The OPT record -/

theorem toNat_optTtl (e : EdnsInfo) : (optTtl e).toNat =
    e.extendedRcode.toNat * 2 ^ 24 + e.version.toNat * 2 ^ 16 +
      (if e.dnssecOk then 2 ^ 15 else 0) := by
  have h1 := e.extendedRcode.toNat_lt
  have h2 := e.version.toNat_lt
  have hx : (e.extendedRcode.toUInt32 <<< 24).toNat = e.extendedRcode.toNat * 2 ^ 24 := by
    rw [UInt32.toNat_shiftLeft, UInt8.toNat_toUInt32, Nat.shiftLeft_eq]
    simp only [UInt32.reduceToNat, Nat.reduceMod, Nat.reducePow]
    omega
  have hv : (e.version.toUInt32 <<< 16).toNat = e.version.toNat * 2 ^ 16 := by
    rw [UInt32.toNat_shiftLeft, UInt8.toNat_toUInt32, Nat.shiftLeft_eq]
    simp only [UInt32.reduceToNat, Nat.reduceMod, Nat.reducePow]
    omega
  have hd : (if e.dnssecOk then (0x8000 : UInt32) else 0).toNat =
      if e.dnssecOk then 2 ^ 15 else 0 := by
    split_ifs <;> rfl
  have hlt : (if e.dnssecOk then 2 ^ 15 else 0) < 2 ^ 16 := by
    split_ifs <;> decide
  unfold optTtl
  rw [UInt32.toNat_or, UInt32.toNat_or, hx, hv, hd, ← Nat.shiftLeft_eq, or_eq_add (by omega),
    show e.extendedRcode.toNat * 2 ^ 24 + e.version.toNat * 2 ^ 16 =
      (e.extendedRcode.toNat * 2 ^ 8 + e.version.toNat) <<< 16 by rw [Nat.shiftLeft_eq]; omega,
    or_eq_add hlt]
  omega

theorem parseOpt_optTtl (e : EdnsInfo) : parseOpt e.udpPayloadSize (optTtl e) [] = .ok e := by
  have h := toNat_optTtl e
  have h1 := e.extendedRcode.toNat_lt
  have h2 := e.version.toNat_lt
  have hlt : (if e.dnssecOk then 2 ^ 15 else 0) < 2 ^ 16 := by
    split_ifs <;> decide
  have hx : (optTtl e >>> 24).toUInt8 = e.extendedRcode := by
    apply UInt8.toNat_inj.mp
    rw [UInt32.toNat_toUInt8, UInt32.toNat_shiftRight, Nat.shiftRight_eq_div_pow, h]
    simp only [UInt32.reduceToNat, Nat.reduceMod, Nat.reducePow] at hlt ⊢
    omega
  have hv : (optTtl e >>> 16).toUInt8 = e.version := by
    apply UInt8.toNat_inj.mp
    rw [UInt32.toNat_toUInt8, UInt32.toNat_shiftRight, Nat.shiftRight_eq_div_pow, h]
    simp only [UInt32.reduceToNat, Nat.reduceMod, Nat.reducePow] at hlt ⊢
    omega
  have hand : (optTtl e &&& 0x8000).toNat = if e.dnssecOk then 2 ^ 15 else 0 := by
    rw [UInt32.toNat_and, show (0x8000 : UInt32).toNat = 2 ^ 15 from rfl, Nat.and_two_pow, h,
      Nat.testBit_eq_decide_div_mod_eq]
    cases e.dnssecOk <;> simp <;> omega
  have hd : (optTtl e &&& 0x8000 != 0) = e.dnssecOk := by
    rw [Bool.eq_iff_iff, bne_iff_ne, ne_eq, ← UInt32.toNat_inj, hand]
    cases e.dnssecOk <;> simp
  unfold parseOpt
  rw [hx, hv, hd]
  rfl

/-- **The OPT record is read back** as the EDNS information it was written from. -/
theorem readRecord_writeOpt {w : Writer} (e : EdnsInfo) (hw : WriterOk w)
    (h : Holds msg (w.push (writeOpt e))) :
    readRecord msg true w.size none = .ok (w.size + kOptRecordSize, none, some e) := by
  have hat := h.at_push hw
  have hle := hat.length_le (by simp [writeOpt])
  rw [Edns.length_writeOpt] at hle
  unfold writeOpt at hat
  simp only [List.cons_append, at_cons, at_append, List.length_append, length_putU16,
    length_putU32] at hat
  obtain ⟨hroot, ⟨⟨htype, hcls⟩, httl⟩, hlen⟩ := hat
  have hname : readName msg w.size = .ok ({}, w.size + 1) :=
    readNameLoop_of_nameAt (.root hw.header hroot) _ _ rfl rfl (by simp [labelsLength, kMaxNameWireLength])
      (by simp) (by decide)
  have hk : kOptRecordSize = 1 + Parser.kRRFixedSize := rfl
  have hk' : Parser.kRRFixedSize = 10 := rfl
  unfold readRecord
  rw [hname]
  simp only [Bind.bind, Except.bind]
  rw [sizeSub_of_le (by omega), if_neg (by omega), loadU16_of_at htype, loadU16_of_at hcls,
    loadU32_of_at httl, loadU16_of_at hlen]
  dsimp only
  rw [sizeSub_of_le (by omega), if_neg (by simp), if_pos rfl]
  have hslice : slice msg (w.size + 1 + Parser.kRRFixedSize) (0 : UInt16).toNat = .ok [] :=
    slice_of_le (by simp only [UInt16.reduceToNat]; omega)
  rw [hslice]
  simp only [Name.labelCount, Option.isSome_none, List.length_nil, parseOpt_optTtl]
  rw [hk, ← Nat.add_assoc]
  rfl

/-! ### The header -/

/-- The twelve bytes of a header. -/
def headerBytes (h : Header) : List UInt8 :=
  putU16 h.id ++ [flagByte2 h, flagByte3 h] ++ putU16 h.qdcount ++ putU16 h.ancount ++
    putU16 h.nscount ++ putU16 h.arcount

theorem length_headerBytes (h : Header) : (headerBytes h).length = kHeaderSize := rfl

theorem writeHeader_eq (h : Header) (x : List UInt8) :
    writeHeader (List.replicate kHeaderSize 0 ++ x) h = headerBytes h ++ x := rfl

/-- The header is written over the first bytes, and nothing else changes. -/
theorem holds_headerBytes {w : Writer} {x : List UInt8} (hx : w.out = List.replicate kHeaderSize 0 ++ x)
    (h : Header) : Holds (headerBytes h ++ x) w := by
  intro i hlo _
  rw [hx, List.getElem?_append_right (by rwa [length_headerBytes]),
    List.getElem?_append_right (by simpa using hlo), List.length_replicate, length_headerBytes]

theorem flagByte2_bits (h : Header) (hop : h.opcode < 16) :
    (flagByte2 h &&& 0x80 != 0) = h.qr ∧ (flagByte2 h >>> 3) &&& 0x0F = h.opcode ∧
      (flagByte2 h &&& 0x04 != 0) = h.aa ∧ (flagByte2 h &&& 0x02 != 0) = h.tc ∧
      (flagByte2 h &&& 0x01 != 0) = h.rd := by
  have key : ∀ (qr aa tc rd : Bool) (op : Fin 16),
      let b := flag qr 0x80 ||| ((UInt8.ofNat op.val &&& 0x0F) <<< 3) ||| flag aa 0x04 |||
        flag tc 0x02 ||| flag rd 0x01
      (b &&& 0x80 != 0) = qr ∧ (b >>> 3) &&& 0x0F = UInt8.ofNat op.val ∧
        (b &&& 0x04 != 0) = aa ∧ (b &&& 0x02 != 0) = tc ∧ (b &&& 0x01 != 0) = rd := by
    decide +kernel
  have h16 := key h.qr h.aa h.tc h.rd ⟨h.opcode.toNat, hop⟩
  rwa [UInt8.ofNat_toNat] at h16

theorem flagByte3_bits (h : Header) (hrc : h.rcode < 16) :
    (flagByte3 h &&& 0x80 != 0) = h.ra ∧ (flagByte3 h &&& 0x20 != 0) = h.ad ∧
      (flagByte3 h &&& 0x10 != 0) = h.cd ∧ flagByte3 h &&& 0x0F = h.rcode := by
  have key : ∀ (ra ad cd : Bool) (rc : Fin 16),
      let b := flag ra 0x80 ||| flag ad 0x20 ||| flag cd 0x10 ||| (UInt8.ofNat rc.val &&& 0x0F)
      (b &&& 0x80 != 0) = ra ∧ (b &&& 0x20 != 0) = ad ∧ (b &&& 0x10 != 0) = cd ∧
        b &&& 0x0F = UInt8.ofNat rc.val := by
    decide +kernel
  have h16 := key h.ra h.ad h.cd ⟨h.rcode.toNat, hrc⟩
  rwa [UInt8.ofNat_toNat] at h16

theorem parseHeader_headerBytes {h : Header} (hop : h.opcode < 16) (hrc : h.rcode < 16)
    (x : List UInt8) : parseHeader (headerBytes h ++ x) = .ok h := by
  obtain ⟨hqr, hopcode, haa, htc, hrd⟩ := flagByte2_bits h hop
  obtain ⟨hra, had, hcd, hrcode⟩ := flagByte3_bits h hrc
  have h2 : byteAt (headerBytes h ++ x) 2 = .ok (flagByte2 h) := rfl
  have h3 : byteAt (headerBytes h ++ x) 3 = .ok (flagByte3 h) := rfl
  have hid : loadU16 (headerBytes h ++ x) 0 = .ok h.id := congrArg _ (u16_put h.id)
  have h4 : loadU16 (headerBytes h ++ x) 4 = .ok h.qdcount := congrArg _ (u16_put h.qdcount)
  have h6 : loadU16 (headerBytes h ++ x) 6 = .ok h.ancount := congrArg _ (u16_put h.ancount)
  have h8 : loadU16 (headerBytes h ++ x) 8 = .ok h.nscount := congrArg _ (u16_put h.nscount)
  have h10 : loadU16 (headerBytes h ++ x) 10 = .ok h.arcount := congrArg _ (u16_put h.arcount)
  have hlen : ¬ (headerBytes h ++ x).length < Parser.kHeaderSize := by
    rw [List.length_append]
    exact Nat.not_lt.mpr (Nat.le_add_right _ _)
  unfold parseHeader
  rw [if_neg hlen, h2, h3, hid, h4, h6, h8, h10]
  simp only [Bind.bind, Except.bind, hqr, hopcode, haa, htc, hrd, hra, had, hcd, hrcode]

/-! ### All sections -/

/-- The sections of `k`, written one after the other. -/
def writeAll (k : Message) (w : Writer) : Writer :=
  k.additional.foldl Writer.rr (k.authority.foldl Writer.rr (k.answers.foldl Writer.rr
    (k.questions.foldl Writer.question w)))

theorem CutAtRun.isPrefix {kept all : List RR} (h : CutAtRun kept all) : kept <+: all := by
  obtain ⟨dropped, rfl, -⟩ := h
  exact List.prefix_append _ _

theorem Truncation.wf {m k : Message} (h : Truncation m k) (hm : MessageWf m) :
    (∀ q ∈ k.questions, NameWf q.qname) ∧ (∀ r ∈ k.answers, RRWf r) ∧
      (∀ r ∈ k.authority, RRWf r) ∧ ∀ r ∈ k.additional, RRWf r :=
  ⟨fun q hq => hm.questions q (h.questions.subset hq),
    fun r hr => hm.answers r (h.answers.isPrefix.subset hr),
    fun r hr => hm.authority r (h.authority.isPrefix.subset hr),
    fun r hr => hm.additional r (h.additional.isPrefix.subset hr)⟩

/-- The records of a section that fit. -/
def keptSection (limit : ℕ) (rrs : List RR) (w : Writer) : List RR :=
  keptRecords limit (rrs.length + 1) rrs w

theorem writeSection_spec {limit : ℕ} {rrs : List RR} {w : Writer} (hw : WriterOk w)
    (h : ∀ r ∈ rrs, RRWf r) (hle : w.size ≤ limit) :
    CutAtRun (keptSection limit rrs w) rrs ∧
      writeSection limit rrs w = ((keptSection limit rrs w).foldl Writer.rr w,
        UInt16.ofNat (keptSection limit rrs w).length,
        decide ((keptSection limit rrs w).length = rrs.length)) ∧
      ((keptSection limit rrs w).foldl Writer.rr w).size ≤ limit ∧
      WriterOk ((keptSection limit rrs w).foldl Writer.rr w) := by
  obtain ⟨hcut, heq, hsize⟩ :=
    writeSectionLoop_spec (rrs.length + 1) rrs w 0 (by omega) hw h hle
  refine ⟨hcut, ?_, hsize, (foldl_rr_ok hw fun r hr => h r (hcut.isPrefix.subset hr)).1⟩
  rw [writeSection, heq, UInt16.zero_add]
  rfl

/-- What the builder keeps of a message. -/
def kept (m : Message) (limit : ℕ) (w : Writer) : Message :=
  let questions := keptQuestions limit m.questions w
  let w := questions.foldl Writer.question w
  if questions.length < m.questions.length then { questions }
  else
    let answers := keptSection limit m.answers w
    let w := answers.foldl Writer.rr w
    if answers.length < m.answers.length then { questions, answers }
    else
      let authority := keptSection limit m.authority w
      let w := authority.foldl Writer.rr w
      if authority.length < m.authority.length then { questions, answers, authority }
      else { questions, answers, authority, additional := keptSection limit m.additional w }

/-- A message that fits is kept whole. -/
theorem kept_whole {m : Message} {limit : ℕ} {w : Writer} (h : (writeAll m w).size ≤ limit) :
    kept m limit w = { m with header := {}, edns := none } := by
  unfold writeAll at h
  have hr := (appends_foldl appends_rr m.additional).size_le (m.authority.foldl Writer.rr
    (m.answers.foldl Writer.rr (m.questions.foldl Writer.question w)))
  have hn := (appends_foldl appends_rr m.authority).size_le
    (m.answers.foldl Writer.rr (m.questions.foldl Writer.question w))
  have ha := (appends_foldl appends_rr m.answers).size_le (m.questions.foldl Writer.question w)
  unfold kept keptSection
  rw [keptQuestions_whole _ _ (by omega)]
  dsimp only
  rw [keptRecords_whole _ m.answers _ (by omega) (by omega),
    keptRecords_whole _ m.authority _ (by omega) (by omega),
    keptRecords_whole _ m.additional _ (by omega) h]
  simp only [lt_irrefl, if_false]

/-- **The sections the builder writes** are what truncation leaves of the message. -/
theorem writeSections_spec {m : Message} (hm : MessageWf m) {limit : ℕ} {w : Writer}
    (hw : WriterOk w) (hle : w.size ≤ limit) :
    Truncation m (kept m limit w) ∧ (writeAll (kept m limit w) w).size ≤ limit ∧
      writeSections m limit w =
        (writeAll (kept m limit w) w,
          (UInt16.ofNat (kept m limit w).questions.length, UInt16.ofNat (kept m limit w).answers.length,
            UInt16.ofNat (kept m limit w).authority.length,
            UInt16.ofNat (kept m limit w).additional.length),
          decide (Dropped m (kept m limit w))) := by
  obtain ⟨hqs, hq, hqle⟩ := writeQuestions_spec m.questions w 0 hw hm.questions hle
  rw [UInt16.zero_add] at hq
  unfold writeSections kept
  rw [hq]
  generalize keptQuestions limit m.questions w = qs at hqs hqle ⊢
  have hqok := (foldl_question_ok hw fun q h => hm.questions q (hqs.subset h)).1
  dsimp only
  by_cases hqd : qs.length < m.questions.length
  · rw [if_pos hqd]
    refine ⟨⟨hqs, cutAtRun_nil _, cutAtRun_nil _, cutAtRun_nil _, ?_, ?_, ?_⟩, hqle, ?_⟩
    · simp
    · simp
    · simp
    · simp [hqd, writeAll, Dropped]
  rw [if_neg hqd]
  obtain rfl : qs = m.questions := hqs.eq_of_length_le (by omega)
  obtain ⟨has, ha, hale, haok⟩ := writeSection_spec hqok hm.answers hqle
  rw [ha]
  generalize keptSection limit m.answers (m.questions.foldl Writer.question w) = as at has hale haok ⊢
  by_cases had : as.length < m.answers.length
  · rw [if_pos had]
    refine ⟨⟨hqs, has, cutAtRun_nil _, cutAtRun_nil _, ?_, ?_, ?_⟩, hale, ?_⟩
    · simp
    · simp
    · simp
    · simp [had.ne, had, writeAll, Dropped]
  rw [if_neg had]
  obtain rfl : as = m.answers := has.isPrefix.eq_of_length_le (by omega)
  obtain ⟨hns, hn, hnle, hnok⟩ := writeSection_spec haok hm.authority hale
  dsimp only
  rw [hn]
  generalize keptSection limit m.authority _ = ns at hns hnle hnok ⊢
  by_cases hnd : ns.length < m.authority.length
  · rw [if_pos hnd]
    refine ⟨⟨hqs, has, hns, cutAtRun_nil _, ?_, ?_, ?_⟩, hnle, ?_⟩
    · simp
    · simp
    · simp
    · simp [hnd.ne, hnd, writeAll, Dropped]
  rw [if_neg hnd]
  obtain rfl : ns = m.authority := hns.isPrefix.eq_of_length_le (by omega)
  obtain ⟨hrs, hr, hrle, -⟩ := writeSection_spec hnok hm.additional hnle
  dsimp only
  rw [hr]
  refine ⟨⟨hqs, has, hns, hrs, ?_, ?_, ?_⟩, hrle, ?_⟩
  · simp
  · simp
  · simp
  · simp [writeAll, Dropped]

/-! ### The message -/

/-- The OPT record after the sections, if there is one. -/
def writeEdns (edns : Option EdnsInfo) (w : Writer) : Writer :=
  match edns with
  | some e => w.push (writeOpt e)
  | none => w

def ednsCount (edns : Option EdnsInfo) : ℕ := if edns.isSome then 1 else 0

theorem size_writeEdns (edns : Option EdnsInfo) (w : Writer) :
    (writeEdns edns w).size = w.size + kOptRecordSize * ednsCount edns := by
  cases edns <;> simp [writeEdns, ednsCount, size_push]

theorem appends_writeEdns : ∀ edns : Option EdnsInfo, Appends (writeEdns edns)
  | some _ => appends_push _
  | none => appends_id

theorem readSection_writeEdns {edns : Option EdnsInfo} {w : Writer} (hw : WriterOk w)
    (h : Holds msg (writeEdns edns w)) (out : List RR) :
    readSection msg true (ednsCount edns) w.size out none =
      .ok ((writeEdns edns w).size, out, edns) := by
  cases edns with
  | none => rfl
  | some e =>
    rw [show ednsCount (some e) = 0 + 1 from rfl, readSection, readRecord_writeOpt e hw h]
    simp [Bind.bind, Except.bind, readSection, size_writeEdns, ednsCount]

/-- The header the builder writes for what it kept. -/
def builtHeader (m k : Message) : Header :=
  { m.header with
    qdcount := UInt16.ofNat k.questions.length
    ancount := UInt16.ofNat k.answers.length
    nscount := UInt16.ofNat k.authority.length
    arcount := UInt16.ofNat (k.additional.length + ednsCount m.edns)
    tc := m.header.tc || decide (Dropped m k) }

/-- The writer `build_message` starts from. -/
def startWriter (compress : Bool) : Writer := { compress, out := List.replicate kHeaderSize 0 }

theorem startWriter_ok (compress : Bool) : WriterOk (startWriter compress) :=
  ⟨le_rfl, fun e he => by simp [startWriter] at he⟩

theorem appends_writeAll (k : Message) : Appends (writeAll k) :=
  (appends_foldl appends_rr _).comp ((appends_foldl appends_rr _).comp
    ((appends_foldl appends_rr _).comp (appends_foldl appends_question _)))

/-- The bytes the sections may take. -/
def sectionLimit (m : Message) (maxSize : ℕ) : ℕ :=
  sizeSub maxSize (if m.edns.isSome then kOptRecordSize else 0)

theorem ednsSize_le (edns : Option EdnsInfo) : kOptRecordSize * ednsCount edns ≤ 11 := by
  cases edns <;> simp [kOptRecordSize, ednsCount]

theorem sectionLimit_eq {m : Message} {maxSize : ℕ}
    (h : kOptRecordSize * ednsCount m.edns ≤ maxSize) :
    sectionLimit m maxSize = maxSize - kOptRecordSize * ednsCount m.edns := by
  have hopt : (if m.edns.isSome then kOptRecordSize else 0) = kOptRecordSize * ednsCount m.edns := by
    cases m.edns <;> rfl
  rw [sectionLimit, hopt, sizeSub_of_le h]

/-- What `build_message` keeps of a message. -/
def keptOf (m : Message) (maxSize : ℕ) (compress : Bool) : Message :=
  kept m (sectionLimit m maxSize) (startWriter compress)

/-- **The built message**: a header, and the sections that were kept. -/
theorem buildMessage_eq {m : Message} (hm : MessageWf m) {maxSize : ℕ} (h512 : 512 ≤ maxSize)
    (compress : Bool) : ∃ x, Truncation m (keptOf m maxSize compress) ∧
      (writeEdns m.edns (writeAll (keptOf m maxSize compress) (startWriter compress))).out =
        List.replicate kHeaderSize 0 ++ x ∧
      buildMessage m maxSize compress =
        headerBytes (builtHeader m (keptOf m maxSize compress)) ++ x ∧
      kHeaderSize + x.length ≤ maxSize := by
  have hcount := ednsSize_le m.edns
  have hlimit := sectionLimit_eq (by omega : kOptRecordSize * ednsCount m.edns ≤ maxSize)
  have hstart : (startWriter compress).size = 12 := rfl
  have hle : (startWriter compress).size ≤ sectionLimit m maxSize := by omega
  obtain ⟨hk, hsize, heq⟩ := writeSections_spec hm (startWriter_ok compress) hle
  change Truncation m (keptOf m maxSize compress) at hk
  change (writeAll (keptOf m maxSize compress) (startWriter compress)).size ≤ _ at hsize
  obtain ⟨x, hx⟩ := ((appends_writeEdns m.edns).comp
    (appends_writeAll (keptOf m maxSize compress))).out (startWriter compress)
  refine ⟨x, hk, hx, ?_, ?_⟩
  · unfold buildMessage
    dsimp only
    rw [show sizeSub maxSize (if m.edns.isSome then kOptRecordSize else 0) = sectionLimit m maxSize
      from rfl, show ({ compress, out := List.replicate kHeaderSize 0 } : Writer) =
        startWriter compress from rfl, heq]
    rw [← writeHeader_eq, ← show (startWriter compress).out = List.replicate kHeaderSize 0 from rfl,
      ← hx]
    unfold builtHeader ednsCount writeEdns keptOf
    cases m.edns <;> simp [UInt16.ofNat_add]
  · have hfinal := size_writeEdns m.edns (writeAll (keptOf m maxSize compress) (startWriter compress))
    have hlen := congrArg List.length hx
    rw [List.length_append] at hlen
    simp only [Writer.size] at hfinal hsize hstart
    unfold kHeaderSize
    omega

theorem toNat_count {n : ℕ} (h : n < 2 ^ 16) : (UInt16.ofNat n).toNat = n :=
  UInt16.toNat_ofNat_of_lt' (by simpa [UInt16.size] using h)

/-- The bytes the sections take at least. -/
theorem size_writeAll {k : Message} {w : Writer} (hw : WriterOk w)
    (hq : ∀ q ∈ k.questions, NameWf q.qname) (ha : ∀ r ∈ k.answers, RRWf r)
    (hn : ∀ r ∈ k.authority, RRWf r) (hr : ∀ r ∈ k.additional, RRWf r) :
    w.size + 5 * k.questions.length +
      11 * (k.answers.length + k.authority.length + k.additional.length) ≤ (writeAll k w).size := by
  obtain ⟨okq, lq⟩ := foldl_question_ok hw hq
  obtain ⟨oka, la⟩ := foldl_rr_ok okq ha
  obtain ⟨okn, ln⟩ := foldl_rr_ok oka hn
  obtain ⟨-, lr⟩ := foldl_rr_ok okn hr
  unfold writeAll
  omega

/-- **The parser on the sections that were written**, once it has accepted the header. -/
theorem parse_sections {k : Message} {w : Writer} {edns : Option EdnsInfo} {h : Header}
    (hw : WriterOk w) (hsize : w.size = Parser.kHeaderSize)
    (hq : ∀ q ∈ k.questions, NameWf q.qname) (ha : ∀ r ∈ k.answers, RRWf r)
    (hn : ∀ r ∈ k.authority, RRWf r) (hr : ∀ r ∈ k.additional, RRWf r)
    (hmsg : Holds msg (writeEdns edns (writeAll k w))) (hh : parseHeader msg = .ok h)
    (hneed : ¬ sizeSub msg.length Parser.kHeaderSize < minNeeded h)
    (cq : h.qdcount.toNat = k.questions.length) (ca : h.ancount.toNat = k.answers.length)
    (cn : h.nscount.toNat = k.authority.length)
    (cr : h.arcount.toNat = k.additional.length + ednsCount edns) :
    ∃ m', parse msg = .ok m' ∧ SameSections m' k ∧ m'.edns = edns ∧ m'.header = h := by
  have okq := (foldl_question_ok hw hq).1
  have oka := (foldl_rr_ok okq ha).1
  have okn := (foldl_rr_ok oka hn).1
  have okr := (foldl_rr_ok okn hr).1
  have hmr : Holds msg (writeAll k w) := hmsg.of_appends (appends_writeEdns edns)
  unfold writeAll at hmr hmsg
  have hmn := Holds.of_appends hmr (appends_foldl appends_rr k.additional)
  have hma := Holds.of_appends hmn (appends_foldl appends_rr k.authority)
  have hmq := Holds.of_appends hma (appends_foldl appends_rr k.answers)
  obtain ⟨qs, hqs, sq⟩ := readQuestions_written k.questions w [] hw hq hmq
  obtain ⟨as, has, sa⟩ := readSection_written false none 0 k.answers _ [] okq ha hma
  obtain ⟨ns, hns, sn⟩ := readSection_written false none 0 k.authority _ [] oka hn hmn
  obtain ⟨rs, hrs, sr⟩ :=
    readSection_written true none (ednsCount edns) k.additional _ [] okn hr hmr
  rw [readSection_writeEdns okr hmsg] at hrs
  refine ⟨⟨h, qs, as, ns, rs, edns⟩, ?_, ⟨sq, sa, sn, sr⟩, rfl, rfl⟩
  rw [hsize] at hqs
  simp only [Nat.add_zero, readSection, List.nil_append] at hqs has hns hrs
  unfold parse
  rw [hh]
  simp only [Bind.bind, Except.bind]
  rw [if_neg hneed, cq, ca, cn, cr, hqs]
  simp only [has, hns, hrs]

/-- **Encode, then decode**: the message that is built for a limit of `maxSize` bytes keeps to the
limit, and is read as what truncation left of `m`. -/
theorem parse_buildMessage {m : Message} (hm : MessageWf m) {maxSize : ℕ} (h512 : 512 ≤ maxSize)
    (hmax : maxSize ≤ kMaxTcpMessage) (compress : Bool) :
    (buildMessage m maxSize compress).length ≤ maxSize ∧
      Truncation m (keptOf m maxSize compress) ∧
      ∃ m', parse (buildMessage m maxSize compress) = .ok m' ∧
        SameSections m' (keptOf m maxSize compress) ∧ m'.edns = m.edns ∧
        m'.header = builtHeader m (keptOf m maxSize compress) := by
  obtain ⟨x, hk, hx, heq, hle⟩ := buildMessage_eq hm h512 compress
  obtain ⟨hq, ha, hn, hr⟩ := hk.wf hm
  generalize keptOf m maxSize compress = k at hk hx hq ha hn hr heq ⊢
  have hlen : (headerBytes (builtHeader m k) ++ x).length = kHeaderSize + x.length := by
    rw [List.length_append, length_headerBytes]
  rw [heq]
  refine ⟨by omega, hk, ?_⟩
  -- the counts fit, and the sections take what they announce
  have hall := size_writeAll (startWriter_ok compress) hq ha hn hr
  have hsize := size_writeEdns m.edns (writeAll k (startWriter compress))
  have hout : (writeEdns m.edns (writeAll k (startWriter compress))).size =
      kHeaderSize + x.length := by
    rw [Writer.size, hx, List.length_append, List.length_replicate]
  have hstart : (startWriter compress).size = kHeaderSize := rfl
  have hopt : kOptRecordSize = 11 := rfl
  have h12 : kHeaderSize = 12 := rfl
  rw [hopt] at hsize
  unfold kMaxTcpMessage at hmax
  have cq : (builtHeader m k).qdcount.toNat = k.questions.length := toNat_count (by omega)
  have ca : (builtHeader m k).ancount.toNat = k.answers.length := toNat_count (by omega)
  have cn : (builtHeader m k).nscount.toNat = k.authority.length := toNat_count (by omega)
  have cr : (builtHeader m k).arcount.toNat = k.additional.length + ednsCount m.edns :=
    toNat_count (by omega)
  have hneed : ¬ sizeSub (headerBytes (builtHeader m k) ++ x).length Parser.kHeaderSize <
      minNeeded (builtHeader m k) := by
    have hp : Parser.kHeaderSize = kHeaderSize := rfl
    rw [hlen, hp, sizeSub_of_le (Nat.le_add_right _ _)]
    simp only [minNeeded, cq, ca, cn, cr, Parser.kMinQuestionSize, Parser.kMinRRSize]
    omega
  have hmsg := holds_headerBytes hx (builtHeader m k)
  have hh := parseHeader_headerBytes (h := builtHeader m k) hm.opcode hm.rcode x
  obtain ⟨m', hparse, hsame, hedns, hheader⟩ :=
    parse_sections (startWriter_ok compress) hstart hq ha hn hr hmsg hh hneed cq ca cn cr
  exact ⟨m', hparse, hsame, hedns, hheader⟩

/-- `bytes` decodes to `k`, which is what truncation left of `m`: the same EDNS information, the same
header up to the counts, and TC set if it was set or if questions, answers or authority records were
dropped. -/
def Decodes (m k : Message) (bytes : List UInt8) : Prop :=
  Truncation m k ∧ ∃ m', parse bytes = .ok m' ∧ SameSections m' k ∧ m'.edns = m.edns ∧
    m'.header =
      { m.header with
        qdcount := m'.header.qdcount
        ancount := m'.header.ancount
        nscount := m'.header.nscount
        arcount := m'.header.arcount
        tc := m.header.tc || decide (Dropped m k) }

def DecodesTo (m : Message) (bytes : List UInt8) : Prop := ∃ k, Decodes m k bytes

/-- The bytes of a message that nothing is dropped from. -/
def fullSize (m : Message) (compress : Bool) : ℕ :=
  (writeEdns m.edns (writeAll m (startWriter compress))).size

theorem keptOf_whole {m : Message} {maxSize : ℕ} {compress : Bool}
    (h : fullSize m compress ≤ maxSize) :
    keptOf m maxSize compress = { m with header := {}, edns := none } := by
  unfold fullSize at h
  rw [size_writeEdns] at h
  refine kept_whole ?_
  rw [sectionLimit_eq (by omega)]
  omega

theorem decodes_buildMessage {m : Message} (hm : MessageWf m) {maxSize : ℕ}
    (h512 : 512 ≤ maxSize) (hmax : maxSize ≤ kMaxTcpMessage) (compress : Bool) :
    (buildMessage m maxSize compress).length ≤ maxSize ∧
      DecodesTo m (buildMessage m maxSize compress) ∧
      (fullSize m compress ≤ maxSize → Decodes m m (buildMessage m maxSize compress)) := by
  obtain ⟨hle, hk, m', hparse, hsame, hedns, hheader⟩ :=
    parse_buildMessage hm h512 hmax compress
  refine ⟨hle, ⟨_, hk, m', hparse, hsame, hedns, ?_⟩, fun hfits => ?_⟩
  · rw [hheader]
    rfl
  · rw [keptOf_whole hfits] at hk hsame hheader
    refine ⟨⟨hk.questions, hk.answers, hk.authority, hk.additional, by simp, by simp, by simp⟩, m',
      hparse, ⟨hsame.questions, hsame.answers, hsame.authority, hsame.additional⟩, hedns, ?_⟩
    rw [hheader]
    rfl

theorem toNat_max (a b : UInt16) : (max a b).toNat = max a.toNat b.toNat := by
  rw [show max a b = if a ≤ b then b else a from rfl]
  split_ifs with h
  · exact (max_eq_right (UInt16.le_iff_toNat_le.mp h)).symm
  · exact (max_eq_left (le_of_not_ge fun hle => h (UInt16.le_iff_toNat_le.mpr hle))).symm

/-- **Encode and decode with truncation**, over UDP and over TCP: a message that fits is kept whole. -/
theorem parse_build (m : Message) (hm : MessageWf m) (opts : BuildOptions) :
    (build m opts).length ≤ max 512 opts.maxSize.toNat ∧ DecodesTo m (build m opts) ∧
      (fullSize m opts.compress ≤ max 512 opts.maxSize.toNat → Decodes m m (build m opts)) ∧
      ∃ (len : UInt16) (body : List UInt8), buildTcp m opts = putU16 len ++ body ∧
        len.toNat = body.length ∧ body.length ≤ 65535 ∧ DecodesTo m body ∧
        (fullSize m opts.compress ≤ 65535 → Decodes m m body) := by
  have hmax : (max opts.maxSize kClassicUdpSize).toNat = max 512 opts.maxSize.toNat := by
    rw [toNat_max, max_comm]
    rfl
  have hlt := opts.maxSize.toNat_lt
  have h512 : 512 ≤ max 512 opts.maxSize.toNat := le_max_left _ _
  have htcp : 512 ≤ kMaxTcpMessage := by decide
  obtain ⟨hle, hdec, hwhole⟩ := decodes_buildMessage hm h512 (by unfold kMaxTcpMessage; omega)
    opts.compress
  obtain ⟨hle', hdec'⟩ := decodes_buildMessage hm htcp le_rfl opts.compress
  unfold build
  rw [hmax]
  refine ⟨hle, hdec, hwhole, _, _, rfl, toNat_count ?_, hle', hdec'⟩
  exact Nat.lt_succ_of_le hle'

/-- A response with an alias and its address, and EDNS. -/
def sampleResponse : Message :=
  let host : Name := ⟨[[119], [97]], [[87], [97]]⟩
  let target : Name := ⟨[[98], [97]], [[98], [65]]⟩
  { header := { id := 7, qr := true, rd := true, ra := true }
    questions := [⟨host, RRType.A, kClassIN⟩]
    answers := [{ name := host, type := RRType.CNAME, ttl := 60, rdata := .cname target },
      { name := target, type := RRType.A, ttl := 30, rdata := .a 0x01020304 }]
    edns := some { udpPayloadSize := 1232 } }

theorem sampleResponse_wf : MessageWf sampleResponse := by decide +kernel

theorem parse_build_sampleResponse : MessageWf sampleResponse ∧
    fullSize sampleResponse true ≤ 512 ∧ Decodes sampleResponse sampleResponse (build sampleResponse) :=
  ⟨sampleResponse_wf, by decide,
    (parse_build sampleResponse sampleResponse_wf {}).2.2.1 (by decide)⟩

end DNSentinel.Wire.RoundTrip
