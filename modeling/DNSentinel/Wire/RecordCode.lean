import DNSentinel.Wire.NameCode
import Mathlib.Data.Nat.Bitwise

/-! # Written questions and records are read back

For a writer `w` whose table is right and any buffer that holds what `w` has after writing a question
or a record (`Holds`), the parser reads it at the old end of `w`, equal to what was written up to the
case of names, and stops at the new end.

`Writer::rr` patches RDLENGTH after writing RDATA. What RDATA writes does not depend on the bytes
before it (`Appends`), so the patched record is the one that would have been written with the right
length in place (`withLength_eq`). -/

namespace DNSentinel.Wire.RecordCode

open DNSentinel.Types ByteIo Builder WellFormed NameCode Lib.Buffer
open Wire.Parser (readName readQuestion nameRdata txtLoop readMx readSoa aaaaOf readRdata
  clearTopBit readRecord kRRFixedSize)

variable {w : Writer} {msg : List UInt8}

/-- `msg` holds what `w` has written after the header. -/
def Holds (msg : List UInt8) (w : Writer) : Prop := Above kHeaderSize w.out msg

theorem Holds.of_appends {f : Writer → Writer} (h : Holds msg (f w)) (hf : Appends f) :
    Holds msg w := by
  refine Above.trans (hf.above w) h ?_
  exact hf.size_le w

theorem Holds.of_push {bytes : List UInt8} (h : Holds msg (w.push bytes)) : Holds msg w :=
  h.of_appends (appends_push bytes)

theorem Holds.at_push {bytes : List UInt8} (h : Holds msg (w.push bytes)) (hw : WriterOk w) :
    At msg w.size bytes :=
  At.above (at_end w.out bytes) h hw.header

theorem size_push (w : Writer) (bytes : List UInt8) :
    (w.push bytes).size = w.size + bytes.length := by
  simp [Writer.push, Writer.size]

/-! ### Questions -/

theorem appends_question (q : Question) : Appends fun w => w.question q :=
  (appends_push _).comp ((appends_push _).comp (appends_name q.qname))

theorem question_ok {q : Question} (hw : WriterOk w) (hq : NameWf q.qname) :
    WriterOk (w.question q) :=
  ((name_written hw hq).1.push _).push _

theorem size_question {q : Question} (hw : WriterOk w) (hq : NameWf q.qname) :
    w.size + 5 ≤ (w.question q).size := by
  have := (size_name_le hw hq).1
  simp only [Writer.question, size_push, length_putU16]
  omega

/-- **A written question is read back.** -/
theorem readQuestion_written {q : Question} (hw : WriterOk w) (hq : NameWf q.qname)
    (h : Holds msg (w.question q)) :
    ∃ q', readQuestion msg w.size = .ok (q', (w.question q).size) ∧ (q' == q) = true := by
  have hok := (name_written hw hq).1
  have hcls := Holds.at_push h (hok.push _)
  have htype := h.of_push.at_push hok
  obtain ⟨n, hread, hlabels⟩ := readName_written hw hq h.of_push.of_push
  have hle := hcls.length_le (by simp [putU16])
  simp only [size_push, length_putU16] at hcls hle
  refine ⟨⟨n, q.qtype, q.qclass⟩, ?_, ?_⟩
  · unfold readQuestion
    rw [hread]
    simp only [Bind.bind, Except.bind]
    rw [sizeSub_of_le (by omega), if_neg (by omega), loadU16_of_at htype, loadU16_of_at hcls]
    simp only [Writer.question, size_push, length_putU16]
  · rw [Question.beq_iff]
    exact ⟨hlabels, rfl, rfl⟩

/-! ### Record data -/

theorem appends_rdata : ∀ d : RData, Appends fun w => w.rdata d
  | .a _ | .aaaa _ | .txt _ | .raw _ => appends_push _
  | .ns n | .cname n | .ptr n => appends_name n
  | .mx _ n => (appends_name n).comp (appends_push _)
  | .soa m r .. => (appends_push _).comp ((appends_name r).comp (appends_name m))

theorem rdata_ok (hw : WriterOk w) : ∀ {d : RData}, (∀ n ∈ rdataNames d, NameWf n) →
    WriterOk (w.rdata d)
  | .a _, _ | .aaaa _, _ | .txt _, _ | .raw _, _ => hw.push _
  | .ns _, h | .cname _, h | .ptr _, h => (name_written hw (h _ List.mem_cons_self)).1
  | .mx _ _, h => (name_written (hw.push _) (h _ List.mem_cons_self)).1
  | .soa .., h =>
    (name_written (name_written hw (h _ List.mem_cons_self)).1 (h _ (by simp [rdataNames]))).1.push _

/-- The bytes of the strings of a TXT record. -/
def txtBytes (strings : List (List UInt8)) : List UInt8 :=
  strings.flatMap fun s => UInt8.ofNat s.length :: s

theorem length_txtBytes : ∀ strings : List (List UInt8),
    (txtBytes strings).length = (strings.map fun s => 1 + s.length).sum
  | [] => rfl
  | s :: strings => by
    have := length_txtBytes strings
    simp only [txtBytes, List.flatMap_cons, List.length_append, List.length_cons, List.map_cons,
      List.sum_cons] at this ⊢
    omega

theorem length_le_txtBytes : ∀ strings : List (List UInt8),
    strings.length ≤ (txtBytes strings).length
  | [] => le_rfl
  | s :: strings => by
    have := length_le_txtBytes strings
    simp only [txtBytes, List.flatMap_cons, List.length_append, List.length_cons] at this ⊢
    omega

/-- RDATA takes no more bytes than without compression. -/
theorem size_rdata_le (hw : WriterOk w) : ∀ {d : RData}, (∀ n ∈ rdataNames d, NameWf n) →
    (w.rdata d).size ≤ w.size + rdataLength d
  | .a _, _ => by simp [Writer.rdata, size_push, rdataLength]
  | .aaaa x, _ => by simp [Writer.rdata, size_push, rdataLength, x.2]
  | .txt strings, _ => by
    have := length_txtBytes strings
    unfold txtBytes at this
    simp only [Writer.rdata, size_push, rdataLength, this, le_refl]
  | .raw _, _ => by simp [Writer.rdata, size_push, rdataLength]
  | .ns _, h | .cname _, h | .ptr _, h => (size_name_le hw (h _ List.mem_cons_self)).2
  | .mx p n, h => by
    have := (size_name_le (hw.push (putU16 p)) (h n List.mem_cons_self)).2
    simp only [size_push, length_putU16] at this
    simp only [Writer.rdata, rdataLength]
    omega
  | .soa m r .., h => by
    have hm := h m List.mem_cons_self
    have h1 := (size_name_le hw hm).2
    have h2 := (size_name_le (name_written hw hm).1 (h r (by simp [rdataNames]))).2
    simp only [Writer.rdata, size_push, rdataLength, List.length_append, length_putU32]
    omega

theorem txtLoop_written {rdata : List UInt8} : ∀ (strings : List (List UInt8)) (fuel p : ℕ)
    (acc : List (List UInt8)), (∀ s ∈ strings, s.length ≤ 255) → strings.length < fuel →
    At rdata p (txtBytes strings) → p + (txtBytes strings).length = rdata.length →
    txtLoop rdata fuel p acc = .ok (acc ++ strings)
  | _, 0, _, _, _, hf, _, _ => by omega
  | [], fuel + 1, p, acc, _, _, _, hlen => by
    simp only [txtBytes, List.flatMap_nil, List.length_nil] at hlen
    rw [txtLoop, if_neg (by omega), List.append_nil]
  | s :: strings, fuel + 1, p, acc, h255, hf, hat, hlen => by
    have hs := h255 s List.mem_cons_self
    have hcons : txtBytes (s :: strings) = UInt8.ofNat s.length :: (s ++ txtBytes strings) := rfl
    rw [hcons] at hat hlen
    obtain ⟨hb, hat⟩ := at_cons.mp hat
    obtain ⟨hs', hat⟩ := at_append.mp hat
    simp only [List.length_cons, List.length_append] at hlen hf
    have hn : (UInt8.ofNat s.length).toNat = s.length :=
      UInt8.toNat_ofNat_of_lt' (by simp [UInt8.size]; omega)
    rw [txtLoop, if_pos (by omega), byteAt_of_getElem hb]
    simp only [Bind.bind, Except.bind, hn]
    rw [sizeSub_of_le (by omega), if_neg (by omega), slice_of_at hs' (by omega)]
    dsimp only
    rw [txtLoop_written strings fuel _ _ (fun x hx => h255 x (List.mem_cons_of_mem _ hx))
      (by omega) hat (by omega)]
    simp

theorem nameRdata_written {n : Name} {stop : ℕ} (mk : Name → RData) (hw : WriterOk w)
    (hn : NameWf n) (h : Holds msg (w.name n)) (hstop : (w.name n).size = stop) :
    ∃ n', nameRdata msg w.size stop mk = .ok (mk n') ∧ n'.labels = n.labels := by
  obtain ⟨n', hread, hlabels⟩ := readName_written hw hn h
  refine ⟨n', ?_, hlabels⟩
  unfold nameRdata
  rw [hread]
  simp [Bind.bind, Except.bind, hstop]

theorem readMx_written {n : Name} {p : UInt16} {stop : ℕ} (hw : WriterOk w) (hn : NameWf n)
    (h : Holds msg ((w.push (putU16 p)).name n)) (hstop : ((w.push (putU16 p)).name n).size = stop) :
    ∃ n', readMx msg w.size stop = .ok (.mx p n') ∧ n'.labels = n.labels := by
  obtain ⟨n', hread, hlabels⟩ := readName_written (hw.push _) hn h
  have hp := (h.of_appends (appends_name n)).at_push hw
  rw [size_push, length_putU16] at hread
  refine ⟨n', ?_, hlabels⟩
  unfold readMx
  rw [loadU16_of_at hp]
  simp only [Bind.bind, Except.bind]
  rw [hread]
  simp [hstop]

theorem readSoa_written {m r : Name} {serial refresh retry expire minimum : UInt32} {stop : ℕ}
    (hw : WriterOk w) (hm : NameWf m) (hr : NameWf r)
    (h : Holds msg (w.rdata (.soa m r serial refresh retry expire minimum)))
    (hstop : (w.rdata (.soa m r serial refresh retry expire minimum)).size = stop) :
    ∃ m' r', readSoa msg w.size stop = .ok (.soa m' r' serial refresh retry expire minimum) ∧
      m'.labels = m.labels ∧ r'.labels = r.labels := by
  have hm' := (name_written hw hm).1
  have hr' := (name_written hm' hr).1
  obtain ⟨r', hreadr, hlr⟩ := readName_written hm' hr h.of_push
  obtain ⟨m', hreadm, hlm⟩ := readName_written hw hm (h.of_push.of_appends (appends_name r))
  have hat := Holds.at_push h hr'
  simp only [at_append, List.length_append, length_putU32] at hat
  obtain ⟨⟨⟨⟨h1, h2⟩, h3⟩, h4⟩, h5⟩ := hat
  simp only [Writer.rdata, size_push, List.length_append, length_putU32] at hstop
  refine ⟨m', r', ?_, hlm, hlr⟩
  unfold readSoa
  rw [hreadm]
  simp only [Bind.bind, Except.bind]
  rw [hreadr]
  dsimp only
  rw [sizeSub_of_le (by omega), if_neg (by omega), loadU32_of_at h1, loadU32_of_at h2,
    loadU32_of_at h3, loadU32_of_at h4, loadU32_of_at h5]

/-- **Written RDATA is read back**, in the alternative that its type and class call for. -/
theorem readRdata_written {type : RRType} {cls rdlen : UInt16} {d : RData} (hw : WriterOk w)
    (hd : RdataWf type cls d) (h : Holds msg (w.rdata d)) (hmsg : (w.rdata d).size ≤ msg.length)
    (hlen : (w.rdata d).size = w.size + rdlen.toNat) :
    ∃ d', readRdata msg w.size rdlen type cls = .ok d' ∧ (d' == d) = true := by
  have hof := hd.ofType
  have hnames := hd.names
  -- RDATA that is pushed as it is
  have hslice : ∀ bytes, w.rdata d = w.push bytes →
      slice msg w.size rdlen.toNat = .ok bytes ∧ bytes.length = rdlen.toNat := by
    intro bytes hb
    rw [hb] at h hlen hmsg
    rw [size_push] at hlen hmsg
    have hl : bytes.length = rdlen.toNat := by omega
    exact ⟨hl ▸ slice_of_at (h.at_push hw) hmsg, hl⟩
  unfold readRdata
  cases d with
  | a addr =>
    obtain ⟨rfl, rfl⟩ := hof
    obtain ⟨hs, hl⟩ := hslice _ rfl
    have h4 : rdlen = 4 := UInt16.toNat_inj.mp hl.symm
    refine ⟨.a addr, ?_, RData.beq_self _⟩
    have hload : loadU32 (putU32 addr) 0 = .ok addr := loadU32_of_at (at_end [] _)
    rw [hs]
    simp [Bind.bind, Except.bind, h4, hload]
  | aaaa addr =>
    obtain ⟨rfl, rfl⟩ := hof
    obtain ⟨hs, hl⟩ := hslice _ rfl
    have h16 : rdlen = 16 := UInt16.toNat_inj.mp (by rw [← hl, addr.2]; rfl)
    refine ⟨.aaaa addr, ?_, RData.beq_self _⟩
    rw [hs]
    simp [Bind.bind, Except.bind, h16, aaaaOf, addr.2, RRType.AAAA, RRType.A]
  | ns n =>
    obtain rfl := hof
    obtain ⟨n', hread, hl⟩ := nameRdata_written .ns hw (hnames n List.mem_cons_self) h hlen
    refine ⟨.ns n', ?_, Name.beq_iff.mpr hl⟩
    rw [slice_of_le (by omega)]
    simp [Bind.bind, Except.bind, hread, RRType.AAAA, RRType.A, RRType.NS]
  | cname n =>
    obtain rfl := hof
    obtain ⟨n', hread, hl⟩ := nameRdata_written .cname hw (hnames n List.mem_cons_self) h hlen
    refine ⟨.cname n', ?_, Name.beq_iff.mpr hl⟩
    rw [slice_of_le (by omega)]
    simp [Bind.bind, Except.bind, hread, RRType.AAAA, RRType.A, RRType.NS, RRType.CNAME]
  | ptr n =>
    obtain rfl := hof
    obtain ⟨n', hread, hl⟩ := nameRdata_written .ptr hw (hnames n List.mem_cons_self) h hlen
    refine ⟨.ptr n', ?_, Name.beq_iff.mpr hl⟩
    rw [slice_of_le (by omega)]
    simp [Bind.bind, Except.bind, hread, RRType.AAAA, RRType.A, RRType.NS, RRType.CNAME, RRType.PTR]
  | mx p n =>
    obtain rfl := hof
    have hn := hnames n List.mem_cons_self
    obtain ⟨n', hread, hl⟩ := readMx_written hw hn h hlen
    have hlt := (size_name_le (hw.push (putU16 p)) hn).1
    simp only [Writer.rdata, size_push, length_putU16] at hlen hlt hmsg
    have h2 : ¬ rdlen < 2 := by
      rw [UInt16.lt_iff_toNat_lt]
      simp only [UInt16.reduceToNat]
      omega
    refine ⟨.mx p n', ?_, ?_⟩
    · rw [slice_of_le (by omega)]
      simp [Bind.bind, Except.bind, hread, h2, RRType.AAAA, RRType.A, RRType.NS, RRType.CNAME,
        RRType.PTR, RRType.MX]
    · show (p == p && n' == n) = true
      simp [Name.beq_iff.mpr hl]
  | soa m r serial refresh retry expire minimum =>
    obtain rfl := hof
    obtain ⟨m', r', hread, hm, hr⟩ := readSoa_written hw (hnames m List.mem_cons_self)
      (hnames r (by simp [rdataNames])) h hlen
    refine ⟨.soa m' r' serial refresh retry expire minimum, ?_, ?_⟩
    · rw [slice_of_le (by omega)]
      simp [Bind.bind, Except.bind, hread, RRType.AAAA, RRType.A, RRType.NS, RRType.CNAME,
        RRType.PTR, RRType.MX, RRType.SOA]
    · show RData.beq _ _ = true
      simp [RData.beq, Name.beq_iff.mpr hm, Name.beq_iff.mpr hr]
  | txt strings =>
    obtain rfl := hof
    obtain ⟨hs, -⟩ := hslice (txtBytes strings) rfl
    have hcount := length_le_txtBytes strings
    have hloop := txtLoop_written strings ((txtBytes strings).length + 1) 0 [] hd.txt
      (by omega) (at_end [] _) (by simp)
    rw [List.nil_append, List.nil_append] at hloop
    refine ⟨.txt strings, ?_, RData.beq_self _⟩
    rw [hs]
    simp [Bind.bind, Except.bind, hloop, RRType.AAAA, RRType.A, RRType.NS, RRType.CNAME,
      RRType.PTR, RRType.MX, RRType.SOA, RRType.TXT]
  | raw data =>
    obtain ⟨ha, haaaa, hns, hcname, hptr, hmx, hsoa, htxt⟩ := hof
    obtain ⟨hs, -⟩ := hslice data rfl
    refine ⟨.raw data, ?_, RData.beq_self _⟩
    rw [hs]
    simp only [Bind.bind, Except.bind]
    rw [if_neg ha, if_neg haaaa, if_neg hns, if_neg hcname, if_neg hptr, if_neg hmx, if_neg hsoa,
      if_neg htxt]

/-! ### Records -/

/-- `Writer::rr` up to the TTL. -/
def rrHead (w : Writer) (r : RR) : Writer :=
  (((w.name r.name).push (putU16 r.type)).push (putU16 r.cls)).push (putU32 r.ttl)

/-- Run `f` after two bytes that are patched with the length of what it wrote. -/
def withLength (f : Writer → Writer) (w : Writer) : Writer :=
  let w' := f (w.push (putU16 0))
  { w' with out := storeU16 w'.out w.size (UInt16.ofNat (sizeSub (sizeSub w'.size w.size) 2)) }

theorem rr_eq (w : Writer) (r : RR) : w.rr r = withLength (fun w => w.rdata r.rdata) (rrHead w r) :=
  rfl

theorem storeU16_between (a x : List UInt8) (v v' : UInt16) :
    storeU16 (a ++ putU16 v ++ x) a.length v' = a ++ putU16 v' ++ x := by
  unfold storeU16 putU16
  simp

/-- The code of `withLength f`, from the code of `f`. -/
def lengthCode (code : Code) : Code := fun c table size =>
  let x := code c table (size + 2)
  (putU16 (UInt16.ofNat x.1.length) ++ x.1, x.2)

section WithLength

variable {f : Writer → Writer} {code : Code} (hcode : ∀ w, f w = code.write w)
include hcode

theorem write_push (w : Writer) (v : UInt16) : f (w.push (putU16 v)) =
    { w with
      out := w.out ++ putU16 v ++ (code w.compress w.suffixes (w.size + 2)).1
      suffixes := (code w.compress w.suffixes (w.size + 2)).2 ++ w.suffixes } := by
  rw [hcode]
  unfold Code.write
  rw [size_push, length_putU16]
  rfl

theorem withLength_write (w : Writer) : withLength f w = (lengthCode code).write w := by
  unfold withLength
  dsimp only
  rw [write_push hcode]
  simp only [Writer.size, List.length_append, length_putU16]
  rw [sizeSub_of_le (show w.out.length ≤ _ by omega), sizeSub_of_le (by omega), storeU16_between,
    show w.out.length + 2 + (code w.compress w.suffixes (w.out.length + 2)).1.length -
      w.out.length - 2 = (code w.compress w.suffixes (w.out.length + 2)).1.length by omega]
  simp [Code.write, lengthCode, Writer.size]

end WithLength

theorem appends_withLength {f : Writer → Writer} (hf : Appends f) : Appends (withLength f) := by
  obtain ⟨code, hcode, hoff⟩ := hf
  refine ⟨lengthCode code, withLength_write hcode, fun c table size e he => ?_⟩
  have := hoff c table (size + 2) e he
  omega

/-- **RDLENGTH**: patching the length gives what writing the right length first would have. -/
theorem withLength_eq {f : Writer → Writer} (hf : Appends f) (w : Writer) :
    ∃ v : UInt16, withLength f w = f (w.push (putU16 v)) ∧
      ((withLength f w).size ≤ w.size + 2 + 65535 →
        (withLength f w).size = w.size + 2 + v.toNat) := by
  obtain ⟨code, hcode, -⟩ := hf
  rw [withLength_write hcode]
  refine ⟨UInt16.ofNat (code w.compress w.suffixes (w.size + 2)).1.length, ?_, fun hle => ?_⟩
  · rw [write_push hcode]
    simp [Code.write, lengthCode]
  · simp only [Code.write, lengthCode, Writer.size, List.length_append, length_putU16] at hle ⊢
    rw [UInt16.toNat_ofNat_of_lt' (by simp only [UInt16.size]; omega)]
    omega

theorem appends_rr (r : RR) : Appends fun w => w.rr r :=
  (appends_withLength (appends_rdata r.rdata)).comp
    ((appends_push _).comp ((appends_push _).comp ((appends_push _).comp (appends_name r.name))))

section Record

variable {r : RR}

theorem rrHead_ok (hw : WriterOk w) (hr : NameWf r.name) : WriterOk (rrHead w r) :=
  (((name_written hw hr).1.push _).push _).push _

theorem size_rrHead (hw : WriterOk w) (hr : NameWf r.name) : w.size + 9 ≤ (rrHead w r).size := by
  have := (size_name_le hw hr).1
  simp only [rrHead, size_push, length_putU16, length_putU32]
  omega

/-- The record as if RDLENGTH had been known when it was written. -/
theorem rr_written (hw : WriterOk w) (hr : RRWf r) :
    ∃ v : UInt16, w.rr r = ((rrHead w r).push (putU16 v)).rdata r.rdata ∧
      (w.rr r).size = (rrHead w r).size + 2 + v.toNat := by
  obtain ⟨v, heq, hsize⟩ := withLength_eq (appends_rdata r.rdata) (rrHead w r)
  rw [rr_eq]
  refine ⟨v, heq, hsize ?_⟩
  have hle := size_rdata_le ((rrHead_ok hw hr.name).push (putU16 v)) hr.rdata.names
  have hmax := hr.rdata.length
  rw [size_push, length_putU16] at hle
  rw [heq]
  omega

theorem rr_ok (hw : WriterOk w) (hr : RRWf r) : WriterOk (w.rr r) := by
  obtain ⟨v, heq, -⟩ := rr_written hw hr
  rw [heq]
  exact rdata_ok ((rrHead_ok hw hr.name).push _) hr.rdata.names

theorem size_rr (hw : WriterOk w) (hr : RRWf r) : w.size + 11 ≤ (w.rr r).size := by
  obtain ⟨v, -, hsize⟩ := rr_written hw hr
  have := size_rrHead hw hr.name
  omega

theorem clearTopBit_eq {ttl : UInt32} (h : ttl.toNat < 2 ^ 31) : clearTopBit ttl = ttl := by
  have hzero : ttl &&& 0x80000000 = 0 := by
    apply UInt32.toNat_inj.mp
    rw [UInt32.toNat_and, show (0x80000000 : UInt32).toNat = 2 ^ 31 from rfl, Nat.and_two_pow,
      Nat.testBit_lt_two_pow h]
    rfl
  unfold clearTopBit
  rw [if_neg (by simp [hzero])]

/-- **A written record is read back**, and the reader stops at its end. -/
theorem readRecord_written {isAdditional : Bool} {edns : Option EdnsInfo} (hw : WriterOk w)
    (hr : RRWf r) (h : Holds msg (w.rr r)) :
    ∃ r', readRecord msg isAdditional w.size edns = .ok ((w.rr r).size, some r', edns) ∧
      (r' == r) = true := by
  have hname := (name_written hw hr.name).1
  have hhead := rrHead_ok hw hr.name
  have hmsg : (w.rr r).size ≤ msg.length := by
    refine Above.length_le h ?_
    have := hw.header
    have := size_rr hw hr
    simp only [Writer.size] at *
    omega
  obtain ⟨v, heq, hsize⟩ := rr_written hw hr
  rw [heq] at h hmsg hsize ⊢
  -- the fields before RDATA
  have hlen := h.of_appends (appends_rdata r.rdata)
  have h10 := Holds.at_push hlen hhead
  have h4 := Holds.at_push hlen.of_push ((hname.push _).push _)
  have h2 := hlen.of_push.of_push.at_push (hname.push _)
  have h0 := hlen.of_push.of_push.of_push.at_push hname
  obtain ⟨n, hread, hlabels⟩ := readName_written hw hr.name hlen.of_push.of_push.of_push.of_push
  have hpos : (rrHead w r).size = (w.name r.name).size + 8 := by
    simp [rrHead, size_push]
  simp only [size_push, length_putU16] at h2 h4
  rw [hpos] at h10 hsize
  obtain ⟨d, hd, hbeq⟩ := readRdata_written (hhead.push (putU16 v)) hr.rdata h hmsg
    (by rw [size_push, hsize, hpos]; rfl)
  have hk : kRRFixedSize = 8 + 2 := rfl
  rw [size_push, length_putU16, hpos, Nat.add_assoc, ← hk] at hd
  refine ⟨⟨n, r.type, r.cls, r.ttl, d, .additional⟩, ?_, ?_⟩
  · unfold readRecord
    rw [hread]
    simp only [Bind.bind, Except.bind]
    rw [sizeSub_of_le (by omega), if_neg (by omega), loadU16_of_at h0, loadU16_of_at h2,
      loadU32_of_at h4, loadU16_of_at h10]
    dsimp only
    rw [sizeSub_of_le (by omega), if_neg (by omega), if_neg hr.notOpt, hd, hsize,
      clearTopBit_eq hr.ttl, Nat.add_assoc _ 8 2, ← hk]
  · rw [RR.beq_iff]
    exact ⟨hlabels, rfl, rfl, rfl, hbeq⟩

end Record

end DNSentinel.Wire.RecordCode
