import DNSentinel.Lib.Outcome
import DNSentinel.Wire.Parser
import DNSentinel.Wire.WellFormed

/-! # The parser is total and its messages are well formed

Every reader is shown to end with a `ParseError` or with a value satisfying a postcondition
(`Reads`): no read leaves the buffer and no loop outruns its bound. The position a reader returns is
at most the length of the buffer, which is what makes the next reader's subtraction of `size_t` exact.

The loop of `read_name` is the only one whose bound is not the input's length: a label makes
`wire_len` grow by at least two and a jump makes `jumps` grow, so `wire_len + jumps` counts the turns
(`readNameLoop_reads`). -/

namespace DNSentinel.Wire.ParserSound

open DNSentinel.Types ByteIo Edns Wire.Parser WellFormed Lib.Outcome

/-- The errors of the source, as opposed to the faults of the model. -/
def IsParseError (h : Halt) : Prop := ∃ e, h = .fail e

/-- A reader ends with a `ParseError` or with a value satisfying `P`. -/
abbrev Reads {α : Type} (P : α → Prop) (r : Result α) : Prop := Ends IsParseError P r

theorem reads_fail {α : Type} {P : α → Prop} (e : ParseError) : Reads P (fail e : Result α) :=
  ends_error ⟨e, rfl⟩

variable {msg : List UInt8}

theorem reads_byteAt {off : ℕ} (h : off < msg.length) :
    Reads (fun b => msg[off]? = some b) (byteAt msg off) := by
  obtain ⟨b, hb, hr⟩ := byteAt_of_lt h
  exact ends_of_eq_ok hr hb

theorem reads_loadU16 {off : ℕ} (h : off + 2 ≤ msg.length) :
    Reads (fun _ => True) (loadU16 msg off) := by
  obtain ⟨v, hv⟩ := loadU16_of_le h
  exact ends_of_eq_ok hv trivial

theorem reads_loadU32 {off : ℕ} (h : off + 4 ≤ msg.length) :
    Reads (fun _ => True) (loadU32 msg off) := by
  obtain ⟨v, hv⟩ := loadU32_of_le h
  exact ends_of_eq_ok hv trivial

theorem reads_slice {off n : ℕ} (h : off + n ≤ msg.length) :
    Reads (fun s => s.length = n) (slice msg off n) :=
  ends_of_eq_ok (slice_of_le h) (length_slice (slice_of_le h)).1

/-! ### Names -/

/-- A length byte without the two top bits is at most 63. -/
theorem toNat_le_of_and_eq_zero (b : UInt8) (h : b &&& 0xC0 = 0x00) : b.toNat ≤ 63 := by
  have key : ∀ n : Fin 256, UInt8.ofFin n &&& 0xC0 = 0x00 → n.val ≤ 63 := by decide +kernel
  exact key b.toFin h

/-- What holds of the locals of `read_name` at the head of its loop. -/
structure NameInv (msg : List UInt8) (s : NameState) : Prop where
  wf : NameWf s.name
  wireLen : s.wireLen = s.name.wireLength
  jumps : s.jumps ≤ kMaxPointerJumps
  pos : s.jumped = true → s.pos ≤ msg.length

/-- **The loop of `read_name`** ends within a number of turns that depends on no input. -/
theorem readNameLoop_reads : ∀ (fuel : ℕ) (s : NameState), NameInv msg s →
    kMaxNameWireLength + kMaxPointerJumps + 1 < fuel + s.wireLen + s.jumps →
    Reads (fun r : Name × ℕ => NameWf r.1 ∧ r.2 ≤ msg.length) (readNameLoop msg fuel s)
  | 0, s, hi, hf => by
    have h1 := hi.wf.wire
    have h2 := hi.jumps
    have h3 := hi.wireLen
    omega
  | fuel + 1, s, hi, hf => by
    unfold readNameLoop
    refine ends_ite (fun _ => reads_fail _) fun hcur => ?_
    have hlt : s.cur < msg.length := by omega
    refine (reads_byteAt hlt).bind fun len _ => ?_
    refine ends_ite (fun hlab => ?_) fun _ => ends_ite (fun _ => ?_) fun _ => reads_fail _
    · refine ends_ite (fun _ => ends_ok ⟨hi.wf, ?_⟩) fun hne => ?_
      · dsimp only
        split_ifs with hj
        · exact hi.pos hj
        · omega
      · refine ends_ite (fun _ => reads_fail _) fun hroom =>
          ends_ite (fun _ => reads_fail _) fun hlong => ?_
        rw [sizeSub_of_le hlt.le, sizeSub_of_le (by omega)] at hroom
        have hpos : 1 ≤ len.toNat := by
          rcases Nat.eq_zero_or_pos len.toNat with h0 | h0
          · exact absurd (UInt8.toNat_inj.mp h0) hne
          · exact h0
        refine (reads_slice (by omega)).bind fun raw hraw => ?_
        have hw := hi.wireLen
        refine readNameLoop_reads fuel _ ⟨?_, ?_, hi.jumps, hi.pos⟩ ?_
        · refine hi.wf.appendLabel (by omega) ?_ (by omega)
          rw [hraw]
          exact toNat_le_of_and_eq_zero len hlab
        · dsimp only
          rw [wireLength_appendLabel, hw, hraw]
        · dsimp only; omega
    · refine ends_ite (fun _ => reads_fail _) fun htwo => ?_
      rw [sizeSub_of_le hlt.le] at htwo
      refine (reads_loadU16 (by omega)).bind fun word _ => ?_
      refine ends_ite (fun _ => reads_fail _) fun hjump => ?_
      refine readNameLoop_reads fuel _ ⟨hi.wf, hi.wireLen, ?_, ?_⟩ ?_
      · dsimp only; omega
      · intro _
        dsimp only
        split_ifs with hj
        · exact hi.pos hj
        · omega
      · dsimp only; omega

theorem readName_reads (pos : ℕ) :
    Reads (fun r : Name × ℕ => NameWf r.1 ∧ r.2 ≤ msg.length) (readName msg pos) := by
  refine readNameLoop_reads _ _ ⟨nameWf_root, rfl, Nat.zero_le _, fun h => by cases h⟩ ?_
  simp [nameFuel]

theorem readQuestion_reads (pos : ℕ) :
    Reads (fun r : Question × ℕ => NameWf r.1.qname ∧ r.2 ≤ msg.length) (readQuestion msg pos) := by
  refine (readName_reads pos).bind ?_
  rintro ⟨n, p⟩ ⟨hn, hp⟩
  refine ends_ite (fun _ => reads_fail _) fun h4 => ?_
  rw [sizeSub_of_le hp] at h4
  refine (reads_loadU16 (by omega)).bind fun _ _ => (reads_loadU16 (by omega)).bind fun _ _ => ?_
  exact ends_ok ⟨hn, by dsimp only; omega⟩

/-! ### Record data -/

/-- **The loop over character-strings**: each string fits its length byte, and together with their
length bytes they are no longer than the RDATA. -/
theorem txtLoop_reads {rdata : List UInt8} : ∀ (fuel p : ℕ) (strings : List (List UInt8)),
    p ≤ rdata.length → rdata.length < fuel + p → (∀ s ∈ strings, s.length ≤ 255) →
    (strings.map fun s => 1 + s.length).sum = p →
    Reads (fun r : List (List UInt8) => (∀ s ∈ r, s.length ≤ 255) ∧
      (r.map fun s => 1 + s.length).sum ≤ rdata.length) (txtLoop rdata fuel p strings)
  | 0, p, strings, hp, hf, _, _ => by omega
  | fuel + 1, p, strings, hp, hf, hs, hsum => by
    unfold txtLoop
    refine ends_ite (fun hlt => ?_) fun _ => ends_ok ⟨hs, by omega⟩
    refine (reads_byteAt hlt).bind fun n _ => ?_
    refine ends_ite (fun _ => reads_fail _) fun hroom => ?_
    rw [sizeSub_of_le (by omega)] at hroom
    have hn := n.toNat_lt
    refine (reads_slice (by omega)).bind fun s hlen => ?_
    refine txtLoop_reads fuel _ _ (by omega) (by omega) ?_ ?_
    · intro t ht
      rcases List.mem_append.mp ht with ht | ht
      · exact hs t ht
      · rw [List.mem_singleton.mp ht, hlen]; omega
    · simp [hsum, hlen]; omega

theorem nameRdata_reads {pos stop : ℕ} {mk : Name → RData} {P : RData → Prop}
    (hmk : ∀ n, NameWf n → P (mk n)) : Reads P (nameRdata msg pos stop mk) := by
  refine (readName_reads pos).bind ?_
  rintro ⟨n, p⟩ ⟨hn, -⟩
  exact ends_ite (fun _ => reads_fail _) fun _ => ends_ok (hmk n hn)

theorem readMx_reads {pos stop : ℕ} {P : RData → Prop} (hpos : pos + 2 ≤ msg.length)
    (hmk : ∀ p n, NameWf n → P (.mx p n)) : Reads P (readMx msg pos stop) := by
  refine (reads_loadU16 hpos).bind fun pref _ => (readName_reads _).bind ?_
  rintro ⟨n, p⟩ ⟨hn, -⟩
  exact ends_ite (fun _ => reads_fail _) fun _ => ends_ok (hmk pref n hn)

theorem readSoa_reads {pos stop : ℕ} {P : RData → Prop} (hstop : stop ≤ msg.length)
    (hmk : ∀ m r s f t e i, NameWf m → NameWf r → P (.soa m r s f t e i)) :
    Reads P (readSoa msg pos stop) := by
  refine (readName_reads pos).bind ?_
  rintro ⟨m, p⟩ ⟨hm, -⟩
  refine (readName_reads p).bind ?_
  rintro ⟨r, p⟩ ⟨hr, -⟩
  refine ends_ite (fun _ => reads_fail _) fun h => ?_
  obtain ⟨hle, h20⟩ := not_or.mp h
  rw [sizeSub_of_le (by omega)] at h20
  refine (reads_loadU32 (by omega)).bind fun s _ => (reads_loadU32 (by omega)).bind fun f _ => ?_
  refine (reads_loadU32 (by omega)).bind fun t _ => (reads_loadU32 (by omega)).bind fun e _ => ?_
  exact (reads_loadU32 (by omega)).bind fun i _ => ends_ok (hmk m r s f t e i hm hr)

/-- **RDATA**: each of the nine branches yields the alternative that goes with type and class. -/
theorem readRdata_reads {pos : ℕ} {rdlen : UInt16} (type : RRType) (cls : UInt16)
    (h : pos + rdlen.toNat ≤ msg.length) :
    Reads (RdataWf type cls) (readRdata msg pos rdlen type cls) := by
  have h16 := rdlen.toNat_lt
  have name : ∀ {d : RData} {n : Name}, OfType type cls d → rdataNames d = [n] →
      rdataLength d ≤ n.wireLength + 2 → TxtWf d → NameWf n → RdataWf type cls d := by
    intro d n ho hns hl ht hn
    have := hn.wire
    refine ⟨ho, by rw [hns]; simpa using hn, ht, ?_⟩
    unfold kMaxNameWireLength at this
    omega
  refine (reads_slice h).bind fun rdata hlen => ?_
  refine ends_ite (fun hA => ?_) fun hA => ends_ite (fun hB => ?_) fun hB => ?_
  · refine ends_ite (fun _ => reads_fail _) fun h4 => ?_
    have : rdlen = 4 := not_not.mp h4
    subst this
    refine (reads_loadU32 (by rw [hlen]; decide)).bind fun addr _ => ?_
    exact ends_ok ⟨hA, by simp [rdataNames], trivial, by simp [rdataLength]⟩
  · refine ends_ite (fun _ => reads_fail _) fun h4 => ?_
    have : rdlen = 16 := not_not.mp h4
    subst this
    unfold aaaaOf
    rw [dif_pos (by rw [hlen]; rfl)]
    exact ends_ok ⟨hB, by simp [rdataNames], trivial, by simp [rdataLength]⟩
  refine ends_ite (fun ht => nameRdata_reads fun n => name ht rfl (by simp [rdataLength]) trivial)
    fun hNS => ?_
  refine ends_ite (fun ht => nameRdata_reads fun n => name ht rfl (by simp [rdataLength]) trivial)
    fun hCN => ?_
  refine ends_ite (fun ht => nameRdata_reads fun n => name ht rfl (by simp [rdataLength]) trivial)
    fun hPT => ?_
  refine ends_ite (fun ht => ?_) fun hMX => ?_
  · refine ends_ite (fun _ => reads_fail _) fun h2 => ?_
    have : ¬ rdlen.toNat < 2 := h2
    exact readMx_reads (by omega) fun p n =>
      name (n := n) ht rfl (by simp [rdataLength]; omega) trivial
  refine ends_ite (fun ht => ?_) fun hSO => ?_
  · refine readSoa_reads h fun m r _ _ _ _ _ hm hr => ⟨ht, ?_, trivial, ?_⟩
    · intro n hn
      simp only [rdataNames, List.mem_cons, List.not_mem_nil, or_false] at hn
      rcases hn with rfl | rfl
      · exact hm
      · exact hr
    · have h1 := hm.wire
      have h2 := hr.wire
      unfold kMaxNameWireLength at h1 h2
      simp only [rdataLength]
      omega
  refine ends_ite (fun ht => ?_) fun hTX => ?_
  · refine (txtLoop_reads _ 0 [] (Nat.zero_le _) (by omega) (by simp) rfl).bind fun ss hss => ?_
    exact ends_ok ⟨ht, by simp [rdataNames], hss.1, by simp only [rdataLength]; omega⟩
  · exact ends_ok ⟨⟨hA, hB, hNS, hCN, hPT, hMX, hSO, hTX⟩, by simp [rdataNames], trivial,
      by simp only [rdataLength]; omega⟩

/-! ### Records and sections -/

theorem parseOptLoop_reads {rdata : List UInt8} : ∀ (fuel pos : ℕ), pos ≤ rdata.length →
    rdata.length < fuel + pos → Reads (fun _ => True) (parseOptLoop rdata fuel pos)
  | 0, pos, hp, hf => by omega
  | fuel + 1, pos, hp, hf => by
    unfold parseOptLoop
    refine ends_ite (fun hlt => ?_) fun _ => ends_ok trivial
    refine ends_ite (fun _ => reads_fail _) fun h4 => ?_
    rw [sizeSub_of_le hp] at h4
    refine (reads_loadU16 (by omega)).bind fun len _ => ?_
    refine ends_ite (fun _ => reads_fail _) fun hroom => ?_
    rw [sizeSub_of_le (by omega)] at hroom
    exact parseOptLoop_reads fuel _ (by omega) (by omega)

theorem parseOpt_reads (cls : UInt16) (ttl : UInt32) (rdata : List UInt8) :
    Reads (fun _ => True) (parseOpt cls ttl rdata) :=
  (parseOptLoop_reads _ 0 (Nat.zero_le _) (by omega)).bind fun _ _ => ends_ok trivial

theorem clearTopBit_lt (ttl : UInt32) : (clearTopBit ttl).toNat < 2 ^ 31 := by
  unfold clearTopBit
  split_ifs with h
  · decide
  · have hlt := ttl.toNat_lt
    have h0 : ttl.toNat &&& 2 ^ 31 = 0 := by
      have := congrArg UInt32.toNat (not_not.mp h)
      simpa using this
    rw [Nat.and_two_pow] at h0
    have hbit : ttl.toNat.testBit 31 = false := by
      cases hb : ttl.toNat.testBit 31 with
      | false => rfl
      | true => rw [hb] at h0; simp at h0
    rw [Nat.testBit_eq_decide_div_mod_eq, decide_eq_false_iff_not] at hbit
    omega

/-- What one turn of the loop of `read_section` yields: a well-formed record or the OPT record. -/
structure RecordOk (msg : List UInt8) (isAdditional : Bool) (edns : Option EdnsInfo)
    (r : ℕ × Option RR × Option EdnsInfo) : Prop where
  pos : r.1 ≤ msg.length
  wf : ∀ rr ∈ r.2.1, RRWf rr
  count : r.2.1.toList.length + r.2.2.toList.length = 1 + edns.toList.length
  edns : isAdditional = false → r.2.2 = edns

theorem readRecord_reads (isAdditional : Bool) (pos : ℕ) (edns : Option EdnsInfo) :
    Reads (RecordOk msg isAdditional edns) (readRecord msg isAdditional pos edns) := by
  refine (readName_reads pos).bind ?_
  rintro ⟨owner, p⟩ ⟨hn, hp⟩
  refine ends_ite (fun _ => reads_fail _) fun h10 => ?_
  rw [sizeSub_of_le hp] at h10
  simp only [kRRFixedSize] at h10 ⊢
  refine (reads_loadU16 (by omega)).bind fun type _ => (reads_loadU16 (by omega)).bind fun cls _ => ?_
  refine (reads_loadU32 (by omega)).bind fun ttl _ => (reads_loadU16 (by omega)).bind fun len _ => ?_
  refine ends_ite (fun _ => reads_fail _) fun hroom => ?_
  rw [sizeSub_of_le (by omega)] at hroom
  refine ends_ite (fun hopt => ends_ite (fun _ => reads_fail _) fun hguard => ?_) fun hopt => ?_
  · simp only [Bool.or_eq_true, Bool.not_eq_true', not_or, Bool.not_eq_false,
      Bool.not_eq_true] at hguard
    refine (reads_slice (by omega)).bind fun rdata _ => (parseOpt_reads cls ttl rdata).bind fun i _ => ?_
    refine ends_ok ⟨by dsimp only; omega, by simp, ?_, fun h => ?_⟩
    · have hnone : edns = none := by simpa using hguard.1.2
      simp [hnone]
    · rw [hguard.1.1] at h
      cases h
  · refine (readRdata_reads type cls (by omega)).bind fun d hd => ?_
    refine ends_ok ⟨by dsimp only; omega, ?_, by simp, fun _ => rfl⟩
    intro rr hrr
    cases Option.mem_some_iff.mp hrr
    exact ⟨hn, hopt, clearTopBit_lt ttl, hd⟩

/-- **A section**: as many records as announced, the OPT record apart. -/
theorem readSection_reads (isAdditional : Bool) : ∀ (count pos : ℕ) (out : List RR)
    (edns : Option EdnsInfo), pos ≤ msg.length → (∀ rr ∈ out, RRWf rr) →
    Reads (fun r : ℕ × List RR × Option EdnsInfo => r.1 ≤ msg.length ∧ (∀ rr ∈ r.2.1, RRWf rr) ∧
        r.2.1.length + r.2.2.toList.length = count + out.length + edns.toList.length ∧
        (isAdditional = false → r.2.2 = edns))
      (readSection msg isAdditional count pos out edns)
  | 0, pos, out, edns, hp, ho => ends_ok ⟨hp, ho, by simp, fun _ => rfl⟩
  | count + 1, pos, out, edns, hp, ho => by
    unfold readSection
    refine (readRecord_reads isAdditional pos edns).bind ?_
    rintro ⟨p, rr, e⟩ hr
    have hcount := hr.count
    have hmem : ∀ x ∈ out ++ rr.toList, RRWf x := by
      intro x hx
      rcases List.mem_append.mp hx with hx | hx
      · exact ho x hx
      · exact hr.wf x (by simpa using hx)
    refine (readSection_reads isAdditional count p _ e hr.pos hmem).mono ?_
    rintro ⟨p', rrs, e'⟩ ⟨h1, h2, h3, h4⟩
    refine ⟨h1, h2, ?_, fun hf => (h4 hf).trans (hr.edns hf)⟩
    simp only [List.length_append] at h3 hcount ⊢
    omega

theorem readQuestions_reads : ∀ (count pos : ℕ) (out : List Question), pos ≤ msg.length →
    (∀ q ∈ out, NameWf q.qname) →
    Reads (fun r : ℕ × List Question => r.1 ≤ msg.length ∧ (∀ q ∈ r.2, NameWf q.qname) ∧
      r.2.length = count + out.length) (readQuestions msg count pos out)
  | 0, pos, out, hp, ho => ends_ok ⟨hp, ho, by simp⟩
  | count + 1, pos, out, hp, ho => by
    unfold readQuestions
    refine (readQuestion_reads pos).bind ?_
    rintro ⟨q, p⟩ ⟨hq, hp'⟩
    have hmem : ∀ x ∈ out ++ [q], NameWf x.qname := by
      intro x hx
      rcases List.mem_append.mp hx with hx | hx
      · exact ho x hx
      · rw [List.mem_singleton.mp hx]; exact hq
    refine (readQuestions_reads count p _ hp' hmem).mono ?_
    rintro ⟨p', qs⟩ ⟨h1, h2, h3⟩
    refine ⟨h1, h2, ?_⟩
    simp only [List.length_append, List.length_singleton] at h3 ⊢
    omega

/-! ### Messages -/

theorem and_fifteen_lt (b : UInt8) : b &&& 0x0F < 16 := by
  rw [UInt8.lt_iff_toNat_lt, UInt8.toNat_and]
  exact lt_of_le_of_lt Nat.and_le_right (by decide)

theorem parseHeader_reads (data : List UInt8) :
    Reads (fun h : Header => kHeaderSize ≤ data.length ∧ h.opcode < 16 ∧ h.rcode < 16)
      (parseHeader data) := by
  unfold parseHeader kHeaderSize
  refine ends_ite (fun _ => reads_fail _) fun h12 => ?_
  refine (reads_byteAt (by omega)).bind fun b2 _ => (reads_byteAt (by omega)).bind fun b3 _ => ?_
  refine (reads_loadU16 (by omega)).bind fun _ _ => (reads_loadU16 (by omega)).bind fun _ _ => ?_
  refine (reads_loadU16 (by omega)).bind fun _ _ => (reads_loadU16 (by omega)).bind fun _ _ => ?_
  refine (reads_loadU16 (by omega)).bind fun _ _ => ends_ok ⟨by omega, ?_, ?_⟩
  · exact and_fifteen_lt _
  · exact and_fifteen_lt _

/-- The section sizes are those the header announces; the OPT record counts as additional. -/
structure CountsOk (m : Message) : Prop where
  questions : m.questions.length = m.header.qdcount.toNat
  answers : m.answers.length = m.header.ancount.toNat
  authority : m.authority.length = m.header.nscount.toNat
  additional : m.additional.length + m.edns.toList.length = m.header.arcount.toNat

theorem parse_reads (x : List UInt8) :
    Reads (fun m => MessageWf m ∧ CountsOk m) (parse x) := by
  refine (parseHeader_reads x).bind fun h hh => ends_ite (fun _ => reads_fail _) fun _ => ?_
  refine (readQuestions_reads _ _ [] hh.1 (by simp)).bind ?_
  rintro ⟨p1, qs⟩ ⟨hp1, hqs, hql⟩
  refine (readSection_reads false _ p1 [] none hp1 (by simp)).bind ?_
  rintro ⟨p2, an, e2⟩ ⟨hp2, han, hanl, he2⟩
  cases he2 rfl
  refine (readSection_reads false _ p2 [] none hp2 (by simp)).bind ?_
  rintro ⟨p3, ns, e3⟩ ⟨hp3, hns, hnsl, he3⟩
  cases he3 rfl
  refine (readSection_reads true _ p3 [] none hp3 (by simp)).bind ?_
  rintro ⟨p4, ar, e4⟩ ⟨hp4, har, harl, -⟩
  simp only [Option.toList_none, List.length_nil, Nat.add_zero] at hql hanl hnsl harl
  exact ends_ok ⟨⟨hh.2.1, hh.2.2, hqs, han, hns, har⟩, ⟨hql, hanl, hnsl, harl⟩⟩

/-- **Totality and well-formedness.** On every byte string `parse` returns, without a read outside
of the buffer: either one of its errors, or a well-formed message with the announced section sizes. -/
theorem parse_total (x : List UInt8) :
    (∃ e, parse x = .error (.fail e)) ∨ ∃ m, parse x = .ok m ∧ MessageWf m ∧ CountsOk m := by
  have h := parse_reads x
  cases hp : parse x with
  | error e =>
    rw [hp] at h
    obtain ⟨e', rfl⟩ := h
    exact Or.inl ⟨e', rfl⟩
  | ok m =>
    rw [hp] at h
    exact Or.inr ⟨m, rfl, h⟩

end DNSentinel.Wire.ParserSound
