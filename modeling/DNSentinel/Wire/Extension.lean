import DNSentinel.Wire.ParserSound

/-! # Bytes that follow

A packet that is followed by more bytes is parsed as before, unless it was found too short or its counts
were found too large. A reader depends on more than the bytes it passes over: a name that is entered
through a pointer runs on over later records. But each look at the packet comes after a check that the
bytes are there, and no other check depends on the length of the packet, so every reader settles what
the same reader does to the longer packet (`Settled`). -/

namespace DNSentinel.Wire.Extension

open DNSentinel.Types Lib.Outcome ByteIo Edns Wire.Parser ParserSound

/-- More bytes can make a difference. -/
def Undecided (h : Halt) : Prop :=
  h = .fail .bufferTooShort ∨ h = .fail .sectionOverflow ∨ h = .outOfBounds

variable {msg : List UInt8} (rest : List UInt8)

theorem undecided_short : Undecided (.fail .bufferTooShort) := .inl rfl

theorem undecided_outOfBounds : Undecided .outOfBounds := .inr (.inr rfl)

/-- The check for `n` bytes at `pos`. -/
theorem sizeSub_append {pos n : ℕ} (hpos : pos ≤ msg.length)
    (h : sizeSub (msg ++ rest).length pos < n) : sizeSub msg.length pos < n := by
  rw [List.length_append, sizeSub_of_le (by omega)] at h
  rw [sizeSub_of_le hpos]
  omega

/-! ### Bytes -/

theorem settled_byteAt (msg : List UInt8) (off : ℕ) :
    Settled Undecided (byteAt msg off) (byteAt (msg ++ rest) off) := by
  unfold byteAt
  by_cases h : off < msg.length
  · rw [List.getElem?_append_left h]
    exact .refl _
  · rw [List.getElem?_eq_none (by omega)]
    exact settled_error undecided_outOfBounds _

theorem settled_loadU16 (msg : List UInt8) (off : ℕ) :
    Settled Undecided (loadU16 msg off) (loadU16 (msg ++ rest) off) := by
  unfold loadU16
  by_cases h : off + 1 < msg.length
  · rw [List.getElem?_append_left (by omega), List.getElem?_append_left h]
    exact .refl _
  · rw [List.getElem?_eq_none (l := msg) (i := off + 1) (by omega)]
    cases msg[off]? <;> exact settled_error undecided_outOfBounds _

theorem settled_loadU32 (msg : List UInt8) (off : ℕ) :
    Settled Undecided (loadU32 msg off) (loadU32 (msg ++ rest) off) := by
  unfold loadU32
  by_cases h : off + 3 < msg.length
  · rw [List.getElem?_append_left (by omega), List.getElem?_append_left (by omega),
      List.getElem?_append_left (by omega), List.getElem?_append_left h]
    exact .refl _
  · rw [List.getElem?_eq_none (l := msg) (i := off + 3) (by omega)]
    cases msg[off]? <;> cases msg[off + 1]? <;> cases msg[off + 2]? <;>
      exact settled_error undecided_outOfBounds _

theorem settled_slice (msg : List UInt8) (off n : ℕ) :
    Settled Undecided (slice msg off n) (slice (msg ++ rest) off n) := by
  unfold slice
  by_cases h : off + n ≤ msg.length
  · have htake : ((msg ++ rest).drop off).take n = (msg.drop off).take n := by
      rw [List.drop_append_of_le_length (by omega), List.take_append_of_le_length]
      rw [List.length_drop]
      omega
    rw [if_pos h, if_pos (by rw [List.length_append]; omega), htake]
    exact .refl _
  · rw [if_neg h]
    exact settled_error undecided_outOfBounds _

/-! ### Names and questions -/

theorem settled_readNameLoop (msg : List UInt8) : ∀ (fuel : ℕ) (s : NameState),
    Settled Undecided (readNameLoop msg fuel s) (readNameLoop (msg ++ rest) fuel s)
  | 0, _ => .refl _
  | fuel + 1, s => by
    unfold readNameLoop
    refine settled_check undecided_short (fun h => ?_) fun hcur => ?_
    · rw [List.length_append] at h
      omega
    refine (settled_byteAt rest msg _).bind fun len _ => ?_
    refine settled_ite (fun _ => ?_) fun _ => ?_
    · refine settled_ite (fun _ => .refl _) fun _ => ?_
      refine settled_check undecided_short (fun h => ?_) fun _ => ?_
      · rw [List.length_append, sizeSub_of_le (a := msg.length + _) (by omega),
          sizeSub_of_le (by omega)] at h
        rw [sizeSub_of_le (a := msg.length) (by omega), sizeSub_of_le (by omega)]
        omega
      refine settled_ite (fun _ => .refl _) fun _ => ?_
      exact (settled_slice rest msg _ _).bind fun raw _ => settled_readNameLoop msg fuel _
    · refine settled_ite (fun _ => ?_) fun _ => .refl _
      refine settled_check undecided_short (sizeSub_append rest (by omega)) fun _ => ?_
      refine (settled_loadU16 rest msg _).bind fun word _ => ?_
      exact settled_ite (fun _ => .refl _) fun _ => settled_readNameLoop msg fuel _

theorem settled_readName (msg : List UInt8) (pos : ℕ) :
    Settled Undecided (readName msg pos) (readName (msg ++ rest) pos) :=
  settled_readNameLoop rest msg _ _

theorem settled_readQuestion (msg : List UInt8) (pos : ℕ) :
    Settled Undecided (readQuestion msg pos) (readQuestion (msg ++ rest) pos) := by
  refine (settled_readName rest msg pos).bind ?_
  rintro ⟨qname, pos'⟩ hname
  have hpos := ((readName_reads pos).of_eq hname).2
  refine settled_check undecided_short (sizeSub_append rest hpos) fun _ => ?_
  exact (settled_loadU16 rest msg _).bind fun _ _ => (settled_loadU16 rest msg _).bind fun _ _ => .refl _

theorem settled_readQuestions (msg : List UInt8) : ∀ (count pos : ℕ) (out : List Question),
    Settled Undecided (readQuestions msg count pos out) (readQuestions (msg ++ rest) count pos out)
  | 0, _, _ => .refl _
  | count + 1, pos, _ =>
    (settled_readQuestion rest msg pos).bind fun _ _ => settled_readQuestions msg count _ _

/-! ### Records -/

theorem settled_nameRdata (msg : List UInt8) (pos stop : ℕ) (mk : Name → RData) :
    Settled Undecided (nameRdata msg pos stop mk) (nameRdata (msg ++ rest) pos stop mk) :=
  (settled_readName rest msg pos).bind fun _ _ => .refl _

theorem settled_readMx (msg : List UInt8) (pos stop : ℕ) :
    Settled Undecided (readMx msg pos stop) (readMx (msg ++ rest) pos stop) :=
  (settled_loadU16 rest msg pos).bind fun _ _ => (settled_readName rest msg _).bind fun _ _ => .refl _

theorem settled_readSoa (msg : List UInt8) (pos stop : ℕ) :
    Settled Undecided (readSoa msg pos stop) (readSoa (msg ++ rest) pos stop) := by
  refine (settled_readName rest msg pos).bind fun _ _ => (settled_readName rest msg _).bind fun _ _ => ?_
  refine settled_ite (fun _ => .refl _) fun _ => ?_
  refine (settled_loadU32 rest msg _).bind fun _ _ => (settled_loadU32 rest msg _).bind fun _ _ => ?_
  refine (settled_loadU32 rest msg _).bind fun _ _ => (settled_loadU32 rest msg _).bind fun _ _ => ?_
  exact (settled_loadU32 rest msg _).bind fun _ _ => .refl _

theorem settled_readRdata (msg : List UInt8) (pos : ℕ) (rdlen : UInt16) (type : RRType) (cls : UInt16) :
    Settled Undecided (readRdata msg pos rdlen type cls) (readRdata (msg ++ rest) pos rdlen type cls) := by
  have hname := settled_nameRdata rest msg pos (pos + rdlen.toNat)
  refine (settled_slice rest msg _ _).bind fun rdata _ => ?_
  refine settled_ite (fun _ => .refl _) fun _ => settled_ite (fun _ => .refl _) fun _ => ?_
  refine settled_ite (fun _ => hname _) fun _ => settled_ite (fun _ => hname _) fun _ => ?_
  refine settled_ite (fun _ => hname _) fun _ => settled_ite (fun _ => ?_) fun _ => ?_
  · exact settled_ite (fun _ => .refl _) fun _ => settled_readMx rest msg _ _
  · exact settled_ite (fun _ => settled_readSoa rest msg _ _) fun _ => .refl _

theorem settled_readRecord (msg : List UInt8) (isAdditional : Bool) (pos : ℕ) (edns : Option EdnsInfo) :
    Settled Undecided (readRecord msg isAdditional pos edns)
      (readRecord (msg ++ rest) isAdditional pos edns) := by
  refine (settled_readName rest msg pos).bind ?_
  rintro ⟨owner, pos'⟩ hname
  have hpos := ((readName_reads pos).of_eq hname).2
  refine settled_check undecided_short (sizeSub_append rest hpos) fun hfixed => ?_
  rw [sizeSub_of_le hpos] at hfixed
  refine (settled_loadU16 rest msg _).bind fun type _ => (settled_loadU16 rest msg _).bind fun cls _ => ?_
  refine (settled_loadU32 rest msg _).bind fun ttl _ => (settled_loadU16 rest msg _).bind fun rdlen _ => ?_
  refine settled_check undecided_short (sizeSub_append rest (by omega)) fun _ => ?_
  refine settled_ite (fun _ => ?_) fun _ => ?_
  · refine settled_ite (fun _ => .refl _) fun _ => ?_
    exact (settled_slice rest msg _ _).bind fun _ _ => .refl _
  · exact (settled_readRdata rest msg _ _ _ _).bind fun _ _ => .refl _

theorem settled_readSection (msg : List UInt8) (isAdditional : Bool) : ∀ (count pos : ℕ) (out : List RR)
    (edns : Option EdnsInfo), Settled Undecided (readSection msg isAdditional count pos out edns)
      (readSection (msg ++ rest) isAdditional count pos out edns)
  | 0, _, _, _ => .refl _
  | count + 1, pos, _, edns =>
    (settled_readRecord rest msg isAdditional pos edns).bind fun _ _ =>
      settled_readSection msg isAdditional count _ _ _

/-! ### Messages -/

theorem settled_parseHeader (data : List UInt8) :
    Settled Undecided (parseHeader data) (parseHeader (data ++ rest)) := by
  unfold parseHeader
  refine settled_check undecided_short (fun h => ?_) fun _ => ?_
  · rw [List.length_append] at h
    omega
  refine (settled_byteAt rest data _).bind fun _ _ => (settled_byteAt rest data _).bind fun _ _ => ?_
  refine (settled_loadU16 rest data _).bind fun _ _ => (settled_loadU16 rest data _).bind fun _ _ => ?_
  refine (settled_loadU16 rest data _).bind fun _ _ => (settled_loadU16 rest data _).bind fun _ _ => ?_
  exact (settled_loadU16 rest data _).bind fun _ _ => .refl _

theorem settled_parse (data : List UInt8) :
    Settled Undecided (parse data) (parse (data ++ rest)) := by
  refine (settled_parseHeader rest data).bind fun h hheader => ?_
  have hlength := ((parseHeader_reads data).of_eq hheader).1
  refine settled_check (.inr (.inl rfl)) (sizeSub_append rest hlength) fun _ => ?_
  refine (settled_readQuestions rest data _ _ _).bind fun _ _ => ?_
  refine (settled_readSection rest data _ _ _ _ _).bind fun _ _ => ?_
  refine (settled_readSection rest data _ _ _ _ _).bind fun _ _ => ?_
  exact (settled_readSection rest data _ _ _ _ _).bind fun _ _ => .refl _

/-- A packet that is too short for its counts or for a record they announce. -/
def Short (data : List UInt8) : Prop :=
  parse data = .error (.fail .bufferTooShort) ∨ parse data = .error (.fail .sectionOverflow)

/-- **Parsing is stable under extension**: unless a packet is too short, bytes that follow do not change
what it is parsed to, and a prefix of an accepted packet is too short or parsed to the same message. -/
theorem parse_append (p t : List UInt8) (h : ¬ Short p) :
    parse (p ++ t) = parse p ∧
      ∀ p' m, p' <+: p → parse p = .ok m → parse p' = .ok m ∨ Short p' := by
  have hextends : ∀ p t, Short p ∨ parse (p ++ t) = parse p := by
    intro p t
    rcases settled_parse t p with ⟨e, he, hundecided⟩ | hsame
    · refine .inl ?_
      rcases hundecided with rfl | rfl | rfl
      · exact .inl he
      · exact .inr he
      · rcases parse_total p with ⟨e, hfail⟩ | ⟨m, hok, -⟩
        · rw [hfail] at he
          cases he
        · rw [hok] at he
          cases he
    · exact .inr hsame
  refine ⟨(hextends p t).resolve_left h, ?_⟩
  rintro p' m ⟨more, rfl⟩ hm
  rcases hextends p' more with hshort | hsame
  · exact .inr hshort
  · exact .inl (hsame.symm.trans hm)

/-- The question for the address of the root, and what follows it. -/
theorem parse_append_root :
    parse ([0, 1, 0, 0, 0, 1, 0, 0, 0, 0, 0, 0, 0, 0, 1, 0, 1] ++ [0xff]) =
      parse [0, 1, 0, 0, 0, 1, 0, 0, 0, 0, 0, 0, 0, 0, 1, 0, 1] ∧
    ∀ p' m, p' <+: [0, 1, 0, 0, 0, 1, 0, 0, 0, 0, 0, 0, 0, 0, 1, 0, 1] →
      parse [0, 1, 0, 0, 0, 1, 0, 0, 0, 0, 0, 0, 0, 0, 1, 0, 1] = .ok m →
        parse p' = .ok m ∨ Short p' := by
  refine parse_append _ _ ?_
  rintro (h | h) <;> cases h

end DNSentinel.Wire.Extension
