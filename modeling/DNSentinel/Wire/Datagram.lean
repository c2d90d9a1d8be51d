import DNSentinel.Wire.FirstQuestion

/-! # What goes into a datagram

Two facts about every message that is built, whether its names and records are well formed or not: it
is no longer than it may be, and whoever parses it finds the QR bit as it was set. -/

namespace DNSentinel.Wire.Datagram

open DNSentinel.Types Lib.Outcome ByteIo Edns Builder RoundTrip FirstQuestion
open Wire.Parser (parse parseHeader)

variable {m m' : Message} {w : Writer} {limit maxSize : ℕ} {compress : Bool}

/-! ### Sizes -/

theorem size_rollback_le (w : Writer) (mark : ℕ) : (w.rollback mark).size ≤ mark := by
  unfold Writer.rollback Writer.size
  rw [List.length_take]
  exact Nat.min_le_left _ _

/-- A question that does not fit is taken back. -/
theorem size_writeQuestions : ∀ (qs : List Question) (w : Writer) (count : UInt16),
    w.size ≤ limit → (writeQuestions limit qs w count).1.size ≤ limit
  | [], _, _, h => h
  | q :: qs, w, count, h => by
    unfold writeQuestions
    dsimp only
    split_ifs with hfull
    · exact (size_rollback_le _ _).trans h
    · exact size_writeQuestions qs _ _ (Nat.not_lt.mp hfull)

/-- An RRset that does not fit is taken back. -/
theorem size_writeSectionLoop : ∀ (fuel : ℕ) (rrs : List RR) (w : Writer) (count : UInt16),
    w.size ≤ limit → (writeSectionLoop limit fuel rrs w count).1.size ≤ limit
  | 0, _, _, _, h => h
  | _ + 1, [], _, _, h => h
  | fuel + 1, r :: rest, w, count, h => by
    unfold writeSectionLoop
    dsimp only
    split_ifs with hfull
    · exact (size_rollback_le _ _).trans h
    · exact size_writeSectionLoop fuel _ _ _ (Nat.not_lt.mp hfull)

theorem size_writeSection (rrs : List RR) (h : w.size ≤ limit) :
    (writeSection limit rrs w).1.size ≤ limit := size_writeSectionLoop _ _ _ _ h

theorem size_writeSections (m : Message) (h : w.size ≤ limit) :
    (writeSections m limit w).1.size ≤ limit := by
  have hquestions := size_writeQuestions m.questions w 0 h
  have hanswers := size_writeSection m.answers hquestions
  have hauthority := size_writeSection m.authority hanswers
  have hadditional := size_writeSection m.additional hauthority
  unfold writeSections
  dsimp only
  split_ifs
  · exact hquestions
  · exact hanswers
  · exact hauthority
  · exact hadditional

theorem length_writeHeader (out : List UInt8) (h : Header) :
    (writeHeader out h).length = out.length := by
  simp [writeHeader, storeU16]

/-- **A message is no longer than it may be.** -/
theorem length_buildMessage_le (m : Message) (h512 : 512 ≤ maxSize) (compress : Bool) :
    (buildMessage m maxSize compress).length ≤ maxSize := by
  have hopt : kOptRecordSize = 11 := rfl
  have hsections : ∀ limit, 12 ≤ limit →
      (writeSections m limit { compress, out := List.replicate kHeaderSize 0 }).1.out.length ≤ limit :=
    fun limit hlimit => size_writeSections m hlimit
  unfold buildMessage
  dsimp only
  rw [length_writeHeader]
  cases m.edns with
  | none =>
    have hsize := hsections (sizeSub maxSize 0) (by rw [sizeSub_of_le (Nat.zero_le _)]; omega)
    exact hsize.trans (by rw [sizeSub_of_le (Nat.zero_le _)]; omega)
  | some e =>
    have hsub : sizeSub maxSize kOptRecordSize = maxSize - 11 := sizeSub_of_le (by omega)
    have hsize := hsections (maxSize - 11) (by omega)
    dsimp only [Option.isSome_some, if_true, Writer.push]
    rw [if_pos rfl, hsub, List.length_append, length_writeOpt]
    omega

/-- The opcode has four bits and stays out of the way of QR. -/
theorem flagByte2_qr (h : Header) : (flagByte2 h &&& 0x80 != 0) = h.qr := by
  have hmask : flagByte2 h = flagByte2 { h with opcode := h.opcode &&& 0x0F } := by
    simp only [flagByte2, UInt8.and_assoc, UInt8.and_self]
  rw [hmask]
  exact (flagByte2_bits _ (ParserSound.and_fifteen_lt _)).1

theorem byteAt_writeHeader {out : List UInt8} (h : Header) (hlen : 12 ≤ out.length) :
    byteAt (writeHeader out h) 2 = .ok (flagByte2 h) := by
  have hin : 2 < out.length := by omega
  have hat : (writeHeader out h)[2]? = some (flagByte2 h) := by
    simp [writeHeader, storeU16, hin]
  unfold byteAt
  rw [hat]

/-- What a header that was parsed says of the message. -/
theorem parseHeader_spec {data : List UInt8} {h : Header} (hparse : parseHeader data = .ok h) :
    12 ≤ data.length ∧ ∃ b, byteAt data 2 = .ok b ∧ h.qr = (b &&& 0x80 != 0) := by
  unfold parseHeader at hparse
  split_ifs at hparse with hlen
  · cases hparse
  obtain ⟨b2, hb2, hparse⟩ := exists_of_bind_eq_ok hparse
  obtain ⟨b3, -, hparse⟩ := exists_of_bind_eq_ok hparse
  obtain ⟨id, -, hparse⟩ := exists_of_bind_eq_ok hparse
  obtain ⟨qdcount, -, hparse⟩ := exists_of_bind_eq_ok hparse
  obtain ⟨ancount, -, hparse⟩ := exists_of_bind_eq_ok hparse
  obtain ⟨nscount, -, hparse⟩ := exists_of_bind_eq_ok hparse
  obtain ⟨arcount, -, hparse⟩ := exists_of_bind_eq_ok hparse
  obtain rfl := Except.ok.inj hparse
  exact ⟨Nat.not_lt.mp hlen, b2, hb2, rfl⟩

/-- A built message is a header over something else. -/
theorem buildMessage_header (m : Message) (maxSize : ℕ) (compress : Bool) :
    ∃ out h, buildMessage m maxSize compress = writeHeader out h ∧ h.qr = m.header.qr :=
  ⟨_, _, rfl, rfl⟩

/-- **Whoever parses a message finds the QR bit as it was set.** -/
theorem qr_parse_buildMessage (h : parse (buildMessage m maxSize compress) = .ok m') :
    m'.header.qr = m.header.qr := by
  obtain ⟨hlen, b, hb, hqr⟩ := parseHeader_spec (parse_front h).1
  obtain ⟨out, header, heq, hsame⟩ := buildMessage_header m maxSize compress
  rw [heq, length_writeHeader] at hlen
  rw [heq, byteAt_writeHeader header hlen] at hb
  obtain rfl := Except.ok.inj hb
  rw [hqr, flagByte2_qr, hsame]

theorem qr_parse_build {opts : BuildOptions} (h : parse (build m opts) = .ok m') :
    m'.header.qr = m.header.qr := qr_parse_buildMessage h

end DNSentinel.Wire.Datagram
