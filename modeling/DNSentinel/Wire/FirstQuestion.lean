import DNSentinel.Wire.RoundTrip
import DNSentinel.Wire.ParserSound

/-! # The first question of a message

Names are compressed against what was written before them. Before the first question there is nothing,
and no suffix of a name is as long as another, so the first question is written without pointers, in
the letter case of its name. The parser reads it back byte for byte. -/

namespace DNSentinel.Wire.FirstQuestion

open DNSentinel.Types ByteIo Builder WellFormed NameCode RecordCode RoundTrip ParserSound Lib.Buffer
open Lib.Outcome
open Edns (writeOpt kOptRecordSize)
open Wire.Parser (readName readQuestion readQuestions readSection parseHeader minNeeded parse)

/-- The labels one after the other, and the root. -/
def nameBytes (raws : List Label) : List UInt8 := raws.flatMap labelBytes ++ [0]

/-- A question, without pointers. -/
def questionBytes (q : Question) : List UInt8 :=
  nameBytes q.qname.asWritten ++ putU16 q.qtype ++ putU16 q.qclass

variable {msg data : List UInt8} {pos : ℕ} {n : Name} {q : Question} {m : Message}

/-! ### Written -/

theorem length_asWritten (n : Name) : n.asWritten.length = n.labels.length := by
  unfold Name.asWritten
  split_ifs with h
  · exact h
  · rfl

/-- The loop finds no suffix as long as the table has longer ones only. -/
theorem nameLoop_first : ∀ (ps : List (Label × Label)) (w : Writer),
    (∀ e ∈ w.suffixes, (keyOf ps).length < e.1.length) →
      (nameLoop ps w).out = w.out ++ nameBytes (ps.map Prod.snd)
  | [], _, _ => rfl
  | (label, text) :: rest, w, h => by
    have hshorter := length_keyOf_cons (label, text) rest
    have hout : ∀ w' : Writer, w'.out = w.out ++ labelBytes text →
        (∀ e ∈ w'.suffixes, (keyOf rest).length < e.1.length) →
          (nameLoop rest w').out = w.out ++ nameBytes (((label, text) :: rest).map Prod.snd) := by
      intro w' hw' htable
      rw [nameLoop_first rest w' htable, hw']
      simp [nameBytes]
    cases hc : w.compress with
    | false =>
      rw [nameLoop_plain hc]
      exact hout _ rfl fun e he => hshorter.trans (h e he)
    | true =>
      have hmiss : w.suffixes.lookup (keyOf ((label, text) :: rest)) = none := by
        refine List.lookup_eq_none_iff.mpr fun e he => ?_
        rw [bne_iff_ne]
        intro heq
        exact absurd (h e he) (by rw [heq]; exact lt_irrefl _)
      rw [nameLoop_miss hc hmiss]
      refine hout _ rfl fun e he => ?_
      rcases List.mem_append.mp he with he | he
      · rw [(offset_newEntry he).1]
        exact hshorter
      · exact hshorter.trans (h e he)

theorem question_first {w : Writer} (h : w.suffixes = []) (q : Question) :
    (w.question q).out = w.out ++ questionBytes q := by
  have hname : (w.name q.qname).out = w.out ++ nameBytes q.qname.asWritten := by
    rw [Writer.name, nameLoop_first _ w (by simp [h]), List.map_snd_zip (length_asWritten _).le]
  simp only [Writer.question, Writer.push, hname, questionBytes, List.append_assoc]

theorem length_nameBytes (raws : List Label) : (nameBytes raws).length = labelsLength raws + 1 := by
  have hlabels : (fun raw => (labelBytes raw).length) = fun raw : Label => 1 + raw.length := by
    funext raw
    rw [labelBytes, List.length_cons]
    omega
  rw [nameBytes, List.length_append, List.length_flatMap, hlabels]
  rfl

/-- The header of a message of one question and no records. -/
def questionHeader (m : Message) : Header :=
  { m.header with qdcount := 1, ancount := 0, nscount := 0, arcount := UInt16.ofNat (ednsCount m.edns) }

/-- The OPT record, if there is one. -/
def ednsBytes (edns : Option EdnsInfo) : List UInt8 := (edns.map writeOpt).getD []

/-- A message that only asks. -/
structure Asks (m : Message) (q : Question) : Prop where
  questions : m.questions = [q]
  answers : m.answers = []
  authority : m.authority = []
  additional : m.additional = []

/-- **A query is its header, its question without pointers, and the OPT record.** -/
theorem buildMessage_asks (h : Asks m q) (hq : NameWf q.qname) {maxSize : ℕ} (h512 : 512 ≤ maxSize)
    (compress : Bool) : buildMessage m maxSize compress =
      headerBytes (questionHeader m) ++ questionBytes q ++ ednsBytes m.edns := by
  have hout : ((startWriter compress).question q).out =
      List.replicate kHeaderSize 0 ++ questionBytes q := question_first rfl q
  have hopt : (if m.edns.isSome then kOptRecordSize else 0) ≤ 11 := by
    split_ifs <;> simp [kOptRecordSize]
  have hfits : ¬ sizeSub maxSize (if m.edns.isSome then kOptRecordSize else 0) <
      ((startWriter compress).question q).size := by
    have hwire := hq.wire
    have hlen := labelsLength_eq hq.lower.symm
    have hwritten : q.qname.asWritten = q.qname.originalCase := if_pos hq.length_eq
    unfold kMaxNameWireLength at hwire
    rw [sizeSub_of_le (by omega), Writer.size, hout, questionBytes, hwritten]
    simp only [List.length_append, List.length_replicate, length_nameBytes, length_putU16]
    unfold kHeaderSize
    omega
  have hquestions : writeQuestions (sizeSub maxSize (if m.edns.isSome then kOptRecordSize else 0))
      m.questions { compress, out := List.replicate kHeaderSize 0 } 0 =
        ((startWriter compress).question q, 1, false) := by
    rw [h.questions, writeQuestions]
    exact if_neg hfits
  unfold buildMessage writeSections
  simp only [hquestions, h.answers, h.authority, h.additional, writeSection, writeSectionLoop,
    Bool.false_eq_true, if_false, Bool.not_true, List.length_nil, Nat.zero_add]
  unfold questionHeader ednsBytes ednsCount
  cases hedns : m.edns with
  | none =>
    simp only [hout, Bool.or_false, Option.isSome_none, Option.map_none, Option.getD_none, List.append_nil]
    rw [writeHeader_eq]
    rfl
  | some e =>
    simp only [Writer.push, hout, Bool.or_false, Option.isSome_some, Option.map_some, Option.getD_some,
      List.append_assoc]
    rw [writeHeader_eq]
    rfl

/-! ### Read -/

theorem nameAt_plain (seg : ℕ) : ∀ (raws : List Label) (pos : ℕ), kHeaderSize ≤ pos →
    (∀ raw ∈ raws, 1 ≤ raw.length ∧ raw.length ≤ kMaxLabelLength) → At msg pos (nameBytes raws) →
      NameAt msg seg pos raws 0 (pos + (nameBytes raws).length)
  | [], pos, hpos, _, h => .root hpos (at_cons.mp h).1
  | raw :: raws, pos, hpos, hlabels, h => by
    obtain ⟨h1, h63⟩ := hlabels raw List.mem_cons_self
    have hbytes : nameBytes (raw :: raws) = labelBytes raw ++ nameBytes raws := by simp [nameBytes]
    have hlength : (labelBytes raw).length = 1 + raw.length := by
      rw [labelBytes, List.length_cons]
      omega
    rw [hbytes, at_append, hlength, ← Nat.add_assoc] at h
    have hrest := nameAt_plain seg raws (pos + 1 + raw.length) (by omega)
      (fun raw' hraw' => hlabels raw' (List.mem_cons_of_mem _ hraw')) h.2
    rw [hbytes, List.length_append, hlength, ← Nat.add_assoc, ← Nat.add_assoc]
    exact .label hpos h1 h63 h.1 hrest

theorem originalCase_appendLabels : ∀ (raws : List Label) (n : Name),
    (appendLabels n raws).originalCase = n.originalCase ++ raws
  | [], n => by simp [appendLabels]
  | raw :: raws, n => by
    have ih := originalCase_appendLabels raws (n.appendLabel raw)
    simp only [appendLabels, List.foldl_cons] at ih ⊢
    rw [ih]
    simp [Name.appendLabel]

/-- **A name without pointers is read as it is written.** -/
theorem readName_plain (hn : NameWf n) (hpos : kHeaderSize ≤ pos)
    (h : At msg pos (nameBytes n.originalCase)) :
    readName msg pos = .ok (n, pos + (nameBytes n.originalCase).length) := by
  have hlabels : ∀ raw ∈ n.originalCase, 1 ≤ raw.length ∧ raw.length ≤ kMaxLabelLength := by
    intro raw hraw
    have hlower := hn.label (lowerLabel raw) (by rw [hn.lower]; exact List.mem_map_of_mem hraw)
    simpa [lowerLabel] using hlower
  rw [readName_eq hn hn.lower.symm (nameAt_plain _ n.originalCase pos hpos hlabels h)]
  have hname : appendLabels {} n.originalCase = n := by
    refine Name.ext ?_ ?_
    · rw [labels_appendLabels, hn.lower]
      rfl
    · rw [originalCase_appendLabels]
      rfl
  rw [hname]

theorem readQuestion_plain (hq : NameWf q.qname) (hpos : kHeaderSize ≤ pos)
    (h : At msg pos (questionBytes q)) :
    readQuestion msg pos = .ok (q, pos + (questionBytes q).length) := by
  have hwritten : q.qname.asWritten = q.qname.originalCase := if_pos hq.length_eq
  have hle := h.length_le (by simp [questionBytes, putU16])
  unfold questionBytes at h hle ⊢
  rw [hwritten] at h hle ⊢
  rw [at_append, at_append, List.length_append] at h
  obtain ⟨⟨hname, htype⟩, hcls⟩ := h
  simp only [List.length_append, length_putU16] at hle hcls ⊢
  unfold readQuestion
  rw [readName_plain hq hpos hname]
  simp only [Bind.bind, Except.bind]
  rw [sizeSub_of_le (by omega), if_neg (by omega), loadU16_of_at htype, Nat.add_assoc pos,
    loadU16_of_at hcls]
  simp only [Nat.add_assoc]

/-- What `parse` has read, one part after the other. -/
theorem parse_parts (h : parse data = .ok m) : parseHeader data = .ok m.header ∧
    ∃ p₁ p₂ p₃ p₄ e₂ e₃,
      readQuestions data m.header.qdcount.toNat kHeaderSize [] = .ok (p₁, m.questions) ∧
      readSection data false m.header.ancount.toNat p₁ [] none = .ok (p₂, m.answers, e₂) ∧
      readSection data false m.header.nscount.toNat p₂ [] e₂ = .ok (p₃, m.authority, e₃) ∧
      readSection data true m.header.arcount.toNat p₃ [] e₃ = .ok (p₄, m.additional, m.edns) := by
  obtain ⟨header, hheader, h⟩ := exists_of_bind_eq_ok h
  split_ifs at h
  · cases h
  obtain ⟨⟨p₁, questions⟩, hquestions, h⟩ := exists_of_bind_eq_ok h
  obtain ⟨⟨p₂, answers, e₂⟩, hanswers, h⟩ := exists_of_bind_eq_ok h
  obtain ⟨⟨p₃, authority, e₃⟩, hauthority, h⟩ := exists_of_bind_eq_ok h
  obtain ⟨⟨p₄, additional, e₄⟩, hadditional, h⟩ := exists_of_bind_eq_ok h
  obtain rfl := Except.ok.inj h
  exact ⟨hheader, p₁, p₂, p₃, p₄, e₂, e₃, hquestions, hanswers, hauthority, hadditional⟩

/-- What `parse` has read before the records. -/
theorem parse_front (h : parse data = .ok m) : parseHeader data = .ok m.header ∧
    ∃ pos, readQuestions data m.header.qdcount.toNat kHeaderSize [] = .ok (pos, m.questions) := by
  obtain ⟨hheader, p₁, -, -, -, -, -, hquestions, -⟩ := parse_parts h
  exact ⟨hheader, p₁, hquestions⟩

/-- **A message that starts with the bytes of one question has that question**, letter case
included. -/
theorem parse_first (h : parse data = .ok m) (hcount : m.header.qdcount = 1) (hq : NameWf q.qname)
    (hat : At data kHeaderSize (questionBytes q)) : m.questions = [q] := by
  obtain ⟨-, pos, hread⟩ := parse_front h
  have hone : m.header.qdcount.toNat = 0 + 1 := by
    rw [hcount]
    rfl
  rw [hone, readQuestions, readQuestion_plain hq le_rfl hat] at hread
  simp only [Bind.bind, Except.bind, readQuestions, List.nil_append, Except.ok.injEq,
    Prod.mk.injEq] at hread
  exact hread.2.symm

end DNSentinel.Wire.FirstQuestion
