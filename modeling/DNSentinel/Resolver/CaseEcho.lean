import DNSentinel.Resolver.Upstream
import DNSentinel.Wire.FirstQuestion

/-! # The echo of a question in random letter case

`randomize_case` changes the case of letters only, so the name stays the same for everyone but
`same_case`. The query that is sent carries that case byte for byte (`FirstQuestion`), so a server that
copies the question gives it back, and one that changes a letter is noticed. -/

namespace DNSentinel.Resolver.CaseEcho

open DNSentinel.Types Wire.ByteIo Wire.Builder Wire.WellFormed Wire.NameCode Wire.RoundTrip
open Wire.FirstQuestion Wire.ParserSound Lib.Buffer Data Resolver.Core Upstream
open Wire.Parser (parse parseHeader)
open Selection (Random)

/-! ### Random letter case -/

variable {env : Random} {s : CaseBits} {n : Name} {c : UInt8}

/-- `c'` is `c`, or `c` is a small letter and `c'` its capital. -/
def CaseOf (c c' : UInt8) : Prop := c' = c ∨ 97 ≤ c ∧ c ≤ 122 ∧ c' = c - 32

theorem randomizeByte_caseOf (h : asciiLower c = c) : CaseOf c (randomizeByte env s c).2 := by
  have hsmall : ∀ c : Fin 256, isLetter (UInt8.ofNat c) = true →
      asciiLower (UInt8.ofNat c) = UInt8.ofNat c →
        97 ≤ UInt8.ofNat c ∧ UInt8.ofNat c ≤ 122 ∧ UInt8.ofNat c - 97 + 65 = UInt8.ofNat c - 32 := by
    decide +kernel
  unfold randomizeByte
  by_cases hletter : isLetter c = true
  · obtain ⟨hlow, hhigh, hcapital⟩ := hsmall ⟨c.toNat, c.toNat_lt⟩
      (by rwa [UInt8.ofNat_toNat]) (by rwa [UInt8.ofNat_toNat])
    rw [UInt8.ofNat_toNat] at hlow hhigh hcapital
    have hcase : ∀ bits : ℕ, CaseOf c (if bits % 2 = 1 then c - 97 + 65 else c) := by
      intro bits
      split_ifs
      · exact .inr ⟨hlow, hhigh, hcapital⟩
      · exact .inl rfl
    rw [if_neg (by simp [hletter])]
    exact hcase _
  · rw [if_pos (by simp [hletter])]
    exact .inl rfl

theorem asciiLower_caseOf {c' : UInt8} (hlower : asciiLower c = c) (h : CaseOf c c') :
    asciiLower c' = c := by
  have hsmall : ∀ c : Fin 256, 97 ≤ UInt8.ofNat c → UInt8.ofNat c ≤ 122 →
      asciiLower (UInt8.ofNat c - 32) = UInt8.ofNat c := by
    decide +kernel
  rcases h with rfl | ⟨hlow, hhigh, rfl⟩
  · exact hlower
  · have hc := hsmall ⟨c.toNat, c.toNat_lt⟩ (by rwa [UInt8.ofNat_toNat]) (by rwa [UInt8.ofNat_toNat])
    rwa [UInt8.ofNat_toNat] at hc

theorem randomizeLabel_caseOf : ∀ (l : Label) (s : CaseBits), lowerLabel l = l →
    List.Forall₂ CaseOf l (randomizeLabel env s l).2
  | [], _, _ => .nil
  | c :: cs, s, h => by
    obtain ⟨hc, hcs⟩ := List.cons.inj h
    exact .cons (randomizeByte_caseOf hc) (randomizeLabel_caseOf cs _ hcs)

theorem randomizeLabels_caseOf : ∀ (ls : List Label) (s : CaseBits), ls.map lowerLabel = ls →
    List.Forall₂ (List.Forall₂ CaseOf) ls (randomizeLabels env s ls).2
  | [], _, _ => .nil
  | l :: ls, s, h => by
    obtain ⟨hl, hls⟩ := List.cons.inj h
    exact .cons (randomizeLabel_caseOf l s hl) (randomizeLabels_caseOf ls _ hls)

theorem lowerLabel_caseOf {l l' : Label} (hlower : lowerLabel l = l) (h : List.Forall₂ CaseOf l l') :
    lowerLabel l' = l := by
  induction h with
  | nil => rfl
  | cons hc _ ih =>
    obtain ⟨hhead, htail⟩ := List.cons.inj hlower
    exact congrArg₂ _ (asciiLower_caseOf hhead hc) (ih htail)

theorem map_lowerLabel_caseOf {ls ls' : List Label} (hlower : ls.map lowerLabel = ls)
    (h : List.Forall₂ (List.Forall₂ CaseOf) ls ls') : ls'.map lowerLabel = ls := by
  induction h with
  | nil => rfl
  | cons hl _ ih =>
    obtain ⟨hhead, htail⟩ := List.cons.inj hlower
    exact congrArg₂ _ (lowerLabel_caseOf hhead hl) (ih htail)

/-- The name, whose labels are canonical, has labels of 1 to 63 bytes and fits the wire. -/
structure Canonical (n : Name) : Prop where
  label : ∀ l ∈ n.labels, 1 ≤ l.length ∧ l.length ≤ kMaxLabelLength
  wire : n.wireLength ≤ kMaxNameWireLength
  lower : n.labels.map lowerLabel = n.labels

/-- `b` is `a` with other letter case. -/
structure Recased (a b : Name) : Prop where
  same : b.labels = a.labels
  letters : List.Forall₂ (List.Forall₂ CaseOf) a.labels b.originalCase

theorem randomizeCase_recased (h : Canonical n) (draws : ℕ) : Recased n (randomizeCase env draws n).1 :=
  ⟨rfl, randomizeLabels_caseOf n.labels _ h.lower⟩

theorem Recased.wf {b : Name} (h : Recased n b) (hn : Canonical n) : NameWf b := by
  refine ⟨fun l hl => hn.label l (h.same ▸ hl), ?_, ?_⟩
  · unfold Name.wireLength
    rw [h.same]
    exact hn.wire
  · rw [map_lowerLabel_caseOf hn.lower h.letters, h.same]

/-! ### The query and its reply -/

/-- The message `send` encodes: a datagram, or what follows the length. -/
def encoded (query : Message) (txid : UInt16) (transport : UpstreamTransport) : List UInt8 :=
  let query := { query with header := { query.header with id := txid } }
  match transport with
  | .udp => build query { maxSize := 512 }
  | .tcp => (buildTcp query).drop 2

variable {query : Message} {q : Question} {m : Message} {txid : UInt16} {transport : UpstreamTransport}
  {reply : List UInt8}

/-- The header of the query. -/
def sentHeader (query : Message) (txid : UInt16) : Header := { questionHeader query with id := txid }

theorem encoded_eq (txid : UInt16) (transport : UpstreamTransport) (h : Asks query q)
    (hq : NameWf q.qname) : encoded query txid transport =
    headerBytes (sentHeader query txid) ++ questionBytes q ++ ednsBytes query.edns := by
  have hasks : Asks { query with header := { query.header with id := txid } } q :=
    ⟨h.questions, h.answers, h.authority, h.additional⟩
  cases transport with
  | udp | tcp => exact buildMessage_asks hasks hq (by decide) true

/-- **The query is decoded with the question that was sent**, letter case included. -/
theorem parse_encoded (h : Asks query q) (hq : NameWf q.qname) (hopcode : query.header.opcode < 16)
    (hrcode : query.header.rcode < 16) :
    ∃ m, parse (encoded query txid transport) = .ok m ∧ m.questions = [q] := by
  have hwf : MessageWf { query with header := { query.header with id := txid } } := by
    refine ⟨hopcode, hrcode, ?_, ?_, ?_, ?_⟩
    · simpa [h.questions] using hq
    · simp [h.answers]
    · simp [h.authority]
    · simp [h.additional]
  obtain ⟨m, hm⟩ : ∃ m, parse (encoded query txid transport) = .ok m := by
    cases transport with
    | udp =>
      obtain ⟨-, -, m, hm, -⟩ := parse_buildMessage hwf (le_refl 512) (by decide) true
      exact ⟨m, hm⟩
    | tcp =>
      obtain ⟨-, -, m, hm, -⟩ := parse_buildMessage hwf (by decide) (le_refl kMaxTcpMessage) true
      exact ⟨m, hm⟩
  refine ⟨m, hm, ?_⟩
  rw [encoded_eq _ _ h hq] at hm
  have hheader := (parse_front hm).1
  rw [List.append_assoc, parseHeader_headerBytes (h := sentHeader query txid) hopcode hrcode] at hheader
  refine parse_first hm ?_ hq ?_
  · rw [← Except.ok.inj hheader]
    rfl
  · exact at_length (headerBytes _) (questionBytes q) _

/-- The reply sets QR and has the ID, the number of questions and the question of the query. -/
structure Echoes (query : List UInt8) (questionLength : ℕ) (reply : List UInt8) : Prop where
  id : reply.take 2 = query.take 2
  response : ∃ b, reply[2]? = some b ∧ b &&& 0x80 ≠ 0
  count : (reply.drop 4).take 2 = (query.drop 4).take 2
  question : (reply.drop kHeaderSize).take questionLength = (query.drop kHeaderSize).take questionLength

theorem at_of_drop_take {buf xs : List UInt8} {pos : ℕ} (h : (buf.drop pos).take xs.length = xs) :
    At buf pos xs := by
  intro k hk
  rw [← List.getElem?_drop, ← List.getElem?_take_of_lt hk, h]

theorem parseHeader_fields {data : List UInt8} {h : Header} (hparse : parseHeader data = .ok h) :
    loadU16 data 0 = .ok h.id ∧ loadU16 data 4 = .ok h.qdcount ∧
      ∃ b, byteAt data 2 = .ok b ∧ h.qr = (b &&& 0x80 != 0) := by
  unfold parseHeader at hparse
  split_ifs at hparse
  · cases hparse
  simp only [Bind.bind, Except.bind] at hparse
  split at hparse
  · cases hparse
  next b2 hb2 =>
  split at hparse
  · cases hparse
  split at hparse
  · cases hparse
  next id hid =>
  split at hparse
  · cases hparse
  next qdcount hqdcount =>
  split at hparse
  · cases hparse
  split at hparse
  · cases hparse
  split at hparse
  · cases hparse
  obtain rfl := Except.ok.inj hparse
  exact ⟨hid, hqdcount, b2, hb2, rfl⟩

/-- **An echo has the question that was sent**, letter case included. -/
theorem parse_echo (h : Asks query q) (hq : NameWf q.qname) (hparse : parse reply = .ok m)
    (hechoes : Echoes (encoded query txid transport) (questionBytes q).length reply) :
    m.header.qr = true ∧ m.header.id = txid ∧ m.questions = [q] := by
  obtain ⟨hid, hcount, b, hb, hqr⟩ := parseHeader_fields (parse_front hparse).1
  have hbytes := encoded_eq txid transport h hq
  have hidAt : At reply 0 (putU16 txid) := by
    refine at_of_drop_take ?_
    have htake := hechoes.id
    rw [hbytes] at htake
    exact htake
  have hcountAt : At reply 4 (putU16 1) := by
    refine at_of_drop_take ?_
    have htake := hechoes.count
    rw [hbytes] at htake
    exact htake
  have hquestionAt : At reply kHeaderSize (questionBytes q) := by
    refine at_of_drop_take ?_
    rw [hechoes.question, hbytes]
    exact (at_length (headerBytes _) (questionBytes q) _).drop_take
  rw [loadU16_of_at hidAt] at hid
  rw [loadU16_of_at hcountAt] at hcount
  obtain ⟨b', hb', hset⟩ := hechoes.response
  rw [byteAt_of_getElem hb'] at hb
  obtain rfl := Except.ok.inj hb
  refine ⟨?_, (Except.ok.inj hid).symm, parse_first hparse (Except.ok.inj hcount).symm hq hquestionAt⟩
  rw [hqr, bne_iff_ne]
  exact hset

/-- Some byte of the names is not the same. -/
def LetterDiffers (a b : Name) : Prop :=
  ∃ (i j : ℕ) (l l' : Label) (c c' : UInt8), a.originalCase[i]? = some l ∧ b.originalCase[i]? = some l' ∧
    l[j]? = some c ∧ l'[j]? = some c' ∧ c ≠ c'

theorem LetterDiffers.ne {a b : Name} (h : LetterDiffers a b) : a.originalCase ≠ b.originalCase := by
  obtain ⟨i, j, l, l', c, c', hl, hl', hc, hc', hne⟩ := h
  intro heq
  rw [heq, hl'] at hl
  obtain rfl := Option.some.inj hl
  rw [hc] at hc'
  exact hne (Option.some.inj hc')

theorem sameCase_false {a b : Name} (ha : NameWf a) (hb : NameWf b) (h : a.originalCase ≠ b.originalCase) :
    sameCase a b = false := by
  have ha' : a.asWritten = a.originalCase := if_pos ha.length_eq
  have hb' : b.asWritten = b.originalCase := if_pos hb.length_eq
  rw [sameCase, ha', hb', beq_eq_false_iff_ne]
  exact h

/-- **An honest echo is accepted, and a change of case is noticed.** Whatever the random bits, the
query asks for the same name in other letter case and is decoded with that case; a reply that copies
ID and question is the one, and a reply with the question in any other letter case is not. -/
theorem echo_accepted (env : Random) (draws : ℕ) (n : Name) (hn : Canonical n) (header : Header)
    (hopcode : header.opcode < 16) (hrcode : header.rcode < 16) (qtype qclass : UInt16)
    (edns : Option EdnsInfo) (transport : UpstreamTransport) (txid : UInt16) :
    let name := (randomizeCase env draws n).1
    let question : Question := ⟨name, qtype, qclass⟩
    let query : Message := { header, questions := [question], edns }
    let sent : Sent := ⟨transport, txid, question, true⟩
    Recased n name ∧
    (∃ m, parse (encoded query txid transport) = .ok m ∧ m.questions = [question]) ∧
    (∀ reply m, parse reply = .ok m →
      Echoes (encoded query txid transport) (questionBytes question).length reply →
        matchReply (parse reply) sent = .yes) ∧
    ∀ reply m q, parse reply = .ok m → m.header.qr = true → m.header.id = txid → m.questions = [q] →
      (q == question) = true → LetterDiffers q.qname name → matchReply (parse reply) sent = .wrongCase := by
  intro name question query sent
  have hrecased : Recased n name := randomizeCase_recased hn draws
  have hname : NameWf question.qname := hrecased.wf hn
  have hasks : Asks query question := ⟨rfl, rfl, rfl, rfl⟩
  refine ⟨hrecased, parse_encoded hasks hname hopcode hrcode, fun reply m hparse hechoes => ?_,
    fun reply m q hparse hqr hid hquestions hsame hdiffers => ?_⟩
  · obtain ⟨hqr, hid, hquestions⟩ := parse_echo hasks hname hparse hechoes
    refine matchReply_yes.mpr ⟨m, hparse, question, ⟨hqr, hid, hquestions, ?_⟩, fun _ => ?_⟩
    · exact Question.beq_iff.mpr ⟨rfl, rfl, rfl⟩
    · exact beq_self_eq_true _
  · have hwf : NameWf q.qname := by
      rcases parse_total reply with ⟨e, he⟩ | ⟨m', hm', hwf, -⟩
      · rw [hparse] at he
        cases he
      · rw [hparse] at hm'
        obtain rfl := Except.ok.inj hm'
        exact hwf.questions q (by simp [hquestions])
    refine matchReply_wrongCase.mpr ⟨m, q, hparse, ⟨hqr, hid, hquestions, hsame⟩, rfl, ?_⟩
    exact sameCase_false hwf hname hdiffers.ne

/-- The name of one letter is asked for with a capital, and the reply copies that. -/
theorem echo_accepted_capital :
    (randomizeCase (fun _ => 1) 0 ⟨[[97]], []⟩).1.originalCase = [[65]] ∧
      matchReply (parse sampleReply)
        ⟨.udp, 7, ⟨(randomizeCase (fun _ => 1) 0 ⟨[[97]], []⟩).1, RRType.A, kClassIN⟩, true⟩ = .yes := by
  have hn : Canonical ⟨[[97]], []⟩ := ⟨by decide, by decide, by decide⟩
  obtain ⟨m, hm⟩ : ∃ m, parse sampleReply = .ok m := ⟨_, rfl⟩
  refine ⟨by decide +kernel, (echo_accepted (fun _ => 1) 0 ⟨[[97]], []⟩ hn {} (by decide) (by decide)
    RRType.A kClassIN none .udp 7).2.2.1 sampleReply m hm ⟨?_, ⟨0x80, ?_⟩, ?_, ?_⟩⟩
  all_goals decide +kernel

end DNSentinel.Resolver.CaseEcho
