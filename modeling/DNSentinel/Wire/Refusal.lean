import DNSentinel.Wire.Compression
import DNSentinel.Wire.FirstQuestion
import DNSentinel.Wire.ParserSound

/-! # The size of a refusal

A refusal sends the question section back. The builder writes a name up to the first suffix that it has
written before, below the reach of a pointer (`sharedSize`); how the name was compressed in the query makes
no difference to it. The parser on the other hand takes a pointer to any earlier place: into the header,
into the middle of a label. So a question can take more bytes in the refusal than it took in the query. If
all that pointers led to were suffixes of earlier question names, it cannot (`Shared`). -/

namespace DNSentinel.Wire.Refusal

open DNSentinel.Types ByteIo Builder WellFormed NameCode RecordCode RoundTrip Compression
open FirstQuestion ParserSound Lib.Outcome
open Edns (kOptRecordSize kClassicUdpSize kEdnsUdpPayloadSize maxUdpResponseSize)
open Wire.Parser (parse readName readNameLoop readQuestion readQuestions readRecord
  readSection parseHeader NameState nameFuel)

/-- The refusal, as the UDP listener sends it. -/
def refusal (ourLimit : UInt16) (query : Message) : List UInt8 :=
  build (makeResponse query RCode.Refused) { maxSize := maxUdpResponseSize query.edns ourLimit }

/-! ### What a question takes -/

/-- The bytes of a name that is cut at the first suffix known. -/
def sharedSize (known : List (List Label)) : List Label → ℕ
  | [] => 1
  | l :: ls => if (l :: ls) ∈ known then 2 else 1 + l.length + sharedSize known ls

/-- The suffixes that become known with a name at `size`. -/
def learned (known : List (List Label)) : ℕ → List Label → List (List Label)
  | _, [] => []
  | size, l :: ls =>
    if (l :: ls) ∈ known then []
    else learned known (size + 1 + l.length) ls ++ if size ≤ kMaxPointerOffset then [l :: ls] else []

/-- The bytes after the questions that fit below the limit. -/
def questionsSize (limit : ℕ) : ℕ → List (List Label) → List Question → ℕ
  | size, _, [] => size
  | size, known, q :: qs =>
    let next := size + sharedSize known q.qname.labels + 4
    if limit < next then size
    else questionsSize limit next (learned known size q.qname.labels ++ known) qs

/-- An OPT record, if the query has one. -/
def optSize (query : Message) : ℕ := if query.edns.isSome then kOptRecordSize else 0

/-- Where the questions end in the refusal. -/
def questionsEnd (ourLimit : UInt16) (query : Message) : ℕ :=
  questionsSize ((maxUdpResponseSize query.edns ourLimit).toNat - optSize query) kHeaderSize []
    query.questions

/-! ### The table of the writer -/

/-- The table has the suffixes that are known. -/
def Knows (table : Table) (known : List (List Label)) : Prop :=
  ∀ ls, ls ≠ [] → (∀ l ∈ ls, l.length ≤ kMaxLabelLength) →
    ((table.lookup (suffixKey ls)).isSome = true ↔ ls ∈ known)

variable {table : Table} {known : List (List Label)} {w : Writer}

theorem lookup_isSome_append (a b : Table) (key : List UInt8) :
    ((a ++ b).lookup key).isSome = true ↔
      (a.lookup key).isSome = true ∨ (b.lookup key).isSome = true := by
  rw [List.lookup_append]
  cases a.lookup key <;> simp

theorem pairsOk_fst {ps : List (Label × Label)} (h : PairsOk ps) :
    ∀ l ∈ ps.map Prod.fst, l.length ≤ kMaxLabelLength := by
  intro l hl
  obtain ⟨p, hp, rfl⟩ := List.mem_map.1 hl
  obtain ⟨heq, -, hle⟩ := h p hp
  rw [heq]
  simpa [lowerLabel] using hle

theorem length_labelBytes_snd {p : Label × Label} (h : p.1 = lowerLabel p.2) :
    (labelBytes p.2).length = 1 + p.1.length := by
  rw [h]
  simp [labelBytes, lowerLabel]
  omega

theorem Knows.key (h : Knows table known) {p : Label × Label} {ps : List (Label × Label)}
    (hps : PairsOk (p :: ps)) :
    (table.lookup (keyOf (p :: ps))).isSome = true ↔ p.1 :: ps.map Prod.fst ∈ known :=
  h ((p :: ps).map Prod.fst) (List.cons_ne_nil _ _) (pairsOk_fst hps)

/-- A name is cut where the table knows the rest. -/
theorem length_cut (h : Knows table known) : ∀ {ps : List (Label × Label)}, PairsOk ps →
    (cutBytes (cut table ps)).length = sharedSize known (ps.map Prod.fst)
  | [], _ => rfl
  | p :: ps, hps => by
    have hknown := h.key hps
    have hlength := length_labelBytes_snd (hps p List.mem_cons_self).1
    rw [List.map_cons, sharedSize]
    cases hl : table.lookup (keyOf (p :: ps)) with
    | some off =>
      rw [hl] at hknown
      rw [cut_hit hl, if_pos (hknown.1 rfl)]
      rfl
    | none =>
      have ih := length_cut h (fun x hx => hps x (List.mem_cons_of_mem _ hx))
      rw [hl] at hknown
      rw [cut_miss hl, if_neg (fun hmem => Bool.false_ne_true (hknown.2 hmem)), ← ih]
      simp only [cutBytes, inPlace, List.flatMap_cons, List.length_append]
      omega

theorem lookup_newEntry {key : List UInt8} {ls ls' : List Label} (size : ℕ)
    (hls : ∀ l ∈ ls, l.length ≤ kMaxLabelLength) (hls' : ∀ l ∈ ls', l.length ≤ kMaxLabelLength)
    (hkey : key = suffixKey ls') :
    ((newEntry key size).lookup (suffixKey ls)).isSome = true ↔
      ls ∈ if size ≤ kMaxPointerOffset then [ls'] else [] := by
  unfold newEntry
  split_ifs
  · rw [List.mem_singleton, List.lookup_cons, hkey]
    by_cases heq : suffixKey ls = suffixKey ls'
    · rw [beq_iff_eq.2 heq]
      exact iff_of_true rfl (suffixKey_injective hls hls' heq)
    · rw [beq_eq_false_iff_ne.2 heq]
      exact iff_of_false Bool.false_ne_true fun hsame => heq (hsame ▸ rfl)
  · exact iff_of_false Bool.false_ne_true List.not_mem_nil

/-- The entries of a name are those of its suffixes. -/
theorem mem_learned (h : Knows table known) {ls : List Label}
    (hls : ∀ l ∈ ls, l.length ≤ kMaxLabelLength) : ∀ {ps : List (Label × Label)} (size : ℕ), PairsOk ps →
    (((newEntries table size ps).lookup (suffixKey ls)).isSome = true ↔
      ls ∈ learned known size (ps.map Prod.fst))
  | [], _, _ => iff_of_false Bool.false_ne_true List.not_mem_nil
  | p :: ps, size, hps => by
    have hknown := h.key hps
    have hlength := length_labelBytes_snd (hps p List.mem_cons_self).1
    rw [List.map_cons, learned]
    cases hl : table.lookup (keyOf (p :: ps)) with
    | some off =>
      rw [hl] at hknown
      rw [newEntries_hit hl, if_pos (hknown.1 rfl)]
      exact iff_of_false Bool.false_ne_true List.not_mem_nil
    | none =>
      have ih := mem_learned h hls (size + 1 + p.1.length)
        (fun x hx => hps x (List.mem_cons_of_mem _ hx))
      have hown := lookup_newEntry size hls (pairsOk_fst hps) (rfl : keyOf (p :: ps) = _)
      rw [hl] at hknown
      rw [newEntries_miss hl, if_neg (fun hmem => Bool.false_ne_true (hknown.2 hmem)),
        lookup_isSome_append, List.mem_append, hlength, ← Nat.add_assoc, ih, hown]
      rfl

/-! ### Writing names and questions -/

theorem knows_start : Knows (startWriter true).suffixes [] :=
  fun _ _ _ => iff_of_false Bool.false_ne_true List.not_mem_nil

theorem name_knows {n : Name} (hc : w.compress = true) (h : Knows w.suffixes known)
    (hn : NameWf n) :
    (w.name n).compress = true ∧ (w.name n).size = w.size + sharedSize known n.labels ∧
      Knows (w.name n).suffixes (learned known w.size n.labels ++ known) := by
  have hps := pairsOk_name hn
  have hsize := length_cut h hps
  rw [fst_name hn] at hsize
  rw [Writer.name, nameLoop_cut _ w hc]
  refine ⟨hc, ?_, fun ls hne hls => ?_⟩
  · simp only [Writer.size, List.length_append, hsize]
  · have hmem := mem_learned h hls w.size hps
    rw [fst_name hn] at hmem
    rw [lookup_isSome_append, List.mem_append, hmem, h ls hne hls]

theorem question_knows {q : Question} (hc : w.compress = true) (h : Knows w.suffixes known)
    (hq : NameWf q.qname) :
    (w.question q).compress = true ∧
      (w.question q).size = w.size + sharedSize known q.qname.labels + 4 ∧
      Knows (w.question q).suffixes (learned known w.size q.qname.labels ++ known) := by
  obtain ⟨hcompress, hsize, hknows⟩ := name_knows hc h hq
  refine ⟨hcompress, ?_, hknows⟩
  rw [← hsize]
  simp [Writer.question, size_push]

theorem size_keptQuestions (limit : ℕ) : ∀ (qs : List Question) (w : Writer)
    (known : List (List Label)), w.compress = true → Knows w.suffixes known →
    (∀ q ∈ qs, NameWf q.qname) →
    ((keptQuestions limit qs w).foldl Writer.question w).size = questionsSize limit w.size known qs
  | [], _, _, _, _, _ => rfl
  | q :: qs, w, known, hc, h, hqs => by
    obtain ⟨hc', hsize, hknows⟩ := question_knows hc h (hqs q List.mem_cons_self)
    rw [keptQuestions, questionsSize, ← hsize]
    split_ifs
    · rfl
    · rw [List.foldl_cons]
      exact size_keptQuestions limit qs (w.question q) _ hc' hknows fun x hx =>
        hqs x (List.mem_cons_of_mem _ hx)

/-! ### The size of the refusal -/

theorem makeResponse_wf {query : Message} (h : MessageWf query) (rcode : RCode) :
    MessageWf (makeResponse query rcode) :=
  ⟨h.opcode, and_fifteen_lt rcode, h.questions, by simp [makeResponse], by simp [makeResponse],
    by simp [makeResponse]⟩

theorem maxUdpResponseSize_ge (edns : Option EdnsInfo) (ourLimit : UInt16) :
    512 ≤ (maxUdpResponseSize edns ourLimit).toNat := by
  unfold maxUdpResponseSize
  cases edns with
  | none => exact le_rfl
  | some e =>
    dsimp only
    split_ifs with hsmall hbig
    · exact le_rfl
    · rw [toNat_max]
      exact le_max_right _ _
    · rw [UInt16.lt_iff_toNat_lt, not_lt] at hsmall
      exact hsmall

/-- The sections of a response without records. -/
theorem writeAll_keptOf {m : Message} (ha : m.answers = []) (hn : m.authority = [])
    (hr : m.additional = []) (maxSize : ℕ) (w : Writer) :
    writeAll (keptOf m maxSize true) w =
      (keptQuestions (sectionLimit m maxSize) m.questions (startWriter true)).foldl
        Writer.question w := by
  unfold keptOf kept writeAll
  rw [ha, hn, hr]
  dsimp only
  split_ifs <;> rfl

theorem length_refusal {query : Message} (hwf : MessageWf query) (ourLimit : UInt16) :
    (refusal ourLimit query).length = questionsEnd ourLimit query + optSize query := by
  have hge := maxUdpResponseSize_ge query.edns ourLimit
  have hmax : (max (maxUdpResponseSize query.edns ourLimit) kClassicUdpSize).toNat =
      (maxUdpResponseSize query.edns ourLimit).toNat := by
    rw [toNat_max]
    exact max_eq_left hge
  have hedns : (makeResponse query RCode.Refused).edns.isSome = query.edns.isSome := by
    unfold makeResponse
    rw [Option.isSome_map]
  unfold refusal build
  dsimp only
  have hquestions := size_keptQuestions
    (sectionLimit (makeResponse query RCode.Refused) (maxUdpResponseSize query.edns ourLimit).toNat)
    query.questions (startWriter true) [] rfl knows_start hwf.questions
  rw [hmax, length_buildMessage (makeResponse_wf hwf RCode.Refused) hge true,
    writeAll_keptOf rfl rfl rfl, show (makeResponse query RCode.Refused).questions = query.questions
      from rfl, hquestions]
  unfold sectionLimit questionsEnd optSize ednsCount
  rw [hedns, sizeSub_of_le (by split_ifs <;> simp [kOptRecordSize]; omega)]
  split_ifs <;> rfl

/-! ### Questions in the query -/

/-- How many labels of the name at `pos` stand there, and whether a pointer comes after them. -/
def inPlaceLabels (msg : List UInt8) : ℕ → ℕ → ℕ × Bool
  | 0, _ => (0, false)
  | fuel + 1, pos =>
    match msg[pos]? with
    | none => (0, false)
    | some len =>
      if len &&& 0xC0 = 0x00 then
        if len = 0 then (0, false)
        else
          let (count, pointer) := inPlaceLabels msg fuel (pos + 1 + len.toNat)
          (count + 1, pointer)
      else (0, true)

/-- What a name takes at `pos`. -/
structure InPlace (msg : List UInt8) (fuel pos stop : ℕ) (labels : List Label) : Prop where
  count : (inPlaceLabels msg fuel pos).1 ≤ labels.length
  all : (inPlaceLabels msg fuel pos).2 = false → (inPlaceLabels msg fuel pos).1 = labels.length
  size : stop = pos + labelsLength (labels.take (inPlaceLabels msg fuel pos).1) +
    if (inPlaceLabels msg fuel pos).2 then 2 else 1

/-- Whatever the errors, a computation that returns does so with `P`. -/
abbrev Returns {α : Type} (P : α → Prop) (r : Result α) : Prop := Ends (fun _ => True) P r

theorem returns_byteAt (msg : List UInt8) (off : ℕ) :
    Returns (fun b => msg[off]? = some b) (byteAt msg off) := by
  unfold byteAt
  split
  · next b hb => exact ends_ok hb
  · exact ends_error trivial

theorem returns_any {α : Type} (r : Result α) : Returns (fun _ => True) r := by
  cases r with
  | error e => exact ends_error trivial
  | ok a => exact ends_ok trivial

theorem returns_slice (msg : List UInt8) (off n : ℕ) :
    Returns (fun s => s.length = n) (slice msg off n) := by
  cases hs : slice msg off n with
  | error e => exact ends_error trivial
  | ok s => exact ends_ok (length_slice hs).1

/-- What the loop of `read_name` returns: more labels, and the end of what stands in place. -/
def Takes (msg : List UInt8) (fuel : ℕ) (s : NameState) (r : Name × ℕ) : Prop :=
  ∃ ls, r.1.labels = s.name.labels ++ ls ∧ (s.jumped = true → r.2 = s.pos) ∧
    (s.jumped = false → InPlace msg fuel s.cur r.2 ls)

theorem readNameLoop_takes (msg : List UInt8) : ∀ (fuel : ℕ) (s : NameState),
    Returns (Takes msg fuel s) (readNameLoop msg fuel s)
  | 0, _ => ends_error trivial
  | fuel + 1, s => by
    unfold readNameLoop
    refine ends_ite (fun _ => ends_error trivial) fun _ => ?_
    refine (returns_byteAt msg s.cur).bind fun len hlen => ?_
    refine ends_ite (fun hlabel => ?_) fun hnot => ends_ite (fun _ => ?_) fun _ => ends_error trivial
    · refine ends_ite (fun hzero => ends_ok ?_) fun hzero => ?_
      · have hcount : inPlaceLabels msg (fuel + 1) s.cur = (0, false) := by
          rw [inPlaceLabels, hlen]
          simp [hzero]
        refine ⟨[], (List.append_nil _).symm, fun hj => if_pos hj, fun hj => ?_⟩
        refine ⟨?_, fun _ => ?_, ?_⟩ <;> rw [hcount]
        · exact le_rfl
        · rfl
        · rw [hj]
          rfl
      · refine ends_ite (fun _ => ends_error trivial) fun _ =>
          ends_ite (fun _ => ends_error trivial) fun _ => ?_
        refine (returns_slice msg (s.cur + 1) len.toNat).bind fun raw hraw => ?_
        refine (readNameLoop_takes msg fuel _).mono ?_
        rintro ⟨n, stop⟩ ⟨ls, hlabels, hpos, hplace⟩
        have hcount : inPlaceLabels msg (fuel + 1) s.cur =
            ((inPlaceLabels msg fuel (s.cur + 1 + len.toNat)).1 + 1,
              (inPlaceLabels msg fuel (s.cur + 1 + len.toNat)).2) := by
          rw [inPlaceLabels, hlen]
          simp [hlabel, hzero]
        refine ⟨lowerLabel raw :: ls, ?_, hpos, fun hj => ?_⟩
        · rw [hlabels]
          simp [Name.appendLabel]
        · obtain ⟨hle, hall, hsize⟩ := hplace hj
          refine ⟨?_, fun hnone => ?_, ?_⟩
          · rw [hcount]
            exact Nat.succ_le_succ hle
          · rw [hcount] at hnone ⊢
            exact congrArg Nat.succ (hall hnone)
          · rw [hcount, List.take_succ_cons, hsize]
            simp only [labelsLength, List.map_cons, List.sum_cons, lowerLabel, List.length_map, hraw]
            omega
    · refine ends_ite (fun _ => ends_error trivial) fun _ => ?_
      refine (returns_any (loadU16 msg s.cur)).bind fun word _ => ?_
      refine ends_ite (fun _ => ends_error trivial) fun _ => ?_
      refine (readNameLoop_takes msg fuel _).mono ?_
      rintro ⟨n, stop⟩ ⟨ls, hlabels, hpos, -⟩
      have hcount : inPlaceLabels msg (fuel + 1) s.cur = (0, true) := by
        rw [inPlaceLabels, hlen]
        simp only [if_neg hnot]
      have hstop : stop = if s.jumped = true then s.pos else s.cur + 2 := hpos rfl
      refine ⟨ls, hlabels, fun hj => hstop.trans (if_pos hj), fun hj => ?_⟩
      refine ⟨?_, fun hnone => ?_, ?_⟩
      · rw [hcount]
        exact Nat.zero_le _
      · rw [hcount] at hnone
        cases hnone
      · rw [hcount]
        exact hstop.trans (if_neg (by rw [hj]; exact Bool.false_ne_true))

theorem readName_inPlace {msg : List UInt8} {pos stop : ℕ} {n : Name}
    (h : readName msg pos = .ok (n, stop)) : InPlace msg nameFuel pos stop n.labels := by
  obtain ⟨ls, hlabels, -, hplace⟩ := (readNameLoop_takes msg nameFuel _).of_eq h
  have hls : n.labels = ls := hlabels
  rw [hls]
  exact hplace rfl

/-! ### What pointers save -/

/-- What is known are the suffixes of the earlier names. -/
def Full (known earlier : List (List Label)) : Prop :=
  ∀ ls, ls ∈ known ↔ ls ≠ [] ∧ ∃ e ∈ earlier, ls <:+ e

theorem labelsLength_cons (l : Label) (ls : List Label) :
    labelsLength (l :: ls) = 1 + l.length + labelsLength ls := by
  simp [labelsLength]

theorem sharedSize_le (known : List (List Label)) : ∀ ls : List Label,
    sharedSize known ls ≤ labelsLength ls + 1
  | [] => le_rfl
  | l :: ls => by
    have ih := sharedSize_le known ls
    rw [sharedSize, labelsLength_cons]
    split_ifs <;> omega

/-- A name whose rest is known is no longer than with a pointer in the place of the rest. -/
theorem sharedSize_le_take {known : List (List Label)} : ∀ (count : ℕ) (ls : List Label),
    ls.drop count ∈ known → ls.drop count ≠ [] →
      sharedSize known ls ≤ labelsLength (ls.take count) + 2
  | 0, [], _, hne => absurd rfl hne
  | 0, l :: ls, hknown, _ => by
    rw [List.drop_zero] at hknown
    rw [sharedSize, if_pos hknown]
    omega
  | count + 1, [], _, hne => absurd rfl hne
  | count + 1, l :: ls, hknown, hne => by
    have ih := sharedSize_le_take count ls hknown hne
    rw [sharedSize, List.take_succ_cons, labelsLength_cons]
    split_ifs <;> omega

theorem mem_of_learned {known : List (List Label)} {ls : List Label} : ∀ (labels : List Label)
    (size : ℕ), ls ∈ learned known size labels → ls ≠ [] ∧ ls <:+ labels
  | [], _, h => absurd h List.not_mem_nil
  | l :: labels, size, h => by
    rw [learned] at h
    split_ifs at h with hknown hreach
    · exact absurd h List.not_mem_nil
    · rcases List.mem_append.1 h with h | h
      · obtain ⟨hne, hsuffix⟩ := mem_of_learned labels _ h
        exact ⟨hne, hsuffix.trans (List.suffix_cons l labels)⟩
      · rw [List.mem_singleton.1 h]
        exact ⟨List.cons_ne_nil _ _, List.suffix_rfl⟩
    · rw [List.append_nil] at h
      obtain ⟨hne, hsuffix⟩ := mem_of_learned labels _ h
      exact ⟨hne, hsuffix.trans (List.suffix_cons l labels)⟩

/-- Every suffix of a name that pointers reach becomes known, or is. -/
theorem learned_all {known earlier : List (List Label)} (hfull : Full known earlier) {ls : List Label}
    (hne : ls ≠ []) : ∀ (labels : List Label) (size : ℕ),
    size + labelsLength labels ≤ kMaxPointerOffset → ls <:+ labels →
      ls ∈ learned known size labels ++ known
  | [], _, _, hsuffix => absurd (List.suffix_nil.1 hsuffix) hne
  | l :: labels, size, hreach, hsuffix => by
    rw [labelsLength_cons] at hreach
    rw [learned]
    by_cases hknown : (l :: labels) ∈ known
    · obtain ⟨-, e, he, hwhole⟩ := (hfull _).1 hknown
      rw [if_pos hknown]
      exact (hfull ls).2 ⟨hne, e, he, hsuffix.trans hwhole⟩
    · rw [if_neg hknown, if_pos (by omega)]
      rcases List.suffix_cons_iff.1 hsuffix with rfl | hsuffix
      · simp
      · have ih := learned_all hfull hne labels (size + 1 + l.length) (by omega) hsuffix
        rcases List.mem_append.1 ih with h | h
        · exact List.mem_append_left _ (List.mem_append_left _ h)
        · exact List.mem_append_right _ h

theorem Full.step {known earlier : List (List Label)} (hfull : Full known earlier)
    {labels : List Label} {size : ℕ} (hreach : size + labelsLength labels ≤ kMaxPointerOffset) :
    Full (learned known size labels ++ known) (labels :: earlier) := by
  intro ls
  constructor
  · intro h
    rcases List.mem_append.1 h with h | h
    · obtain ⟨hne, hsuffix⟩ := mem_of_learned labels size h
      exact ⟨hne, labels, List.mem_cons_self, hsuffix⟩
    · obtain ⟨hne, e, he, hsuffix⟩ := (hfull ls).1 h
      exact ⟨hne, e, List.mem_cons_of_mem _ he, hsuffix⟩
  · rintro ⟨hne, e, he, hsuffix⟩
    rcases List.mem_cons.1 he with rfl | he
    · exact learned_all hfull hne e size hreach hsuffix
    · exact List.mem_append_right _ ((hfull ls).2 ⟨hne, e, he, hsuffix⟩)

/-! ### Queries whose pointers lead to earlier names -/

/-- What the name at `pos` takes from elsewhere is the end of an earlier name. -/
def SharedName (msg : List UInt8) (pos : ℕ) (earlier : List (List Label)) (labels : List Label) : Prop :=
  (inPlaceLabels msg nameFuel pos).2 = true →
    ∃ e ∈ [] :: earlier, labels.drop (inPlaceLabels msg nameFuel pos).1 <:+ e

/-- So it is with all of the questions at `pos`. -/
def SharedFrom (msg : List UInt8) : ℕ → List (List Label) → List Question → Prop
  | _, _, [] => True
  | pos, earlier, q :: qs =>
    SharedName msg pos earlier q.qname.labels ∧
      ∀ stop, readQuestion msg pos = .ok (q, stop) → SharedFrom msg stop (q.qname.labels :: earlier) qs

/-- The names of the questions take nothing from elsewhere but the ends of earlier ones. -/
def Shared (msg : List UInt8) (query : Message) : Prop := SharedFrom msg kHeaderSize [] query.questions

section Query

variable {msg : List UInt8} {pos stop : ℕ} {earlier : List (List Label)}

theorem sharedSize_name {n : Name} (h : readName msg pos = .ok (n, stop))
    (hshared : SharedName msg pos earlier n.labels) (hfull : Full known earlier) :
    pos + sharedSize known n.labels ≤ stop := by
  obtain ⟨-, hall, hsize⟩ := readName_inPlace h
  cases hpointer : (inPlaceLabels msg nameFuel pos).2 with
  | false =>
    have hle := sharedSize_le known n.labels
    rw [hall hpointer, List.take_length, hpointer, if_neg Bool.false_ne_true] at hsize
    omega
  | true =>
    rw [hpointer, if_pos rfl] at hsize
    obtain ⟨e, he, hsuffix⟩ := hshared hpointer
    by_cases hnil : n.labels.drop (inPlaceLabels msg nameFuel pos).1 = []
    · have hle := sharedSize_le known n.labels
      rw [List.take_of_length_le (List.drop_eq_nil_iff.1 hnil)] at hsize
      omega
    · have hmem : n.labels.drop (inPlaceLabels msg nameFuel pos).1 ∈ known := by
        rcases List.mem_cons.1 he with rfl | he
        · exact absurd (List.suffix_nil.1 hsuffix) hnil
        · exact (hfull _).2 ⟨hnil, e, he, hsuffix⟩
      have hle := sharedSize_le_take _ _ hmem hnil
      omega

theorem readQuestion_parts {q : Question} (h : readQuestion msg pos = .ok (q, stop)) :
    ∃ p, readName msg pos = .ok (q.qname, p) ∧ stop = p + 4 := by
  obtain ⟨⟨n, p⟩, hname, h⟩ := exists_of_bind_eq_ok h
  dsimp only at h
  split_ifs at h
  · cases h
  obtain ⟨qtype, -, h⟩ := exists_of_bind_eq_ok h
  obtain ⟨qclass, -, h⟩ := exists_of_bind_eq_ok h
  obtain ⟨rfl, rfl⟩ := Prod.mk.inj (Except.ok.inj h)
  exact ⟨p, hname, rfl⟩

/-- **The questions do not grow** if pointers lead to earlier names. -/
theorem questionsSize_le (limit : ℕ) (hlimit : limit + kMaxNameWireLength ≤ kMaxPointerOffset) :
    ∀ (count pos : ℕ) (out : List Question) (r : ℕ × List Question),
    readQuestions msg count pos out = .ok r → ∃ qs, r.2 = out ++ qs ∧ pos ≤ r.1 ∧
      ∀ size known earlier, size ≤ pos → size ≤ limit → Full known earlier →
        SharedFrom msg pos earlier qs → questionsSize limit size known qs ≤ r.1
  | 0, pos, out, r, h => by
    obtain rfl := Except.ok.inj h
    exact ⟨[], (List.append_nil _).symm, le_rfl, fun size _ _ hsize _ _ _ => hsize⟩
  | count + 1, pos, out, r, h => by
    obtain ⟨⟨q, stop⟩, hquestion, h⟩ := exists_of_bind_eq_ok h
    obtain ⟨p, hname, rfl⟩ := readQuestion_parts hquestion
    obtain ⟨qs, hqs, hstop, ih⟩ := questionsSize_le limit hlimit count (p + 4) (out ++ [q]) r h
    have hwf : NameWf q.qname := ((readName_reads pos).of_eq hname).1
    have hpos : pos ≤ p := by
      have hsize := (readName_inPlace hname).size
      omega
    refine ⟨q :: qs, by rw [hqs, List.append_assoc, List.singleton_append], by omega, ?_⟩
    intro size known earlier hsize hfits hfull hshared
    have hgrow := sharedSize_name hname hshared.1 hfull
    rw [questionsSize]
    split_ifs with hbig
    · omega
    · have hlabels : labelsLength q.qname.labels + 1 ≤ kMaxNameWireLength := by
        have hwire := hwf.wire
        unfold Name.wireLength at hwire
        unfold labelsLength
        omega
      exact ih _ _ _ (by omega) (by omega) (hfull.step (by omega)) (hshared.2 _ hquestion)

/-! ### The OPT record of the query -/

theorem readName_advances (msg : List UInt8) (pos : ℕ) :
    Returns (fun r : Name × ℕ => pos < r.2) (readName msg pos) := by
  cases h : readName msg pos with
  | error e => exact ends_error trivial
  | ok r =>
    have hsize := (readName_inPlace (h : readName msg pos = .ok (r.1, r.2))).size
    refine ends_ok ?_
    split_ifs at hsize <;> omega

theorem readRecord_advances (msg : List UInt8) (isAdditional : Bool) (pos : ℕ)
    (edns : Option EdnsInfo) :
    Returns (fun r : ℕ × Option RR × Option EdnsInfo => pos + 11 ≤ r.1)
      (readRecord msg isAdditional pos edns) := by
  refine (readName_advances msg pos).bind ?_
  rintro ⟨owner, p⟩ hp
  have hlt : pos < p := hp
  refine ends_ite (fun _ => ends_error trivial) fun _ => ?_
  refine (returns_any _).bind fun type _ => (returns_any _).bind fun cls _ => ?_
  refine (returns_any _).bind fun ttl _ => (returns_any _).bind fun rdlen _ => ?_
  refine ends_ite (fun _ => ends_error trivial) fun _ => ends_ite (fun _ => ?_) fun _ => ?_
  · refine ends_ite (fun _ => ends_error trivial) fun _ => ?_
    refine (returns_any _).bind fun rdata _ => (returns_any _).bind fun info _ => ends_ok ?_
    simp only [Parser.kRRFixedSize]
    omega
  · refine (returns_any _).bind fun rdata _ => ends_ok ?_
    simp only [Parser.kRRFixedSize]
    omega

theorem readSection_advances (msg : List UInt8) (isAdditional : Bool) : ∀ (count pos : ℕ) (out : List RR)
    (edns : Option EdnsInfo) (r : ℕ × List RR × Option EdnsInfo),
    readSection msg isAdditional count pos out edns = .ok r → pos + 11 * count ≤ r.1
  | 0, pos, out, edns, r, h => by
    obtain rfl := Except.ok.inj h
    exact le_rfl
  | count + 1, pos, out, edns, r, h => by
    obtain ⟨⟨p, rr, e⟩, hrecord, h⟩ := exists_of_bind_eq_ok h
    have hfirst : pos + 11 ≤ p := (readRecord_advances msg isAdditional pos edns).of_eq hrecord
    have hrest := readSection_advances msg isAdditional count p _ _ r h
    omega

/-- The OPT record of a query takes as much as that of the refusal. -/
theorem parse_room {query : Message} (h : parse msg = .ok query) :
    ∃ p, readQuestions msg query.header.qdcount.toNat kHeaderSize [] = .ok (p, query.questions) ∧
      p + optSize query ≤ msg.length := by
  obtain ⟨hheader, p₁, p₂, p₃, p₄, e₂, e₃, hquestions, hanswers, hauthority, hadditional⟩ := parse_parts h
  refine ⟨p₁, hquestions, ?_⟩
  have h₀ := ((parseHeader_reads msg).of_eq hheader).1
  have h₁ := ((readQuestions_reads _ _ [] h₀ (by simp)).of_eq hquestions).1
  have h₂ := ((readSection_reads false _ p₁ [] none h₁ (by simp)).of_eq hanswers).1
  have h₃ := ((readSection_reads false _ p₂ [] e₂ h₂ (by simp)).of_eq hauthority).1
  have h₄ := ((readSection_reads true _ p₃ [] e₃ h₃ (by simp)).of_eq hadditional).1
  have a₂ := readSection_advances msg false _ _ _ _ _ hanswers
  have a₃ := readSection_advances msg false _ _ _ _ _ hauthority
  have a₄ := readSection_advances msg true _ _ _ _ _ hadditional
  have hcount := ((parse_reads msg).of_eq h).2.additional
  dsimp only at h₁ h₂ h₃ h₄ a₂ a₃ a₄
  unfold optSize
  split_ifs with hedns
  · have hone : query.edns.toList.length = 1 := by
      obtain ⟨e, he⟩ := Option.isSome_iff_exists.1 hedns
      rw [he]
      rfl
    simp only [kOptRecordSize]
    omega
  · omega

end Query

theorem maxUdpResponseSize_le (edns : Option EdnsInfo) {ourLimit : UInt16}
    (h : ourLimit.toNat ≤ 4096) : (maxUdpResponseSize edns ourLimit).toNat ≤ 4096 := by
  have hupper : (max ourLimit kClassicUdpSize).toNat ≤ 4096 := by
    rw [toNat_max]
    exact max_le h (by decide)
  unfold maxUdpResponseSize
  cases edns with
  | none => show kClassicUdpSize.toNat ≤ 4096; decide
  | some e =>
    dsimp only
    split_ifs with hsmall hbig
    · decide
    · exact hupper
    · rw [UInt16.lt_iff_toNat_lt, not_lt] at hbig
      exact hbig.trans hupper

theorem optSize_le (query : Message) : optSize query ≤ 11 := by
  unfold optSize
  split_ifs
  · exact le_rfl
  · omega

theorem full_nil : Full [] [] := fun _ => iff_of_false List.not_mem_nil (by simp)

theorem sharedSize_nil : ∀ ls : List Label, sharedSize [] ls = labelsLength ls + 1
  | [] => rfl
  | l :: ls => by
    rw [sharedSize, if_neg List.not_mem_nil, sharedSize_nil ls, labelsLength_cons]
    omega

/-- The limit leaves room for one question at least. -/
theorem questionsEnd_single {query : Message} {q : Question} (ourLimit : UInt16) (hq : NameWf q.qname)
    (h : query.questions = [q]) :
    questionsEnd ourLimit query = kHeaderSize + labelsLength q.qname.labels + 5 := by
  have hge := maxUdpResponseSize_ge query.edns ourLimit
  have hopt := optSize_le query
  have hwire := hq.wire
  unfold Name.wireLength at hwire
  unfold questionsEnd
  rw [h, questionsSize, sharedSize_nil, if_neg]
  · rfl
  · simp only [labelsLength, kMaxNameWireLength, kHeaderSize] at hwire ⊢
    omega

/-- A single name that comes out no longer takes nothing from elsewhere. -/
theorem sharedName_of_length {msg : List UInt8} {pos stop : ℕ} {n : Name}
    (h : readName msg pos = .ok (n, stop)) (hfits : pos + labelsLength n.labels + 1 ≤ stop) :
    SharedName msg pos [] n.labels := by
  intro hpointer
  have hwf : NameWf n := ((readName_reads pos).of_eq h).1
  have hsize := (readName_inPlace h).size
  rw [hpointer, if_pos rfl] at hsize
  refine ⟨[], List.mem_cons_self, List.suffix_nil.2 ?_⟩
  generalize (inPlaceLabels msg nameFuel pos).1 = count at hsize
  have hsplit : labelsLength n.labels =
      labelsLength (n.labels.take count) + labelsLength (n.labels.drop count) := by
    unfold labelsLength
    rw [← List.sum_append, ← List.map_append, List.take_append_drop]
  cases hdrop : n.labels.drop count with
  | nil => rfl
  | cons l ls =>
    have hmem : l ∈ n.labels := List.mem_of_mem_drop (hdrop ▸ List.mem_cons_self)
    have hpos := (hwf.label l hmem).1
    rw [hdrop, labelsLength_cons] at hsplit
    omega

/-- **A refusal is no longer than the query if the pointers in the questions lead to the ends of earlier
question names.** A query with one question, and nothing behind it but an OPT record without options, has to
be like that. -/
theorem refusal_no_longer {x : List UInt8} {query : Message} (h : parse x = .ok query) {ourLimit : UInt16}
    (hlimit : ourLimit.toNat ≤ 4096) :
    (Shared x query → (refusal ourLimit query).length ≤ x.length) ∧
    ∀ q stop, query.questions = [q] → readQuestion x kHeaderSize = .ok (q, stop) →
      x.length = stop + optSize query → (refusal ourLimit query).length ≤ x.length → Shared x query := by
  rw [length_refusal ((parse_reads x).of_eq h).1 ourLimit]
  have hopt := optSize_le query
  constructor
  · intro hshared
    have hmax := maxUdpResponseSize_le query.edns hlimit
    have hge := maxUdpResponseSize_ge query.edns ourLimit
    have hheader : kHeaderSize = 12 := rfl
    obtain ⟨p, hquestions, hroom⟩ := parse_room h
    obtain ⟨qs, hqs, -, hsize⟩ := questionsSize_le
      ((maxUdpResponseSize query.edns ourLimit).toNat - optSize query)
      (by simp only [kMaxNameWireLength, kMaxPointerOffset]; omega) _ _ _ _ hquestions
    obtain rfl : query.questions = qs := hqs
    have hend : questionsEnd ourLimit query ≤ p := hsize kHeaderSize [] [] le_rfl (by omega) full_nil hshared
    omega
  · intro q stop hsingle hquestion hlast hfits
    obtain ⟨p, hname, rfl⟩ := readQuestion_parts hquestion
    rw [questionsEnd_single ourLimit ((readName_reads _).of_eq hname).1 hsingle] at hfits
    unfold Shared
    rw [hsingle]
    exact ⟨sharedName_of_length hname (by omega), fun _ _ => trivial⟩

/-- A query for the root. -/
def rootQuery : List UInt8 := [0, 7, 0, 0, 0, 1, 0, 0, 0, 0, 0, 0, 0, 0, 1, 0, 1]

theorem refusal_no_longer_root : ∃ query, parse rootQuery = .ok query ∧ Shared rootQuery query ∧
    (refusal kEdnsUdpPayloadSize query).length ≤ 17 := by
  have hone : (parse rootQuery).toOption.map (fun m => m.questions.length) = some 1 := by
    decide +kernel
  cases hparse : parse rootQuery with
  | error e =>
    rw [hparse] at hone
    cases hone
  | ok query =>
    rw [hparse] at hone
    obtain ⟨q, hq⟩ := List.length_eq_one_iff.1 (Option.some.inj hone)
    have hshared : Shared rootQuery query := by
      unfold Shared
      rw [hq]
      refine ⟨fun hpointer => ?_, fun _ _ => trivial⟩
      exact absurd hpointer (by decide +kernel)
    exact ⟨query, rfl, hshared, (refusal_no_longer hparse (by decide)).1 hshared⟩

/-- A query whose only name is a pointer to the header: the label is its second to fourth byte, and the
root the fifth. -/
def headerQuery : List UInt8 := [3, 97, 0, 0, 0, 1, 0, 0, 0, 0, 0, 0, 0xC0, 0, 0, 1, 0, 1]

theorem refusal_longer_header : ∃ query, parse headerQuery = .ok query ∧ query.header.qr = false ∧
    headerQuery.length = 18 ∧ (refusal kEdnsUdpPayloadSize query).length = 21 := by
  have hcomputed : (parse headerQuery).toOption.any (fun m =>
      !m.header.qr && (refusal kEdnsUdpPayloadSize m).length == 21) = true := by
    decide +kernel
  cases hparse : parse headerQuery with
  | error e =>
    rw [hparse] at hcomputed
    cases hcomputed
  | ok query =>
    rw [hparse] at hcomputed
    simp only [Except.toOption, Option.any_some, Bool.and_eq_true, Bool.not_eq_true',
      beq_iff_eq] at hcomputed
    exact ⟨query, rfl, hcomputed.1, rfl, hcomputed.2⟩

end DNSentinel.Wire.Refusal
