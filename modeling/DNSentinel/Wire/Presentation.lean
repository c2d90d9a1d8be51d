import DNSentinel.Wire.WellFormed

/-! # Presentation format

`Name::from_string` against `Name::to_string`. The loop of `from_string` reads one, two or four
characters for each byte of a label: a character, a backslash and a character, or a backslash and three
digits. It reads back what `escape` has written, byte by byte and label by label. -/

namespace DNSentinel.Wire.Presentation

open DNSentinel.Types WellFormed

/-! ### Reading a name -/

def isDigit (c : UInt8) : Bool := decide (48 ≤ c) && decide (c ≤ 57)

/-- The number that three digits spell. -/
def decimal (d₁ d₂ d₃ : UInt8) : ℕ :=
  (d₁.toNat - 48) * 100 + (d₂.toNat - 48) * 10 + (d₃.toNat - 48)

/-- The locals of `from_string`. -/
structure TextState where
  name : Name := {}
  wireLen : ℕ := 1
  label : Label := []

def finishLabel (s : TextState) : Option TextState :=
  if s.label = [] then none
  else if kMaxNameWireLength < s.wireLen + (1 + s.label.length) then none
  else some { name := s.name.appendLabel s.label, wireLen := s.wireLen + (1 + s.label.length) }

/-- The end of a turn of the loop: `c` is the next byte of the label. -/
def pushByte (s : TextState) (c : UInt8) : Option TextState :=
  if s.label.length = kMaxLabelLength then none else some { s with label := s.label ++ [c] }

/-- The loop of `from_string`. -/
def fromStringLoop : List UInt8 → TextState → Option TextState
  | [], s => some s
  | c :: rest, s =>
    if c = 46 then (finishLabel s).bind fun s => fromStringLoop rest s
    else if c = 92 then
      match rest with
      | [] => none
      | d :: rest =>
        if isDigit d then
          match rest with
          | d₂ :: d₃ :: rest =>
            if !(isDigit d₂ && isDigit d₃) then none
            else if 255 < decimal d d₂ d₃ then none
            else (pushByte s (UInt8.ofNat (decimal d d₂ d₃))).bind fun s => fromStringLoop rest s
          | _ => none
        else (pushByte s d).bind fun s => fromStringLoop rest s
    else (pushByte s c).bind fun s => fromStringLoop rest s

def fromString (text : List UInt8) : Option Name :=
  if text = [46] then some {}
  else if text = [] then none
  else
    (fromStringLoop text {}).bind fun s =>
      if s.label = [] then some s.name else (finishLabel s).map TextState.name

/-! ### Escapes -/

variable {c : UInt8} {s s' : TextState} {n : Name} {rest : List UInt8}

theorem escape_cases (c : UInt8) :
    (Name.escape c = [92, c] ∧ isDigit c = false ∧ 0x21 ≤ c ∧ c ≤ 0x7E) ∨
    (Name.escape c = [c] ∧ c ≠ 46 ∧ c ≠ 92 ∧ 0x21 ≤ c ∧ c ≤ 0x7E) ∨
    ∃ d₁ d₂ d₃, Name.escape c = [92, d₁, d₂, d₃] ∧ isDigit d₁ = true ∧ isDigit d₂ = true ∧
      isDigit d₃ = true ∧ decimal d₁ d₂ d₃ = c.toNat := by
  unfold Name.escape
  by_cases hspecial : Name.needsBackslash c = true
  · rw [if_pos hspecial]
    have hmem : c ∈ ([46, 92, 34, 40, 41, 59, 64, 36] : List UInt8) := by
      simpa [Name.needsBackslash] using hspecial
    refine .inl ⟨rfl, ?_⟩
    simp only [List.mem_cons, List.not_mem_nil, or_false] at hmem
    rcases hmem with rfl | rfl | rfl | rfl | rfl | rfl | rfl | rfl <;> decide
  · rw [if_neg hspecial]
    by_cases hprint : c < 0x21 ∨ 0x7E < c
    · rw [if_pos hprint]
      refine .inr (.inr ⟨_, _, _, rfl, ?_⟩)
      have hc := c.toNat_lt
      simp only [isDigit, decimal, Bool.and_eq_true, decide_eq_true_eq, UInt8.le_iff_toNat_le,
        UInt8.toNat_add, UInt8.toNat_div, UInt8.toNat_mod, UInt8.reduceToNat]
      omega
    · rw [if_neg hprint]
      refine .inr (.inl ⟨rfl, ?_, ?_, ?_⟩)
      · rintro rfl
        exact hspecial (by decide)
      · rintro rfl
        exact hspecial (by decide)
      · rw [not_or, UInt8.not_lt, UInt8.not_lt] at hprint
        exact hprint

theorem fromStringLoop_dot (rest : List UInt8) (s : TextState) :
    fromStringLoop (46 :: rest) s = (finishLabel s).bind fun s => fromStringLoop rest s := by
  rw [fromStringLoop.eq_def]
  rfl

theorem fromStringLoop_plain (hdot : c ≠ 46) (hslash : c ≠ 92) (rest : List UInt8) (s : TextState) :
    fromStringLoop (c :: rest) s = (pushByte s c).bind fun s => fromStringLoop rest s := by
  rw [fromStringLoop.eq_def]
  dsimp only
  rw [if_neg hdot, if_neg hslash]

theorem fromStringLoop_backslash (hdigit : isDigit c = false) (rest : List UInt8) (s : TextState) :
    fromStringLoop (92 :: c :: rest) s = (pushByte s c).bind fun s => fromStringLoop rest s := by
  rw [fromStringLoop.eq_def]
  dsimp only
  rw [if_neg (by decide), if_pos rfl, hdigit]
  rfl

theorem fromStringLoop_decimal {d₁ d₂ d₃ : UInt8} (h₁ : isDigit d₁ = true) (h₂ : isDigit d₂ = true)
    (h₃ : isDigit d₃ = true) (hvalue : decimal d₁ d₂ d₃ = c.toNat) (rest : List UInt8) (s : TextState) :
    fromStringLoop (92 :: d₁ :: d₂ :: d₃ :: rest) s =
      (pushByte s c).bind fun s => fromStringLoop rest s := by
  have hsmall : ¬ 255 < c.toNat := by
    have hc := c.toNat_lt
    omega
  rw [fromStringLoop.eq_def]
  dsimp only
  rw [if_neg (by decide), if_pos rfl, if_pos h₁, h₂, h₃, hvalue, if_neg (by decide), if_neg hsmall,
    UInt8.ofNat_toNat]

theorem fromStringLoop_escape (c : UInt8) (rest : List UInt8) (s : TextState) :
    fromStringLoop (Name.escape c ++ rest) s = (pushByte s c).bind fun s => fromStringLoop rest s := by
  rcases escape_cases c with ⟨heq, hdigit, -⟩ | ⟨heq, hdot, hslash, -⟩ |
    ⟨d₁, d₂, d₃, heq, h₁, h₂, h₃, hvalue⟩
  · rw [heq]
    exact fromStringLoop_backslash hdigit rest s
  · rw [heq]
    exact fromStringLoop_plain hdot hslash rest s
  · rw [heq]
    exact fromStringLoop_decimal h₁ h₂ h₃ hvalue rest s

theorem printable_escape {b : UInt8} (hb : b ∈ Name.escape c) : 0x21 ≤ b ∧ b ≤ 0x7E := by
  have hdigit : ∀ d, isDigit d = true → 0x21 ≤ d ∧ d ≤ 0x7E := by
    intro d hd
    simp only [isDigit, Bool.and_eq_true, decide_eq_true_eq, UInt8.le_iff_toNat_le,
      UInt8.reduceToNat] at hd ⊢
    omega
  rcases escape_cases c with ⟨heq, -, hc⟩ | ⟨heq, -, -, hc⟩ | ⟨d₁, d₂, d₃, heq, h₁, h₂, h₃, -⟩
  · rw [heq] at hb
    rcases List.mem_pair.mp hb with rfl | rfl
    · decide
    · exact hc
  · rw [heq] at hb
    rw [List.mem_singleton.mp hb]
    exact hc
  · rw [heq] at hb
    simp only [List.mem_cons, List.not_mem_nil, or_false] at hb
    rcases hb with rfl | rfl | rfl | rfl
    · decide
    · exact hdigit _ h₁
    · exact hdigit _ h₂
    · exact hdigit _ h₃

/-! ### The round trip -/

theorem fromStringLoop_label : ∀ (l : Label) (rest : List UInt8) (s : TextState),
    s.label.length + l.length ≤ kMaxLabelLength →
      fromStringLoop (l.flatMap Name.escape ++ rest) s =
        fromStringLoop rest { s with label := s.label ++ l }
  | [], rest, s, _ => by simp
  | c :: l, rest, s, hfits => by
    rw [List.length_cons] at hfits
    have hpush : pushByte s c = some { s with label := s.label ++ [c] } := by
      rw [pushByte, if_neg (by omega)]
    rw [List.flatMap_cons, List.append_assoc, fromStringLoop_escape, hpush, Option.bind_some,
      fromStringLoop_label l rest _ (by simp only [List.length_append, List.length_singleton]; omega)]
    simp

/-- The labels are read back, and put in lower case. -/
theorem fromStringLoop_labels : ∀ (labels : List Label) (name : Name) (wireLen : ℕ),
    (∀ l ∈ labels, 1 ≤ l.length ∧ l.length ≤ kMaxLabelLength) →
    wireLen + (labels.map fun l => 1 + l.length).sum ≤ kMaxNameWireLength →
      ∃ wireLen', fromStringLoop (labels.flatMap fun l => l.flatMap Name.escape ++ [46])
        { name, wireLen } = some { name := labels.foldl Name.appendLabel name, wireLen := wireLen' }
  | [], name, wireLen, _, _ => ⟨wireLen, by simp [fromStringLoop]⟩
  | l :: labels, name, wireLen, hlabels, hwire => by
    obtain ⟨hone, hmax⟩ := hlabels l List.mem_cons_self
    rw [List.map_cons, List.sum_cons] at hwire
    have hne : l ≠ [] := by
      rintro rfl
      simp at hone
    have hfinish : finishLabel { name, wireLen, label := l } =
        some { name := name.appendLabel l, wireLen := wireLen + (1 + l.length) } := by
      rw [finishLabel, if_neg hne, if_neg (by dsimp only; omega)]
    obtain ⟨wireLen', hrest⟩ := fromStringLoop_labels labels (name.appendLabel l)
      (wireLen + (1 + l.length)) (fun l' hl' => hlabels l' (List.mem_cons_of_mem _ hl')) (by omega)
    refine ⟨wireLen', ?_⟩
    rw [List.flatMap_cons, List.append_assoc, fromStringLoop_label l _ _ (by simpa using hmax),
      List.nil_append, List.singleton_append, fromStringLoop_dot, hfinish, Option.bind_some, hrest]
    rfl

theorem labels_foldl_appendLabel (labels : List Label) (n : Name) :
    (labels.foldl Name.appendLabel n).labels = n.labels ++ labels.map lowerLabel := by
  induction labels generalizing n with
  | nil => simp
  | cons l labels ih =>
    rw [List.foldl_cons, ih, Name.appendLabel]
    simp

theorem lowerLabel_lowerLabel (l : Label) : lowerLabel (lowerLabel l) = lowerLabel l := by
  have hlower : ∀ c, asciiLower (asciiLower c) = asciiLower c := by
    intro c
    unfold asciiLower
    by_cases hupper : 0x41 ≤ c ∧ c ≤ 0x5A
    · rw [if_pos hupper]
      refine if_neg ?_
      simp only [UInt8.le_iff_toNat_le, UInt8.toNat_add, UInt8.toNat_sub, UInt8.reduceToNat] at hupper ⊢
      omega
    · rw [if_neg hupper, if_neg hupper]
  unfold lowerLabel
  rw [List.map_map]
  exact List.map_congr_left fun c _ => hlower c

/-- **What `to_string` writes, `from_string` reads.** -/
theorem fromString_toString (h : NameWf n) : ∃ m, fromString n.toString = some m ∧ (m == n) = true := by
  by_cases hroot : n.labels = []
  · refine ⟨{}, ?_, Name.beq_iff.mpr hroot.symm⟩
    rw [Name.toString, if_pos hroot]
    rfl
  · obtain ⟨wireLen, hloop⟩ := fromStringLoop_labels n.labels {} 1 h.label h.wire
    have hlong : 2 ≤ n.toString.length := by
      obtain ⟨l, labels, hcons⟩ := List.exists_cons_of_ne_nil hroot
      obtain ⟨hone, -⟩ := h.label l (by rw [hcons]; exact List.mem_cons_self)
      obtain ⟨c, l', rfl⟩ := List.exists_cons_of_length_pos hone
      have hescape : 1 ≤ (Name.escape c).length := by
        rcases escape_cases c with ⟨heq, -⟩ | ⟨heq, -⟩ | ⟨_, _, _, heq, -⟩
        all_goals simp [heq]
      rw [Name.toString, if_neg hroot, hcons]
      simp only [List.flatMap_cons, List.length_append, List.length_singleton]
      omega
    have hdot : n.toString ≠ [46] := fun heq => by simp [heq] at hlong
    have hempty : n.toString ≠ [] := fun heq => by simp [heq] at hlong
    refine ⟨n.labels.foldl Name.appendLabel {}, ?_, ?_⟩
    · rw [fromString, if_neg hdot, if_neg hempty, Name.toString, if_neg hroot]
      show Option.bind (fromStringLoop _ { name := {}, wireLen := 1 }) _ = _
      rw [hloop]
      rfl
    · rw [Name.beq_iff, labels_foldl_appendLabel]
      show n.labels.map lowerLabel = n.labels
      rw [h.lower, List.map_map]
      exact List.map_congr_left fun l _ => lowerLabel_lowerLabel l

/-! ### What is accepted -/

/-- The name so far is well formed, and the label so far is not too long. -/
structure StateWf (s : TextState) : Prop where
  name : NameWf s.name
  wireLen : s.wireLen = s.name.wireLength
  label : s.label.length ≤ kMaxLabelLength

theorem StateWf.finishLabel (h : StateWf s) (hs : finishLabel s = some s') : StateWf s' := by
  unfold Presentation.finishLabel at hs
  split_ifs at hs with hempty hlong
  obtain rfl := Option.some.inj hs
  have hpos : 1 ≤ s.label.length := List.length_pos_of_ne_nil hempty
  have hwire := h.wireLen
  refine ⟨h.name.appendLabel hpos h.label (by omega), ?_, Nat.zero_le _⟩
  rw [wireLength_appendLabel]
  dsimp only
  omega

theorem StateWf.pushByte (h : StateWf s) (hs : pushByte s c = some s') : StateWf s' := by
  unfold Presentation.pushByte at hs
  split_ifs at hs with hfull
  obtain rfl := Option.some.inj hs
  have hlabel := h.label
  refine ⟨h.name, h.wireLen, ?_⟩
  rw [List.length_append, List.length_singleton]
  omega

/-- Every turn of the loop keeps the state well formed. -/
theorem StateWf.fromStringLoop (text : List UInt8) (h : StateWf s)
    (hs : fromStringLoop text s = some s') : StateWf s' := by
  fun_induction Presentation.fromStringLoop text s with
  | case1 s =>
    obtain rfl := Option.some.inj hs
    exact h
  | case2 rest s ih =>
    obtain ⟨s₁, hfinish, hrest⟩ := Option.bind_eq_some_iff.mp hs
    exact ih s₁ (h.finishLabel hfinish) hrest
  | case3 | case4 | case5 | case7 => cases hs
  | case6 _ _ _ _ _ _ _ _ _ ih | case8 _ _ _ _ _ ih | case9 _ _ _ _ _ ih =>
    obtain ⟨s₁, hpush, hrest⟩ := Option.bind_eq_some_iff.mp hs
    exact ih s₁ (h.pushByte hpush) hrest

theorem nameWf_fromString {text : List UInt8} (h : fromString text = some n) : NameWf n := by
  unfold fromString at h
  split_ifs at h with hroot hempty
  · obtain rfl := Option.some.inj h
    exact nameWf_root
  · obtain ⟨s, hloop, hend⟩ := Option.bind_eq_some_iff.mp h
    have hs : StateWf s := StateWf.fromStringLoop text ⟨nameWf_root, rfl, Nat.zero_le _⟩ hloop
    split_ifs at hend
    · obtain rfl := Option.some.inj hend
      exact hs.name
    · obtain ⟨s', hfinish, rfl⟩ := Option.map_eq_some_iff.mp hend
      exact (hs.finishLabel hfinish).name

/-! ### The codec -/

theorem printable_toString (n : Name) : ∀ b ∈ n.toString, 0x21 ≤ b ∧ b ≤ 0x7E := by
  intro b hb
  unfold Name.toString at hb
  split_ifs at hb
  · rw [List.mem_singleton.mp hb]
    decide
  · obtain ⟨l, -, hb⟩ := List.mem_flatMap.mp hb
    rcases List.mem_append.mp hb with hb | hb
    · obtain ⟨c, -, hb⟩ := List.mem_flatMap.mp hb
      exact printable_escape hb
    · rw [List.mem_singleton.mp hb]
      decide

theorem toString_inj {m : Name} (hn : NameWf n) (hm : NameWf m) (h : n.toString = m.toString) :
    (n == m) = true := by
  obtain ⟨n', hn', heq⟩ := fromString_toString hn
  obtain ⟨m', hm', heq'⟩ := fromString_toString hm
  obtain rfl : n' = m' := Option.some.inj (hn'.symm.trans ((congrArg fromString h).trans hm'))
  rw [Name.beq_iff] at heq heq' ⊢
  exact heq.symm.trans heq'

/-- **Presentation format is a faithful codec for names.** -/
theorem presentation_codec :
    (∀ n, NameWf n → (∃ m, fromString n.toString = some m ∧ (m == n) = true) ∧
      ∀ b ∈ n.toString, 0x21 ≤ b ∧ b ≤ 0x7E) ∧
    (∀ n m, NameWf n → NameWf m → n.toString = m.toString → (n == m) = true) ∧
    ∀ text n, fromString text = some n →
      (∀ l ∈ n.labels, 1 ≤ l.length ∧ l.length ≤ kMaxLabelLength) ∧
      n.wireLength ≤ kMaxNameWireLength ∧ n.labels = n.originalCase.map lowerLabel ∧
      ∃ m, fromString n.toString = some m ∧ (m == n) = true := by
  refine ⟨fun n hn => ⟨fromString_toString hn, printable_toString n⟩,
    fun n m hn hm h => toString_inj hn hm h, fun text n h => ?_⟩
  have hn := nameWf_fromString h
  exact ⟨hn.label, hn.wire, hn.lower, fromString_toString hn⟩

/-- `A\.\001.b`, with a dot and an unprintable byte in its first label. -/
def escapedText : List UInt8 := [65, 92, 46, 92, 48, 48, 49, 46, 98]

def escapedName : Name := ⟨[[97, 46, 1], [98]], [[65, 46, 1], [98]]⟩

theorem presentation_codec_escaped : fromString escapedText = some escapedName ∧
    escapedName.toString = [97, 92, 46, 92, 48, 48, 49, 46, 98, 46] ∧
      ∃ m, fromString escapedName.toString = some m ∧ (m == escapedName) = true :=
  ⟨rfl, by decide, (presentation_codec.2.2 escapedText escapedName rfl).2.2.2⟩

end DNSentinel.Wire.Presentation
