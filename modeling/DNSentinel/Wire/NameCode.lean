import DNSentinel.Lib.Buffer
import DNSentinel.Wire.Builder
import DNSentinel.Wire.Parser
import DNSentinel.Wire.WellFormed

/-! # Encoded names

`NameAt buf seg pos raws j next`: in `buf`, from `pos` on, stands an encoding of the labels `raws`,
for a reader that started its segment at `seg`: labels in place, then the zero byte or a pointer to a
position before `seg` where the rest stands, and so on; `j` counts the pointers and `next` is the
position after the bytes in place. A pointer leads to a label, so there are at most as many pointers
as labels. No position of the encoding is in the header, whose bytes are written last.

* `readName_of_nameAt`: the parser reads such an encoding.
* `TableOk w`: every entry of the compression table of `w` points at the encoding of its suffix.
* `name_written`: `Writer::name` leaves an encoding of the name, and a table that is still right.

While a name is being written, the table already holds its own longer suffixes, which are not yet
complete; they cannot match, because a key determines its length (`Pending`). -/

namespace DNSentinel.Wire.NameCode

open DNSentinel.Types ByteIo Builder WellFormed Lib.Buffer
open Wire.Parser (NameState readNameLoop readName nameFuel kMaxPointerJumps)

/-! ### Reading what stands in the buffer -/

variable {buf msg : List UInt8} {pos : ℕ}

theorem byteAt_of_getElem {b : UInt8} (h : buf[pos]? = some b) : byteAt buf pos = .ok b := by
  unfold byteAt; rw [h]

theorem loadU16_of_at {v : UInt16} (h : At buf pos (putU16 v)) : loadU16 buf pos = .ok v := by
  obtain ⟨h0, h1⟩ := at_cons.mp h
  obtain ⟨h1, -⟩ := at_cons.mp h1
  unfold loadU16
  rw [h0, h1]
  exact congrArg _ (u16_put v)

theorem loadU32_of_at {v : UInt32} (h : At buf pos (putU32 v)) : loadU32 buf pos = .ok v := by
  obtain ⟨h0, h1⟩ := at_cons.mp h
  obtain ⟨h1, h2⟩ := at_cons.mp h1
  obtain ⟨h2, h3⟩ := at_cons.mp h2
  obtain ⟨h3, -⟩ := at_cons.mp h3
  unfold loadU32
  rw [h0, h1, h2, h3]
  exact congrArg _ (u32_put v)

theorem slice_of_at {xs : List UInt8} (h : At buf pos xs) (hle : pos + xs.length ≤ buf.length) :
    slice buf pos xs.length = .ok xs := by
  rw [slice_of_le hle, h.drop_take]

/-! ### Length bytes and pointers -/

theorem length_byte {n : ℕ} (h1 : 1 ≤ n) (h63 : n ≤ kMaxLabelLength) :
    UInt8.ofNat n &&& 0xC0 = 0x00 ∧ UInt8.ofNat n ≠ 0 ∧ (UInt8.ofNat n).toNat = n := by
  have key : ∀ m : Fin 64, 1 ≤ m.val → UInt8.ofNat m.val &&& 0xC0 = 0x00 ∧
      UInt8.ofNat m.val ≠ 0 ∧ (UInt8.ofNat m.val).toNat = m.val := by decide +kernel
  exact key ⟨n, by unfold kMaxLabelLength at h63; omega⟩ h1

theorem toNat_pointer {off : UInt16} (h : off.toNat ≤ kMaxPointerOffset) :
    (0xC000 ||| off).toNat = 0xC000 + off.toNat := by
  unfold kMaxPointerOffset at h
  rw [UInt16.toNat_or]
  exact or_eq_add (x := 3) (i := 14) (by omega)

theorem and_top_bits {b : UInt8} (h : 192 ≤ b.toNat) : b &&& 0xC0 = 0xC0 := by
  have key : ∀ m : Fin 256, 192 ≤ m.val → UInt8.ofNat m.val &&& 0xC0 = 0xC0 := by decide +kernel
  have hb := key ⟨b.toNat, b.toNat_lt⟩ h
  rwa [UInt8.ofNat_toNat] at hb

theorem pointer_byte {off : UInt16} (h : off.toNat ≤ kMaxPointerOffset) :
    ((0xC000 ||| off) >>> 8).toUInt8 &&& 0xC0 = 0xC0 := by
  have hv := toNat_pointer h
  unfold kMaxPointerOffset at h
  refine and_top_bits ?_
  rw [UInt16.toNat_toUInt8, UInt16.toNat_shiftRight, hv, Nat.shiftRight_eq_div_pow]
  simp only [UInt16.reduceToNat, Nat.reduceMod, Nat.reducePow]
  omega

theorem pointer_target {off : UInt16} (h : off.toNat ≤ kMaxPointerOffset) :
    ((0xC000 ||| off) &&& 0x3FFF).toNat = off.toNat := by
  rw [UInt16.toNat_and, toNat_pointer h]
  unfold kMaxPointerOffset at h
  rw [show (0x3FFF : UInt16).toNat = 2 ^ 14 - 1 from rfl, Nat.and_two_pow_sub_one_eq_mod]
  omega

/-! ### Encodings of a name -/

/-- The bytes of one label. -/
def labelBytes (raw : Label) : List UInt8 := UInt8.ofNat raw.length :: raw

/-- **An encoding of `raws`** from `pos` on, with `j` pointers, in place up to `next`. -/
inductive NameAt (buf : List UInt8) : ℕ → ℕ → List Label → ℕ → ℕ → Prop
  | root {seg pos : ℕ} (hpos : kHeaderSize ≤ pos) (h : buf[pos]? = some 0) :
      NameAt buf seg pos [] 0 (pos + 1)
  | label {seg pos : ℕ} {raw : Label} {raws : List Label} {j next : ℕ} (hpos : kHeaderSize ≤ pos)
      (h1 : 1 ≤ raw.length) (h63 : raw.length ≤ kMaxLabelLength) (h : At buf pos (labelBytes raw))
      (rest : NameAt buf seg (pos + 1 + raw.length) raws j next) :
      NameAt buf seg pos (raw :: raws) j next
  | pointer {seg pos : ℕ} {off : UInt16} {raws : List Label} {j next : ℕ}
      (hpos : kHeaderSize ≤ pos) (hoff : off.toNat ≤ kMaxPointerOffset) (hseg : off.toNat < seg)
      (h : At buf pos (putU16 (0xC000 ||| off)))
      (rest : NameAt buf off.toNat off.toNat raws j next) (hj : j < raws.length) :
      NameAt buf seg pos raws (j + 1) (pos + 2)

namespace NameAt

variable {seg seg' next j : ℕ} {raws : List Label}

theorem jumps_le (h : NameAt buf seg pos raws j next) : j ≤ raws.length := by
  induction h with
  | root => exact le_rfl
  | label _ _ _ _ _ ih => simp only [List.length_cons]; omega
  | pointer _ _ _ _ _ hj _ => exact hj

/-- A later version of the buffer still holds the encoding. -/
theorem above {buf' : List UInt8} (h : NameAt buf seg pos raws j next)
    (ha : Above kHeaderSize buf buf') : NameAt buf' seg pos raws j next := by
  induction h with
  | root hpos h =>
    refine .root hpos ?_
    rw [ha _ hpos (List.getElem?_eq_some_iff.mp h).1, h]
  | label hpos h1 h63 h _ ih => exact .label hpos h1 h63 (h.above ha hpos) ih
  | pointer hpos hoff hseg h _ hj ih => exact .pointer hpos hoff hseg (h.above ha hpos) ih hj

/-- The encoding also serves a reader whose segment starts later. -/
theorem seg_le (h : NameAt buf seg pos raws j next) (hle : seg ≤ seg') :
    NameAt buf seg' pos raws j next := by
  induction h with
  | root hpos h => exact .root hpos h
  | label hpos h1 h63 h _ ih => exact .label hpos h1 h63 h (ih hle)
  | pointer hpos hoff hseg h rest hj _ => exact .pointer hpos hoff (by omega) h rest hj

theorem next_le (h : NameAt buf seg pos raws j next) : pos < next ∧ next ≤ buf.length := by
  induction h with
  | root _ h => exact ⟨by omega, (List.getElem?_eq_some_iff.mp h).1⟩
  | label _ _ _ _ _ ih => exact ⟨by omega, ih.2⟩
  | pointer _ _ _ h _ _ _ => exact ⟨by omega, h.length_le (by simp [putU16])⟩

end NameAt

/-- The labels `raws`, appended one after the other. -/
def appendLabels (n : Name) (raws : List Label) : Name := raws.foldl Name.appendLabel n

theorem labels_appendLabels : ∀ (raws : List Label) (n : Name),
    (appendLabels n raws).labels = n.labels ++ raws.map lowerLabel
  | [], n => by simp [appendLabels]
  | raw :: raws, n => by
    have ih := labels_appendLabels raws (n.appendLabel raw)
    simp only [appendLabels, List.foldl_cons] at ih ⊢
    rw [ih]
    simp [Name.appendLabel]

/-- Bytes the labels take on the wire, without the final zero byte. -/
def labelsLength (raws : List Label) : ℕ := (raws.map fun l => 1 + l.length).sum

theorem NameAt.length_le {seg j next : ℕ} {raws : List Label}
    (h : NameAt buf seg pos raws j next) : 2 * raws.length ≤ labelsLength raws := by
  induction h with
  | root => exact le_rfl
  | label _ h1 _ _ _ ih =>
    simp only [labelsLength, List.map_cons, List.sum_cons, List.length_cons] at ih ⊢
    omega
  | pointer _ _ _ _ _ _ ih => exact ih

/-- **The loop of `read_name` on an encoding**: the labels are appended, and the position returned
is the one after the bytes in place unless a jump has fixed it already. -/
theorem readNameLoop_of_nameAt {seg pos j next : ℕ} {raws : List Label}
    (h : NameAt msg seg pos raws j next) : ∀ (fuel : ℕ) (s : NameState), s.cur = pos →
    s.segmentStart = seg → s.wireLen + labelsLength raws ≤ kMaxNameWireLength →
    s.jumps + j ≤ kMaxPointerJumps → raws.length + j < fuel →
    readNameLoop msg fuel s = .ok (appendLabels s.name raws, if s.jumped then s.pos else next) := by
  induction h with
  | root hpos h =>
    rintro (_ | fuel) s rfl rfl hw hj hf
    · omega
    have hlt := (List.getElem?_eq_some_iff.mp h).1
    unfold readNameLoop
    rw [if_neg (by omega), byteAt_of_getElem h]
    rfl
  | @label seg pos raw raws j next hpos h1 h63 h rest ih =>
    rintro (_ | fuel) s rfl rfl hw hj hf
    · omega
    obtain ⟨hb, hraw⟩ := at_cons.mp h
    obtain ⟨hand, hne, hlen⟩ := length_byte h1 h63
    have hle := h.length_le (by simp [labelBytes])
    simp only [labelBytes, List.length_cons] at hle
    simp only [labelsLength, List.map_cons, List.sum_cons, List.length_cons] at hw hf
    unfold readNameLoop
    rw [if_neg (by omega), byteAt_of_getElem hb]
    simp only [Bind.bind, Except.bind, hand, if_true, if_neg hne, hlen]
    rw [sizeSub_of_le (show s.cur ≤ msg.length by omega), sizeSub_of_le (by omega),
      if_neg (by omega), if_neg (by omega), slice_of_at hraw (by omega)]
    exact ih fuel _ rfl rfl (by simp only [labelsLength]; omega) hj (by omega)
  | @pointer seg pos off raws j next hpos hoff hseg h rest hjl ih =>
    rintro (_ | fuel) s rfl rfl hw hj hf
    · omega
    obtain ⟨hb, -⟩ := at_cons.mp h
    have hle := h.length_le (by simp [putU16])
    simp only [length_putU16] at hle
    have hand := pointer_byte hoff
    have htgt := pointer_target hoff
    unfold readNameLoop
    rw [if_neg (by omega), byteAt_of_getElem hb]
    simp only [Bind.bind, Except.bind, hand, if_true, show ¬ ((0xC0 : UInt8) = 0x00) by decide,
      if_false]
    rw [sizeSub_of_le (by omega), if_neg (by omega), loadU16_of_at h]
    simp only [htgt]
    rw [if_neg (by omega)]
    exact ih fuel _ rfl rfl hw (by dsimp only; omega) (by omega)

theorem labelsLength_eq {n : Name} {raws : List Label} (hraws : raws.map lowerLabel = n.labels) :
    labelsLength raws = n.wireLength - 1 := by
  have h : labelsLength raws = labelsLength (raws.map lowerLabel) := by
    simp [labelsLength, lowerLabel, Function.comp_def]
  rw [h, hraws]
  simp [labelsLength, Name.wireLength]

theorem readName_eq {n : Name} {j next : ℕ} {raws : List Label} (hn : NameWf n)
    (hraws : raws.map lowerLabel = n.labels) (h : NameAt msg pos pos raws j next) :
    readName msg pos = .ok (appendLabels {} raws, next) := by
  have hlen := labelsLength_eq hraws
  have hw := hn.wire
  have hj := h.jumps_le
  have hl := h.length_le
  have h1 : 1 ≤ n.wireLength := by unfold Name.wireLength; omega
  unfold kMaxNameWireLength at hw
  refine readNameLoop_of_nameAt h nameFuel _ rfl rfl ?_ ?_ ?_
  · dsimp only; unfold kMaxNameWireLength; omega
  · dsimp only; unfold kMaxPointerJumps; omega
  · unfold nameFuel kMaxNameWireLength kMaxPointerJumps; omega

/-- **The parser reads an encoded name.** -/
theorem readName_of_nameAt {n : Name} {j next : ℕ} {raws : List Label} (hn : NameWf n)
    (hraws : raws.map lowerLabel = n.labels) (h : NameAt msg pos pos raws j next) :
    ∃ n', readName msg pos = .ok (n', next) ∧ n'.labels = n.labels :=
  ⟨_, readName_eq hn hraws h, by rw [labels_appendLabels]; simpa using hraws⟩

/-- In place, an encoding takes no more bytes than the name without compression. -/
theorem NameAt.size_le {seg j next : ℕ} {raws : List Label}
    (h : NameAt buf seg pos raws j next) : next ≤ pos + labelsLength raws + 1 := by
  induction h with
  | root => simp [labelsLength]
  | label _ _ _ _ _ ih =>
    simp only [labelsLength, List.map_cons, List.sum_cons] at ih ⊢
    omega
  | pointer _ _ _ _ rest hj _ =>
    have := rest.length_le
    omega

/-! ### Keys of the compression table -/

theorem suffixKey_injective : ∀ {ls ls' : List Label}, (∀ l ∈ ls, l.length ≤ kMaxLabelLength) →
    (∀ l ∈ ls', l.length ≤ kMaxLabelLength) → suffixKey ls = suffixKey ls' → ls = ls'
  | [], [], _, _, _ => rfl
  | [], _ :: _, _, _, h => by simp [suffixKey] at h
  | _ :: _, [], _, _, h => by simp [suffixKey] at h
  | l :: ls, l' :: ls', hl, hl', h => by
    simp only [suffixKey, List.cons.injEq] at h
    have h63 := hl l List.mem_cons_self
    have h63' := hl' l' List.mem_cons_self
    unfold kMaxLabelLength at h63 h63'
    have hlen : l.length = l'.length := by
      have := congrArg UInt8.toNat h.1
      rwa [UInt8.toNat_ofNat_of_lt' (by simp [UInt8.size]; omega),
        UInt8.toNat_ofNat_of_lt' (by simp [UInt8.size]; omega)] at this
    obtain ⟨rfl, hrest⟩ := List.append_inj h.2 hlen
    rw [suffixKey_injective (fun x hx => hl x (List.mem_cons_of_mem _ hx))
      (fun x hx => hl' x (List.mem_cons_of_mem _ hx)) hrest]

theorem NameAt.label_le {seg j next : ℕ} {raws : List Label}
    (h : NameAt buf seg pos raws j next) : ∀ l ∈ raws.map lowerLabel, l.length ≤ kMaxLabelLength := by
  induction h with
  | root => simp
  | label _ _ h63 _ _ ih =>
    intro l hl
    rcases List.mem_cons.mp hl with rfl | hl
    · simpa [lowerLabel] using h63
    · exact ih l hl
  | pointer _ _ _ _ _ _ ih => exact ih

/-- A table entry is right: at its offset stands an encoding of the suffix whose key it has, and
the offset fits a pointer. -/
def EntryOk (out : List UInt8) (e : List UInt8 × UInt16) : Prop :=
  ∃ raws j next, e.1 = suffixKey (raws.map lowerLabel) ∧ j < raws.length ∧
    e.2.toNat ≤ kMaxPointerOffset ∧ NameAt out e.2.toNat e.2.toNat raws j next

theorem entryOk_of_nameAt {out : List UInt8} {e : List UInt8 × UInt16} {raws : List Label}
    {j next : ℕ} (hkey : e.1 = suffixKey (raws.map lowerLabel)) (hj : j < raws.length)
    (hoff : e.2.toNat = pos) (hmax : pos ≤ kMaxPointerOffset) (h : NameAt out pos pos raws j next) :
    EntryOk out e := by
  subst hoff
  exact ⟨raws, j, next, hkey, hj, hmax, h⟩

theorem EntryOk.above {a b : List UInt8} {e : List UInt8 × UInt16} (h : EntryOk a e)
    (hab : Above kHeaderSize a b) : EntryOk b e := by
  obtain ⟨raws, j, next, hkey, hj, hoff, hn⟩ := h
  exact ⟨raws, j, next, hkey, hj, hoff, hn.above hab⟩

theorem EntryOk.offset_lt {out : List UInt8} {e : List UInt8 × UInt16} (h : EntryOk out e) :
    e.2.toNat < out.length := by
  obtain ⟨raws, j, next, -, -, -, hn⟩ := h
  have := hn.next_le
  omega

/-- A writer past the header whose table is right. -/
structure WriterOk (w : Writer) : Prop where
  header : kHeaderSize ≤ w.size
  table : ∀ e ∈ w.suffixes, EntryOk w.out e

theorem WriterOk.push {w : Writer} (h : WriterOk w) (bytes : List UInt8) :
    WriterOk (w.push bytes) where
  header := by
    have := h.header
    simp only [Writer.size, Writer.push, List.length_append] at this ⊢
    omega
  table e he := (h.table e he).above (above_append _ _ _)

/-! ### Writers only append

`Appends f`: what `f` appends, and the table entries it adds, depend on the table and on the number
of bytes already written, not on those bytes; the new entries point at or past the old end. -/

/-- What is appended, and the entries added, for a writer with this flag, table and size. -/
abbrev Code := Bool → List (List UInt8 × UInt16) → ℕ → List UInt8 × List (List UInt8 × UInt16)

/-- Append the bytes and entries of `code`. -/
def Code.write (code : Code) (w : Writer) : Writer :=
  let c := code w.compress w.suffixes w.size
  { w with out := w.out ++ c.1, suffixes := c.2 ++ w.suffixes }

def Appends (f : Writer → Writer) : Prop :=
  ∃ code : Code, (∀ w, f w = code.write w) ∧
    ∀ c table size, ∀ e ∈ (code c table size).2, size ≤ e.2.toNat

theorem appends_push (bytes : List UInt8) : Appends fun w => w.push bytes :=
  ⟨fun _ _ _ => (bytes, []), fun _ => rfl, by simp⟩

theorem appends_id : Appends id :=
  ⟨fun _ _ _ => ([], []), fun w => by simp [Code.write], by simp⟩

theorem Appends.comp {f g : Writer → Writer} (hg : Appends g) (hf : Appends f) :
    Appends fun w => g (f w) := by
  obtain ⟨cf, hcf, hof⟩ := hf
  obtain ⟨cg, hcg, hog⟩ := hg
  refine ⟨fun c table size =>
    let x := cf c table size
    let y := cg c (x.2 ++ table) (size + x.1.length)
    (x.1 ++ y.1, y.2 ++ x.2), fun w => ?_, fun c table size e he => ?_⟩
  · simp [hcf, hcg, Code.write, Writer.size, List.length_append]
  · rcases List.mem_append.mp he with he | he
    · have := hog _ _ _ e he
      omega
    · exact hof _ _ _ e he

/-- The entry made for a suffix that starts at `size`, if a pointer can reach it. -/
def newEntry (key : List UInt8) (size : ℕ) : List (List UInt8 × UInt16) :=
  if size ≤ kMaxPointerOffset then [(key, UInt16.ofNat size)] else []

theorem offset_newEntry {key : List UInt8} {size : ℕ} {e : List UInt8 × UInt16}
    (he : e ∈ newEntry key size) :
    e.1 = key ∧ e.2.toNat = size ∧ size ≤ kMaxPointerOffset := by
  unfold newEntry at he
  split_ifs at he with hle
  · rw [List.mem_singleton.mp he]
    refine ⟨rfl, UInt16.toNat_ofNat_of_lt' ?_, hle⟩
    unfold kMaxPointerOffset at hle
    simp [UInt16.size]
    omega
  · simp at he

section NameLoop

variable {label text : Label} {rest : List (Label × Label)} {w : Writer}

/-- The key under which the loop looks for the labels that are left. -/
def keyOf (ps : List (Label × Label)) : List UInt8 := suffixKey (ps.map Prod.fst)

theorem nameLoop_plain (hc : w.compress = false) :
    nameLoop ((label, text) :: rest) w = nameLoop rest (w.push (labelBytes text)) := by
  rw [nameLoop, if_neg (by simp [hc])]
  rfl

theorem nameLoop_hit {off : UInt16} (hc : w.compress = true)
    (h : w.suffixes.lookup (keyOf ((label, text) :: rest)) = some off) :
    nameLoop ((label, text) :: rest) w = w.push (putU16 (0xC000 ||| off)) := by
  simp only [keyOf, List.map_cons] at h
  rw [nameLoop, if_pos hc]
  simp only [h]

theorem nameLoop_miss (hc : w.compress = true)
    (h : w.suffixes.lookup (keyOf ((label, text) :: rest)) = none) :
    nameLoop ((label, text) :: rest) w =
      nameLoop rest
        { w with
          out := w.out ++ labelBytes text
          suffixes := newEntry (keyOf ((label, text) :: rest)) w.size ++ w.suffixes } := by
  simp only [keyOf, List.map_cons] at h ⊢
  rw [nameLoop, if_pos hc]
  simp only [h]
  unfold newEntry Writer.size
  split_ifs <;> rfl

end NameLoop

theorem appends_nameLoop : ∀ ps : List (Label × Label), Appends (nameLoop ps)
  | [] => appends_push [0]
  | (label, text) :: rest => by
    obtain ⟨code, hcode, hoff⟩ := appends_nameLoop rest
    -- what follows the label, for a table that `new` has been added to
    let go : Bool → List (List UInt8 × UInt16) → ℕ → List (List UInt8 × UInt16) →
        List UInt8 × List (List UInt8 × UInt16) := fun c table size new =>
      let x := code c (new ++ table) (size + (labelBytes text).length)
      (labelBytes text ++ x.1, x.2 ++ new)
    refine ⟨fun c table size =>
      match c, table.lookup (keyOf ((label, text) :: rest)) with
      | false, _ => go c table size []
      | true, some off => (putU16 (0xC000 ||| off), [])
      | true, none => go c table size (newEntry (keyOf ((label, text) :: rest)) size),
      fun w => ?_, fun c table size e he => ?_⟩
    · unfold Code.write
      cases hc : w.compress with
      | false => simp [nameLoop_plain hc, hcode, Code.write, go, Writer.size, Writer.push, hc]
      | true =>
        cases h : w.suffixes.lookup (keyOf ((label, text) :: rest)) with
        | some off => simp [nameLoop_hit hc h, Writer.push, hc, h]
        | none => simp [nameLoop_miss hc h, hcode, Code.write, go, Writer.size, hc, h]
    · have hgo : ∀ new, (∀ e ∈ new, size ≤ e.2.toNat) → e ∈ (go c table size new).2 →
          size ≤ e.2.toNat := by
        intro new hnew he
        rcases List.mem_append.mp he with he | he
        · have := hoff _ _ _ e he
          omega
        · exact hnew e he
      dsimp only at he
      split at he
      · exact hgo [] (by simp) he
      · simp at he
      · exact hgo _ (fun e he => (offset_newEntry he).2.1.ge) he

theorem appends_name (n : Name) : Appends fun w => w.name n := appends_nameLoop _

section Appends

variable {f : Writer → Writer} {w : Writer}

theorem Appends.out (hf : Appends f) (w : Writer) : ∃ x, (f w).out = w.out ++ x := by
  obtain ⟨code, hcode, -⟩ := hf
  exact ⟨_, by rw [hcode]; rfl⟩

theorem Appends.above (hf : Appends f) (w : Writer) : Above kHeaderSize w.out (f w).out := by
  obtain ⟨x, hx⟩ := hf.out w
  rw [hx]
  exact above_append _ _ _

theorem Appends.size_le (hf : Appends f) (w : Writer) : w.size ≤ (f w).size := by
  obtain ⟨x, hx⟩ := hf.out w
  simp [Writer.size, hx]

/-- **Taking back what was appended** gives the writer from before, table included. -/
theorem Appends.rollback (hf : Appends f) (hw : WriterOk w) : (f w).rollback w.size = w := by
  obtain ⟨code, hcode, hoff⟩ := hf
  have hnew : (code w.compress w.suffixes w.size).2.filter
      (fun e => !decide (w.size ≤ e.2.toNat)) = [] := by
    simpa [List.filter_eq_nil_iff] using fun a b h => hoff _ _ _ (a, b) h
  have hold : w.suffixes.filter (fun e => !decide (w.size ≤ e.2.toNat)) = w.suffixes := by
    rw [List.filter_eq_self]
    intro e he
    have hlt := (hw.table e he).offset_lt
    rw [Bool.not_eq_true', decide_eq_false_iff_not]
    exact not_le.mpr hlt
  rw [hcode]
  unfold Writer.rollback Code.write
  simp only [List.filter_append, hnew, hold, List.nil_append]
  simp [Writer.size]

end Appends

/-! ### Writing a name -/

/-- The pairs of a canonical label and the form it is written in. -/
def PairsOk (ps : List (Label × Label)) : Prop :=
  ∀ p ∈ ps, p.1 = lowerLabel p.2 ∧ 1 ≤ p.2.length ∧ p.2.length ≤ kMaxLabelLength

/-- The table while the labels `ps` of a name that starts at `seg` are still to be written: the
entries made for this name have longer keys, all others are right and point before `seg`. -/
def Pending (w : Writer) (seg : ℕ) (ps : List (Label × Label)) : Prop :=
  ∀ e ∈ w.suffixes, (keyOf ps).length < e.1.length ∨ EntryOk w.out e ∧ e.2.toNat < seg

theorem length_keyOf_cons (p : Label × Label) (ps : List (Label × Label)) :
    (keyOf ps).length < (keyOf (p :: ps)).length := by
  simp only [keyOf, List.map_cons, suffixKey, List.length_cons, List.length_append]
  omega

theorem Pending.tail {w : Writer} {seg : ℕ} {p : Label × Label} {ps : List (Label × Label)}
    (h : Pending w seg (p :: ps)) (bytes : List UInt8) : Pending (w.push bytes) seg ps := by
  intro e he
  have := length_keyOf_cons p ps
  rcases h e he with h | ⟨h, hlt⟩
  · exact .inl (by omega)
  · exact .inr ⟨h.above (above_append _ _ _), hlt⟩

/-- A pointer to a suffix found in the table is an encoding of it. -/
theorem pointer_written {w : Writer} {seg : ℕ} {off : UInt16} {p : Label × Label}
    {ps : List (Label × Label)} (hh : kHeaderSize ≤ w.size) (hpend : Pending w seg (p :: ps))
    (hps : PairsOk (p :: ps)) (hl : w.suffixes.lookup (keyOf (p :: ps)) = some off) :
    ∃ raws j, raws.map lowerLabel = (p :: ps).map Prod.fst ∧
      NameAt (w.push (putU16 (0xC000 ||| off))).out seg w.size raws j
        (w.push (putU16 (0xC000 ||| off))).size := by
  have hmem : (keyOf (p :: ps), off) ∈ w.suffixes := by
    obtain ⟨l₁, l₂, heq, -⟩ := List.lookup_eq_some_iff.mp hl
    simp [heq]
  rcases hpend _ hmem with h | ⟨h, hlt⟩
  · exact absurd h (lt_irrefl _)
  obtain ⟨raws, j, next, hkey, hj, hoff, hn⟩ := h
  have hraws := suffixKey_injective hn.label_le ?_ hkey.symm
  · refine ⟨raws, j + 1, hraws, ?_⟩
    have hsize : (w.push (putU16 (0xC000 ||| off))).size = w.size + 2 := by
      simp [Writer.push, Writer.size]
    rw [hsize]
    exact .pointer hh hoff hlt (at_end _ _) (hn.above (above_append _ _ _)) hj
  · intro l hl
    obtain ⟨q, hq, rfl⟩ := List.mem_map.mp hl
    rw [(hps q hq).1]
    simpa [lowerLabel] using (hps q hq).2.2

/-- **The loop of `Writer::name`** leaves an encoding of the labels; every entry it adds is right. -/
theorem nameLoop_written (seg : ℕ) : ∀ (ps : List (Label × Label)) (w : Writer), PairsOk ps →
    kHeaderSize ≤ w.size → seg ≤ w.size → Pending w seg ps →
    (∃ raws j, raws.map lowerLabel = ps.map Prod.fst ∧
      NameAt (nameLoop ps w).out seg w.size raws j (nameLoop ps w).size) ∧
    ∀ e ∈ (nameLoop ps w).suffixes, e ∈ w.suffixes ∨ EntryOk (nameLoop ps w).out e
  | [], w, _, hh, _, _ => by
    refine ⟨⟨[], 0, rfl, ?_⟩, fun e he => .inl he⟩
    have h : (nameLoop [] w).size = w.size + 1 := by simp [nameLoop, Writer.push, Writer.size]
    rw [h]
    refine .root hh ?_
    exact (at_cons.mp (at_end w.out [0])).1
  | (label, text) :: rest, w, hps, hh, hseg, hpend => by
    obtain ⟨hlabel, h1, h63⟩ := hps _ List.mem_cons_self
    dsimp only at hlabel h1 h63
    have hrest : PairsOk rest := fun p hp => hps p (List.mem_cons_of_mem _ hp)
    -- the loop goes on after the label, with a writer that has it
    have go : ∀ w' : Writer, w'.out = w.out ++ labelBytes text → Pending w' seg rest →
        (∃ raws j, raws.map lowerLabel = label :: rest.map Prod.fst ∧ j < raws.length ∧
          NameAt (nameLoop rest w').out seg w.size raws j (nameLoop rest w').size) ∧
        ∀ e ∈ (nameLoop rest w').suffixes, e ∈ w'.suffixes ∨ EntryOk (nameLoop rest w').out e := by
      intro w' hout hp
      have hsize : w'.size = w.size + 1 + text.length := by
        simp only [Writer.size, hout, labelBytes, List.length_append, List.length_cons]; omega
      obtain ⟨⟨raws, j, hraws, hn⟩, htable⟩ :=
        nameLoop_written seg rest w' hrest (by omega) (by omega) hp
      have hat : At (nameLoop rest w').out w.size (labelBytes text) := by
        refine At.above ?_ ((appends_nameLoop rest).above w') hh
        rw [hout]
        exact at_end _ _
      have hj := hn.jumps_le
      rw [hsize] at hn
      exact ⟨⟨text :: raws, j, by simp [hraws, hlabel], by simp only [List.length_cons]; omega,
        .label hh h1 h63 hat hn⟩, htable⟩
    cases hc : w.compress with
    | false =>
      rw [nameLoop_plain hc]
      obtain ⟨⟨raws, j, hraws, -, hn⟩, htable⟩ := go _ rfl (hpend.tail (labelBytes text))
      exact ⟨⟨raws, j, hraws, hn⟩, htable⟩
    | true =>
      cases hl : w.suffixes.lookup (keyOf ((label, text) :: rest)) with
      | some off =>
        rw [nameLoop_hit hc hl]
        exact ⟨pointer_written hh hpend hps hl, fun e he => .inl he⟩
      | none =>
        rw [nameLoop_miss hc hl]
        have hp : Pending { w with
            out := w.out ++ labelBytes text
            suffixes := newEntry (keyOf ((label, text) :: rest)) w.size ++ w.suffixes } seg rest := by
          intro e he
          rcases List.mem_append.mp he with he | he
          · rw [(offset_newEntry he).1]
            exact .inl (length_keyOf_cons _ _)
          · exact hpend.tail (labelBytes text) e he
        obtain ⟨⟨raws, j, hraws, hj, hn⟩, htable⟩ := go _ rfl hp
        refine ⟨⟨raws, j, hraws, hn⟩, fun e he => ?_⟩
        rcases htable e he with he | he
        · rcases List.mem_append.mp he with he | he
          · -- the entry for this suffix: its encoding is complete now
            obtain ⟨hkey, hoff, hmax⟩ := offset_newEntry he
            exact .inr (entryOk_of_nameAt (by rw [hkey, hraws]; rfl) hj hoff hmax (hn.seg_le hseg))
          · exact .inl he
        · exact .inr he

theorem pairsOk_name {n : Name} (hn : NameWf n) : PairsOk (n.labels.zip n.asWritten) := by
  have hwritten : n.asWritten = n.originalCase := if_pos hn.length_eq
  intro p hp
  rw [hwritten, hn.lower, ← List.map_prod_right_eq_zip, List.mem_map] at hp
  obtain ⟨a, ha, rfl⟩ := hp
  have := hn.label (lowerLabel a) (by rw [hn.lower]; exact List.mem_map_of_mem ha)
  simpa [lowerLabel] using this

theorem fst_name {n : Name} (hn : NameWf n) : (n.labels.zip n.asWritten).map Prod.fst = n.labels := by
  have hlen := hn.length_eq
  rw [show n.asWritten = n.originalCase from if_pos hlen]
  exact List.map_fst_zip (by omega)

/-- **`Writer::name`**: the table stays right, and from the old end on stands the name. -/
theorem name_written {w : Writer} {n : Name} (hw : WriterOk w) (hn : NameWf n) :
    WriterOk (w.name n) ∧ ∃ raws j, raws.map lowerLabel = n.labels ∧
      NameAt (w.name n).out w.size w.size raws j (w.name n).size := by
  have hps := pairsOk_name hn
  obtain ⟨⟨raws, j, hraws, hat⟩, htable⟩ := nameLoop_written w.size _ w hps hw.header le_rfl
    fun e he => .inr ⟨hw.table e he, (hw.table e he).offset_lt⟩
  have happ := appends_name n
  refine ⟨⟨le_trans hw.header (happ.size_le w), fun e he => ?_⟩, raws, j, hraws.trans (fst_name hn), hat⟩
  rcases htable e he with he | he
  · exact (hw.table e he).above (happ.above w)
  · exact he

/-- What `Writer::name` wrote is read back, also from a later version of the buffer. -/
theorem readName_written {w : Writer} {n : Name} (hw : WriterOk w) (hn : NameWf n)
    (ha : Above kHeaderSize (w.name n).out msg) :
    ∃ n', readName msg w.size = .ok (n', (w.name n).size) ∧ n'.labels = n.labels := by
  obtain ⟨-, raws, j, hraws, hat⟩ := name_written hw hn
  exact readName_of_nameAt hn hraws (hat.above ha)

theorem size_name_le {w : Writer} {n : Name} (hw : WriterOk w) (hn : NameWf n) :
    w.size < (w.name n).size ∧ (w.name n).size ≤ w.size + n.wireLength := by
  obtain ⟨-, raws, j, hraws, hat⟩ := name_written hw hn
  have hle := hat.size_le
  rw [labelsLength_eq hraws] at hle
  have : 1 ≤ n.wireLength := by unfold Name.wireLength; omega
  exact ⟨hat.next_le.1, by omega⟩

end DNSentinel.Wire.NameCode
