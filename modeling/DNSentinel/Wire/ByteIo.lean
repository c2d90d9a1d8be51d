import DNSentinel.Types
import Mathlib.Data.Nat.Bitwise

/-! # Reading and writing bytes

The helpers of `byte_io.h` and the errors of `parser.h`. The readers of the source assume that the
caller has checked the offset; here a read past the end of the buffer is a value of its own,
`Halt.outOfBounds`, so that "never reads past the end" is a statement about the model. `Halt.outOfFuel`
is the bound of the model's loops. Neither is an error of the source.

Lengths and offsets are `size_t`: `sizeSub` wraps below zero as the source's subtraction does. -/

namespace DNSentinel.Wire.ByteIo

/-- `enum class ParseError`. -/
inductive ParseError where
  | bufferTooShort
  | invalidHeader
  | labelTooLong
  | nameTooLong
  | compressionLoop
  | invalidLabelType
  | sectionOverflow
  | rdataLengthMismatch
  | malformedRData
  | invalidOpt
deriving Repr, DecidableEq

/-- How a reader ends without a value. -/
inductive Halt where
  | fail (e : ParseError)
  | outOfBounds
  | outOfFuel
deriving Repr, DecidableEq

abbrev Result := Except Halt

/-- `return fail(e)`. -/
def fail {α : Type} (e : ParseError) : Result α := .error (.fail e)

/-- Subtraction of `size_t`. -/
def sizeSub (a b : ℕ) : ℕ := if b ≤ a then a - b else a + 2 ^ 64 - b

theorem sizeSub_of_le {a b : ℕ} (h : b ≤ a) : sizeSub a b = a - b := if_pos h

/-! ### Readers -/

def byteAt (buf : List UInt8) (off : ℕ) : Result UInt8 :=
  match buf[off]? with
  | some b => .ok b
  | none => .error .outOfBounds

/-- `(buf[off] << 8) | buf[off + 1]` on the two bytes. -/
def u16 (hi lo : UInt8) : UInt16 := UInt16.ofNat (hi.toNat <<< 8 ||| lo.toNat)

/-- The four bytes of `load_u32`, shifted and or-ed. -/
def u32 (a b c d : UInt8) : UInt32 :=
  UInt32.ofNat (a.toNat <<< 24 ||| b.toNat <<< 16 ||| c.toNat <<< 8 ||| d.toNat)

def loadU16 (buf : List UInt8) (off : ℕ) : Result UInt16 :=
  match buf[off]?, buf[off + 1]? with
  | some a, some b => .ok (u16 a b)
  | _, _ => .error .outOfBounds

def loadU32 (buf : List UInt8) (off : ℕ) : Result UInt32 :=
  match buf[off]?, buf[off + 1]?, buf[off + 2]?, buf[off + 3]? with
  | some a, some b, some c, some d => .ok (u32 a b c d)
  | _, _, _, _ => .error .outOfBounds

/-- `buf.subspan(off, n)`, or a string built from those bytes. -/
def slice (buf : List UInt8) (off n : ℕ) : Result (List UInt8) :=
  if off + n ≤ buf.length then .ok ((buf.drop off).take n) else .error .outOfBounds

/-! ### Writers -/

def putU16 (v : UInt16) : List UInt8 := [(v >>> 8).toUInt8, v.toUInt8]

def putU32 (v : UInt32) : List UInt8 := putU16 (v >>> 16).toUInt16 ++ putU16 v.toUInt16

/-- `out[off] = v >> 8; out[off + 1] = v`. -/
def storeU16 (out : List UInt8) (off : ℕ) (v : UInt16) : List UInt8 :=
  (out.set off (v >>> 8).toUInt8).set (off + 1) v.toUInt8

@[simp] theorem length_putU16 (v : UInt16) : (putU16 v).length = 2 := rfl

@[simp] theorem length_putU32 (v : UInt32) : (putU32 v).length = 4 := rfl

@[simp] theorem length_storeU16 (out : List UInt8) (off : ℕ) (v : UInt16) :
    (storeU16 out off v).length = out.length := by simp [storeU16]

/-! ### What is read is what was written -/

theorem or_eq_add {x y i : ℕ} (hy : y < 2 ^ i) : x <<< i ||| y = x * 2 ^ i + y := by
  rw [← Nat.shiftLeft_add_eq_or_of_lt hy, Nat.shiftLeft_eq]

theorem toNat_u16 (hi lo : UInt8) : (u16 hi lo).toNat = hi.toNat * 256 + lo.toNat := by
  have h1 := hi.toNat_lt
  have h2 := lo.toNat_lt
  unfold u16
  rw [or_eq_add (by simpa using h2), UInt16.toNat_ofNat_of_lt' (by simp [UInt16.size]; omega)]
  rfl

theorem toNat_u32 (a b c d : UInt8) : (u32 a b c d).toNat =
    a.toNat * 2 ^ 24 + b.toNat * 2 ^ 16 + c.toNat * 2 ^ 8 + d.toNat := by
  have h1 := a.toNat_lt
  have h2 := b.toNat_lt
  have h3 := c.toNat_lt
  have h4 := d.toNat_lt
  have e1 : a.toNat <<< 24 ||| b.toNat <<< 16 = (a.toNat * 2 ^ 8 + b.toNat) <<< 16 := by
    rw [or_eq_add (by rw [Nat.shiftLeft_eq]; omega), Nat.shiftLeft_eq, Nat.shiftLeft_eq]
    omega
  have e2 : (a.toNat * 2 ^ 8 + b.toNat) <<< 16 ||| c.toNat <<< 8 =
      ((a.toNat * 2 ^ 8 + b.toNat) * 2 ^ 8 + c.toNat) <<< 8 := by
    rw [or_eq_add (by rw [Nat.shiftLeft_eq]; omega), Nat.shiftLeft_eq, Nat.shiftLeft_eq]
    omega
  unfold u32
  rw [e1, e2, or_eq_add (by omega), UInt32.toNat_ofNat_of_lt' (by simp [UInt32.size]; omega)]
  omega

theorem u16_put (v : UInt16) : u16 (v >>> 8).toUInt8 v.toUInt8 = v := by
  apply UInt16.toNat_inj.mp
  have h := v.toNat_lt
  rw [toNat_u16]
  simp only [UInt16.toNat_toUInt8, UInt16.toNat_shiftRight, Nat.shiftRight_eq_div_pow]
  simp only [UInt16.reduceToNat, Nat.reduceMod, Nat.reducePow]
  omega

theorem u32_put (v : UInt32) : u32 ((v >>> 16).toUInt16 >>> 8).toUInt8 (v >>> 16).toUInt16.toUInt8
    (v.toUInt16 >>> 8).toUInt8 v.toUInt16.toUInt8 = v := by
  apply UInt32.toNat_inj.mp
  have h := v.toNat_lt
  rw [toNat_u32]
  simp only [UInt16.toNat_toUInt8, UInt16.toNat_shiftRight, Nat.shiftRight_eq_div_pow,
    UInt32.toNat_toUInt16, UInt32.toNat_shiftRight]
  simp only [UInt16.reduceToNat, UInt32.reduceToNat, Nat.reduceMod, Nat.reducePow]
  omega

theorem byteAt_of_lt {buf : List UInt8} {off : ℕ} (h : off < buf.length) :
    ∃ b, buf[off]? = some b ∧ byteAt buf off = .ok b := by
  refine ⟨buf[off], List.getElem?_eq_getElem h, ?_⟩
  unfold byteAt
  rw [List.getElem?_eq_getElem h]

theorem loadU16_of_le {buf : List UInt8} {off : ℕ} (h : off + 2 ≤ buf.length) :
    ∃ v, loadU16 buf off = .ok v := by
  unfold loadU16
  rw [List.getElem?_eq_getElem (by omega), List.getElem?_eq_getElem (by omega)]
  exact ⟨_, rfl⟩

theorem loadU32_of_le {buf : List UInt8} {off : ℕ} (h : off + 4 ≤ buf.length) :
    ∃ v, loadU32 buf off = .ok v := by
  unfold loadU32
  rw [List.getElem?_eq_getElem (by omega), List.getElem?_eq_getElem (by omega),
    List.getElem?_eq_getElem (by omega), List.getElem?_eq_getElem (by omega)]
  exact ⟨_, rfl⟩

theorem slice_of_le {buf : List UInt8} {off n : ℕ} (h : off + n ≤ buf.length) :
    slice buf off n = .ok ((buf.drop off).take n) := if_pos h

theorem length_slice {buf s : List UInt8} {off n : ℕ} (h : slice buf off n = .ok s) :
    s.length = n ∧ off + n ≤ buf.length := by
  unfold slice at h
  split_ifs at h with hle
  cases h
  exact ⟨by simp; omega, hle⟩

end DNSentinel.Wire.ByteIo
