import Sidecar.Binary.Word

/-!
# Single-precision numbers as bit patterns

Vectors and scores are IEEE 754 binary32 numbers, and what files and answers hold are their bits.
So a number *is* its 32 bits here: equality is equality of patterns, a NaN equals itself, and the
two zeros differ. The order `rank` is the total order of the standard, in which the sign of a zero
and the payload of a NaN count; it is the order in which matches are ranked.

Arithmetic goes through `Float32` and back. Each operation rounds once and in the order written.
-/

set_option autoImplicit false

namespace Sidecar

/-- A binary32 number, by its bits. -/
structure Binary32 where
  bits : UInt32
  deriving DecidableEq, Repr, Inhabited

namespace Binary32

/-- Neither infinite nor NaN: the exponent bits are not all ones. -/
def isFinite (x : Binary32) : Bool := x.bits.toNat / 0x800000 % 256 != 255

/-- A NaN has all exponent bits set and some bit of the fraction. -/
def isNaN (x : Binary32) : Bool := !x.isFinite && x.bits.toNat % 0x800000 != 0

/-- The place of a number in the total order: negative numbers count down from the middle,
the others up. -/
def rank (x : Binary32) : Nat :=
  if x.bits.toNat < 0x80000000 then 0x80000000 + x.bits.toNat else 0xFFFFFFFF - x.bits.toNat

/-- The four bytes of a number, least significant first. -/
def encode (x : Binary32) : Bytes := Word.encode 4 x.bits.toNat

/-- The number that four bytes stand for. -/
def decode (bytes : Bytes) : Binary32 := ⟨UInt32.ofNat (Word.decode bytes)⟩

theorem decode_encode (x : Binary32) : decode x.encode = x := by
  have hword : Word.decode x.encode = x.bits.toNat := by
    rw [encode, Word.decode_encode]
    exact Nat.mod_eq_of_lt x.bits.toNat_lt
  rw [decode, hword, UInt32.ofNat_toNat]

theorem encode_decode {bytes : Bytes} (h : bytes.length = 4) : (decode bytes).encode = bytes := by
  have hlt : Word.decode bytes < UInt32.size := by
    have hlt := Word.decode_lt bytes
    rw [h] at hlt
    exact hlt
  have hword : (decode bytes).bits.toNat = Word.decode bytes := UInt32.toNat_ofNat_of_lt' hlt
  rw [encode, hword, ← h]
  exact Word.encode_decode bytes

/-- The smaller of two numbers; a NaN gives way to the other. -/
def least (x y : Binary32) : Binary32 :=
  if x.isNaN then y
  else if y.isNaN then x
  else if y.rank < x.rank then y
  else x

/-! ## Arithmetic -/

/-- The number as a value to compute with. -/
def toFloat32 (x : Binary32) : Float32 := Float32.ofBits x.bits

/-- The bits of a computed value. -/
def ofFloat32 (x : Float32) : Binary32 := ⟨x.toBits⟩

/-- The zero with a sign, which is neutral for addition on every number. -/
def negativeZero : Binary32 := ⟨0x80000000⟩

instance : Add Binary32 := ⟨fun x y => ofFloat32 (x.toFloat32 + y.toFloat32)⟩
instance : Sub Binary32 := ⟨fun x y => ofFloat32 (x.toFloat32 - y.toFloat32)⟩
instance : Mul Binary32 := ⟨fun x y => ofFloat32 (x.toFloat32 * y.toFloat32)⟩

/-- The square root, rounded once. -/
def sqrt (x : Binary32) : Binary32 := ofFloat32 x.toFloat32.sqrt

end Binary32

end Sidecar
