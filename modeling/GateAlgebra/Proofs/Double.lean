import Mathlib.Algebra.Order.Field.Rat
import Mathlib.Data.Rat.Defs
import GateAlgebra.Number.Double
/-!
Doubles as numbers.  The fields that are read from the bits of a double are those of
the model that its arithmetic is defined in, so a comparison of doubles compares what
was read.
-/

namespace GateAlgebra

namespace Double

open Float.Model

/-- The number that a double stands for, and zero for those that stand for none. -/
def value : Double → Rat
  | nan => 0
  | infinite _ => 0
  | finite negative significand exponent =>
      (if negative then -1 else 1) * significand * 2 ^ exponent

/-- The reading of an unpacked double. -/
def ofUnpacked : UnpackedFloat → Double
  | .notANumber => nan
  | .infinity sign => infinite (sign == .negative)
  | .zero sign => finite (sign == .negative) 0 (-1074)
  | .finite sign mantissa exponent _ => finite (sign == .negative) mantissa exponent

section Fields

variable (x : Float)

/-- The bits of a double, in the form that the model takes apart. -/
abbrev vector : BitVec Format.binary64.numBits := x.toModel.toBits.toBitVec

theorem toNat_vector : (vector x).toNat = x.toBits.toNat := rfl

theorem toNat_unpackExponent :
    (UnpackedFloat.unpackExponent (vector x)).toNat = x.toBits.toNat / leadingBit % 2048 := by
  simp [UnpackedFloat.unpackExponent, ← toNat_vector, leadingBit, Nat.shiftRight_eq_div_pow]

theorem toNat_unpackMantissa :
    (UnpackedFloat.unpackMantissa (vector x)).toNat = x.toBits.toNat % leadingBit := by
  simp [UnpackedFloat.unpackMantissa, ← toNat_vector, leadingBit]

theorem negative_unpackSign :
    (UnpackedFloat.Sign.ofBitVec (UnpackedFloat.unpackSign (vector x)) == .negative) =
      x.toBits.toNat.testBit 63 := by
  have hbit : (UnpackedFloat.unpackSign (vector x)).toNat = x.toBits.toNat / 2 ^ 63 % 2 := by
    change (BitVec.extractLsb _ _ (vector x)).toNat = _
    simp [← toNat_vector, Nat.shiftRight_eq_div_pow]
  have hzero : UnpackedFloat.unpackSign (vector x) = 0#1 ↔
      x.toBits.toNat / 2 ^ 63 % 2 = 0 := by
    rw [← hbit, ← BitVec.toNat_inj]
    rfl
  rw [Nat.testBit_eq_decide_div_mod_eq, UnpackedFloat.Sign.ofBitVec]
  rcases Nat.mod_two_eq_zero_or_one (x.toBits.toNat / 2 ^ 63) with heven | hodd
  · rw [if_pos (hzero.2 heven), heven]
    rfl
  · rw [if_neg (by rw [hzero, hodd]; decide), hodd]
    rfl

/-- The exponent field of infinities and NaNs. -/
theorem unpackExponent_eq_ones_iff : UnpackedFloat.unpackExponent (vector x) = -1#11 ↔
    x.toBits.toNat / leadingBit % 2048 = 2047 := by
  rw [← toNat_unpackExponent, ← BitVec.toNat_inj]
  rfl

/-- The exponent field of zeros and of what is smaller than normal. -/
theorem unpackExponent_eq_zero_iff : UnpackedFloat.unpackExponent (vector x) = 0#11 ↔
    x.toBits.toNat / leadingBit % 2048 = 0 := by
  rw [← toNat_unpackExponent, ← BitVec.toNat_inj]
  rfl

theorem unpackMantissa_eq_zero_iff : UnpackedFloat.unpackMantissa (vector x) = 0#52 ↔
    x.toBits.toNat % leadingBit = 0 := by
  rw [← toNat_unpackMantissa, ← BitVec.toNat_inj]
  rfl

theorem toNat_leading_unpackMantissa :
    (1#1 ++ UnpackedFloat.unpackMantissa (vector x)).toNat =
      leadingBit + x.toBits.toNat % leadingBit := by
  have hbound := (UnpackedFloat.unpackMantissa (vector x)).isLt
  rw [BitVec.toNat_append, ← Nat.shiftLeft_add_eq_or_of_lt hbound, toNat_unpackMantissa]
  rfl

end Fields

/-- Reading a double is unpacking it. -/
theorem ofFloat_eq_ofUnpacked (x : Float) : ofFloat x = ofUnpacked x.toModel.unpack := by
  have hones := unpackExponent_eq_ones_iff x
  have hzeros := unpackExponent_eq_zero_iff x
  have hmantissa := unpackMantissa_eq_zero_iff x
  let sign := UnpackedFloat.Sign.ofBitVec (UnpackedFloat.unpackSign (vector x))
  have hsign : x.toBits.toNat.testBit 63 = (sign == .negative) := (negative_unpackSign x).symm
  by_cases hspecial : x.toBits.toNat / leadingBit % 2048 = 2047
  · by_cases hfraction : x.toBits.toNat % leadingBit = 0
    · have hread : ofFloat x = infinite (x.toBits.toNat.testBit 63) :=
        (if_pos hspecial).trans (if_pos hfraction)
      have hunpack : x.toModel.unpack = .infinity sign :=
        (if_pos (hones.2 hspecial)).trans (if_pos (hmantissa.2 hfraction))
      rw [hread, hunpack, hsign]
      rfl
    · have hread : ofFloat x = nan := (if_pos hspecial).trans (if_neg hfraction)
      have hunpack : x.toModel.unpack = .notANumber :=
        (if_pos (hones.2 hspecial)).trans (if_neg (hmantissa.not.2 hfraction))
      rw [hread, hunpack]
      rfl
  · by_cases hsubnormal : x.toBits.toNat / leadingBit % 2048 = 0
    · have hread : ofFloat x =
          finite (x.toBits.toNat.testBit 63) (x.toBits.toNat % leadingBit) (-1074) :=
        (if_neg hspecial).trans (if_pos hsubnormal)
      by_cases hfraction : x.toBits.toNat % leadingBit = 0
      · have hunpack : x.toModel.unpack = .zero sign :=
          (if_neg (hones.not.2 hspecial)).trans
            ((if_pos (hzeros.2 hsubnormal)).trans (dif_pos (hmantissa.2 hfraction)))
        rw [hread, hunpack, hsign, hfraction]
        rfl
      · have hunpack : x.toModel.unpack =
            .finite sign (UnpackedFloat.unpackMantissa (vector x)).toNat _ _ :=
          (if_neg (hones.not.2 hspecial)).trans
            ((if_pos (hzeros.2 hsubnormal)).trans (dif_neg (hmantissa.not.2 hfraction)))
        rw [hread, hunpack, hsign]
        change _ = finite (sign == .negative) (UnpackedFloat.unpackMantissa (vector x)).toNat
          ((UnpackedFloat.unpackExponent (vector x)).toNat - 1075 + 1)
        rw [toNat_unpackMantissa, toNat_unpackExponent, hsubnormal]
        rfl
    · have hread : ofFloat x = finite (x.toBits.toNat.testBit 63)
          (leadingBit + x.toBits.toNat % leadingBit)
          ((x.toBits.toNat / leadingBit % 2048 : Nat) - 1075) :=
        (if_neg hspecial).trans (if_neg hsubnormal)
      have hunpack : x.toModel.unpack =
          .finite sign (1#1 ++ UnpackedFloat.unpackMantissa (vector x)).toNat _ _ :=
        (if_neg (hones.not.2 hspecial)).trans (if_neg (hzeros.not.2 hsubnormal))
      rw [hread, hunpack, hsign]
      change _ = finite (sign == .negative) _
        ((UnpackedFloat.unpackExponent (vector x)).toNat - 1075)
      rw [toNat_leading_unpackMantissa, toNat_unpackExponent]

end Double

end GateAlgebra
