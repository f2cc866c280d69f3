import Mathlib
import GateAlgebra.Exponent
/-!
Doubles that are not below zero.  Products of them are not below zero either, and neither is
the quotient of a fraction that is not, whatever overflows or is rounded.
-/

namespace GateAlgebra

open Float.Model

/-- The sign is plus, or there is no number. -/
def HasPlus : UnpackedFloat → Prop
  | .infinity sign => sign = .positive
  | .finite sign _ _ _ => sign = .positive
  | .zero sign => sign = .positive
  | .notANumber => True

variable {format : Format} {u v : UnpackedFloat} {x y : Float}

section Packing

theorem hasPlus_unpack_packComponents {exponent : BitVec format.exponentBits}
    {mantissa : BitVec format.mantissaBitsWithoutImplicit} :
    HasPlus (UnpackedFloat.unpack format
      (UnpackedFloat.packComponents format .positive exponent mantissa)) := by
  have hsign : UnpackedFloat.Sign.ofBitVec (UnpackedFloat.unpackSign
      (UnpackedFloat.packComponents format .positive exponent mantissa)) = .positive := by
    rw [UnpackedFloat.unpackSign_packComponents]
    rfl
  unfold UnpackedFloat.unpack
  dsimp only
  split
  · split
    · exact hsign
    · trivial
  · split
    · split
      · exact hsign
      · exact hsign
    · exact hsign

/-- Packing keeps a plus. -/
theorem hasPlus_unpack_pack (h : HasPlus u) : HasPlus (pack u).unpack := by
  change HasPlus (UnpackedFloat.unpack Format.binary64 (UnpackedFloat.pack Format.binary64 u))
  cases u with
  | notANumber => exact hasPlus_unpack_packComponents
  | infinity sign | zero sign =>
      obtain rfl : sign = .positive := h
      exact hasPlus_unpack_packComponents
  | finite sign mantissa exponent hpos =>
      obtain rfl : sign = .positive := h
      unfold UnpackedFloat.pack
      dsimp only
      split
      · exact hasPlus_unpack_packComponents
      · split
        · exact hasPlus_unpack_packComponents
        · exact hasPlus_unpack_packComponents

end Packing

section Arithmetic

theorem hasPlus_roundWithAccuracy (format : Format) (mantissa : Nat) (exponent : Int)
    (accuracy : UnpackedFloat.Accuracy) :
    HasPlus (UnpackedFloat.roundWithAccuracy format .positive mantissa exponent accuracy) := by
  unfold UnpackedFloat.roundWithAccuracy
  dsimp only
  split <;> rfl

theorem hasPlus_mul (hu : HasPlus u) (hv : HasPlus v) : HasPlus (UnpackedFloat.mul format u v) := by
  cases u with
  | notANumber => trivial
  | zero sign =>
      obtain rfl : sign = .positive := hu
      cases v with
      | zero sign' | finite sign' => exact congrArg _ hv
      | infinity | notANumber => trivial
  | infinity sign =>
      obtain rfl : sign = .positive := hu
      cases v with
      | infinity sign' | finite sign' => exact congrArg _ hv
      | zero | notANumber => trivial
  | finite sign mantissa exponent hpos =>
      obtain rfl : sign = .positive := hu
      cases v with
      | infinity sign' | zero sign' => exact congrArg _ hv
      | notANumber => trivial
      | finite sign' mantissa' exponent' hpos' =>
          obtain rfl : sign' = .positive := hv
          exact hasPlus_roundWithAccuracy _ _ _ _

theorem hasPlus_div (hu : HasPlus u) (hv : HasPlus v) : HasPlus (UnpackedFloat.div format u v) := by
  cases u with
  | notANumber => trivial
  | zero sign =>
      obtain rfl : sign = .positive := hu
      cases v with
      | infinity sign' | finite sign' => exact congrArg _ hv
      | zero | notANumber => trivial
  | infinity sign =>
      obtain rfl : sign = .positive := hu
      cases v with
      | zero sign' | finite sign' => exact congrArg _ hv
      | infinity | notANumber => trivial
  | finite sign mantissa exponent hpos =>
      obtain rfl : sign = .positive := hu
      cases v with
      | infinity sign' | zero sign' => exact congrArg _ hv
      | notANumber => trivial
      | finite sign' mantissa' exponent' hpos' =>
          obtain rfl : sign' = .positive := hv
          exact hasPlus_roundWithAccuracy _ _ _ _

theorem hasPlus_round (format : Format) (mantissa : Nat) (exponent : Int) :
    HasPlus (UnpackedFloat.round format .positive mantissa exponent) :=
  hasPlus_roundWithAccuracy _ _ _ _

theorem hasPlus_ofNat (n : Nat) : HasPlus (UnpackedFloat.ofNat format n) := by
  unfold UnpackedFloat.ofNat UnpackedFloat.ofInt UnpackedFloat.normalize
  split
  · rename_i hlt
    exact absurd (Std.compare_eq_lt.1 hlt) (Int.not_lt.2 (Int.natCast_nonneg n))
  · rfl
  · exact hasPlus_round _ _ _

theorem hasPlus_ofScientific (n : Nat) (e : Int) :
    HasPlus (UnpackedFloat.ofScientific format n e) := by
  unfold UnpackedFloat.ofScientific
  split
  · rfl
  · split
    · rfl
    · split
      · rfl
      · split
        · exact hasPlus_mul rfl rfl
        · exact hasPlus_div rfl rfl

end Arithmetic

section Doubles

theorem unpack_zero : (0 : Float).toModel.unpack = .zero .positive := rfl

/-- What is not below zero has a plus or is a zero. -/
theorem not_lt_zero_iff :
    ¬x < 0 ↔ HasPlus x.toModel.unpack ∨ ∃ sign, x.toModel.unpack = .zero sign := by
  have hlt : x < 0 ↔ x.toModel.unpack.compare (.zero .positive) = some .lt := by
    rw [← unpack_zero]
    exact ⟨fun h => eq_of_beq (of_decide_eq_true h), fun h => decide_eq_true (beq_iff_eq.2 h)⟩
  rw [hlt]
  generalize x.toModel.unpack = u
  cases u with
  | infinity sign => cases sign <;> simp [HasPlus, UnpackedFloat.compare]
  | finite sign mantissa exponent hpos => cases sign <;> simp [HasPlus, UnpackedFloat.compare]
  | zero sign => simp [UnpackedFloat.compare]
  | notANumber => simp [HasPlus, UnpackedFloat.compare]

theorem hasPlus_natCast (n : Nat) : HasPlus (Float.ofNat n).toModel.unpack := by
  change HasPlus (Float.ofScientific n false 0).toModel.unpack
  unfold Float.ofScientific
  split
  · have hword : HasPlus (n.toUInt64.toFloat).toModel.unpack :=
      hasPlus_unpack_pack (hasPlus_ofNat _)
    have hone : HasPlus (Float.exactlyRepresentablePowersOfTen[0]).toModel.unpack := rfl
    exact hasPlus_unpack_pack (hasPlus_mul hword hone)
  · exact hasPlus_unpack_pack (hasPlus_ofScientific n _)

theorem not_lt_zero_ratioToFloat {ratio : Rat} (h : 0 ≤ ratio.num) : ¬ratioToFloat ratio < 0 := by
  obtain ⟨n, hn⟩ := Int.eq_ofNat_of_zero_le h
  rw [not_lt_zero_iff, ratioToFloat, hn]
  exact Or.inl (hasPlus_unpack_pack (hasPlus_div (hasPlus_natCast n) (hasPlus_natCast ratio.den)))

/-- Only zeros may have a minus, and what they are multiplied to is a zero or NaN. -/
theorem not_lt_zero_mul (hx : ¬x < 0) (hy : ¬y < 0) : ¬x * y < 0 := by
  have hmul : (x * y).toModel.unpack =
      (pack (UnpackedFloat.mul Format.binary64 x.toModel.unpack y.toModel.unpack)).unpack := rfl
  rw [not_lt_zero_iff] at hx hy ⊢
  rw [hmul]
  have hpacked : ∀ w : UnpackedFloat, (∃ sign, w = .zero sign) ∨ w = .notANumber →
      HasPlus (pack w).unpack ∨ ∃ sign, (pack w).unpack = .zero sign := by
    rintro w (⟨sign, rfl⟩ | rfl)
    · exact Or.inr ⟨sign, by cases sign <;> rfl⟩
    · exact Or.inl trivial
  generalize x.toModel.unpack = u at hx ⊢
  generalize y.toModel.unpack = v at hy ⊢
  rcases hx with hx | ⟨sign, rfl⟩
  · rcases hy with hy | ⟨sign, rfl⟩
    · exact Or.inl (hasPlus_unpack_pack (hasPlus_mul hx hy))
    · exact hpacked _ (by cases u <;> simp [UnpackedFloat.mul])
  · exact hpacked _ (by cases v <;> simp [UnpackedFloat.mul])

end Doubles

end GateAlgebra
