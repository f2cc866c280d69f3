import Mathlib
/-!
Rounding to doubles.  Rounding drops bits until 53 are left, or so many that the number becomes
subnormal; a carry moves it up by one more bit.  What comes of it is packed as infinity exactly
if its exponent is too large, and a normal number is unpacked as it was packed.
-/

namespace GateAlgebra

open Float.Model UnpackedFloat

section Shifting

theorem mantissa_shiftRight (em : ExtendedMantissa) (k : Nat) :
    (em >>> k).mantissa = em.mantissa / 2 ^ k := by
  induction k with
  | zero => exact (Nat.div_one _).symm
  | succ k ih =>
      change (em >>> k).mantissa / 2 = _
      rw [ih, Nat.div_div_eq_div_mul, pow_succ]

theorem roundBit_shiftRight (em : ExtendedMantissa) (k : Nat) :
    (em >>> (k + 1)).roundBit = (em.mantissa / 2 ^ k % 2 != 0) := by
  change ((em >>> k).mantissa % 2 != 0) = _
  rw [mantissa_shiftRight]

theorem mantissa_ofMantissaAndAccuracy (m : Nat) (accuracy : Accuracy) :
    (ExtendedMantissa.ofMantissaAndAccuracy m accuracy).mantissa = m := by
  rcases accuracy with _ | order
  · rfl
  · cases order <;> rfl

theorem roundedMantissa_bounds (em : ExtendedMantissa) :
    em.mantissa ≤ em.roundedMantissa ∧ em.roundedMantissa ≤ em.mantissa + 1 := by
  obtain ⟨m, round, sticky⟩ := em
  have hbit : m % 2 < 2 := Nat.mod_lt m Nat.two_pos
  cases round <;> cases sticky <;>
    simp only [ExtendedMantissa.roundedMantissa, ExtendedMantissa.accuracy,
      Accuracy.roundToNearestEven] <;> omega

end Shifting

section Rounding

/-- How many bits are dropped so that 53 are left, or so many that the number becomes
subnormal. -/
def droppedBits (m : Nat) (e : Int) : Nat :=
  (Format.binary64.targetExponent (totalExponent m e) - e).toNat

/-- The significand that is left, rounded. -/
def rounded (m : Nat) (e : Int) (accuracy : Accuracy) : Nat :=
  (ExtendedMantissa.ofMantissaAndAccuracy m accuracy >>> droppedBits m e).roundedMantissa

variable {m : Nat} {e : Int} {accuracy : Accuracy}

theorem droppedBits_eq (m : Nat) (e : Int) :
    (droppedBits m e : Int) = max 0 (max ((m.log2 : Int) - 52) (-1074 - e)) := by
  have htarget : Format.binary64.targetExponent (totalExponent m e) =
      max ((m.log2 : Int) + 1 + e - 53) (-1074) := rfl
  rw [droppedBits, htarget]
  omega

theorem div_droppedBits_lt (m : Nat) (e : Int) : m / 2 ^ droppedBits m e < 2 ^ 53 := by
  have hdropped := droppedBits_eq m e
  have hbits : m.log2 + 1 ≤ 53 + droppedBits m e := by omega
  rw [Nat.div_lt_iff_lt_mul (Nat.two_pow_pos _), ← pow_add]
  exact Nat.lt_of_lt_of_le Nat.lt_log2_self (Nat.pow_le_pow_right Nat.two_pos hbits)

theorem le_div_droppedBits {m : Nat} {e : Int} (hm : 2 ^ 52 ≤ m)
    (hnormal : -1074 ≤ e + m.log2 - 52) : 2 ^ 52 ≤ m / 2 ^ droppedBits m e := by
  have hpos : 0 < m := (Nat.two_pow_pos 52).trans_le hm
  have hlog : 52 ≤ m.log2 := (Nat.le_log2 hpos.ne').2 hm
  have hdropped := droppedBits_eq m e
  have hbits : 52 + droppedBits m e ≤ m.log2 := by omega
  rw [Nat.le_div_iff_mul_le (Nat.two_pow_pos _), ← pow_add]
  exact (Nat.pow_le_pow_right Nat.two_pos hbits).trans (Nat.log2_self_le hpos.ne')

theorem rounded_bounds (m : Nat) (e : Int) (accuracy : Accuracy) :
    m / 2 ^ droppedBits m e ≤ rounded m e accuracy ∧ rounded m e accuracy ≤ 2 ^ 53 := by
  have hbounds := roundedMantissa_bounds
    (ExtendedMantissa.ofMantissaAndAccuracy m accuracy >>> droppedBits m e)
  rw [mantissa_shiftRight, mantissa_ofMantissaAndAccuracy] at hbounds
  exact ⟨hbounds.1, hbounds.2.trans (div_droppedBits_lt m e)⟩

theorem shiftToTargetExponent_eq (m : Nat) (e : Int) (accuracy : Accuracy) :
    shiftToTargetExponent Format.binary64 m e accuracy =
      (ExtendedMantissa.ofMantissaAndAccuracy m accuracy >>> droppedBits m e,
        e + droppedBits m e) := rfl

theorem droppedBits_of_lt (hm : m < 2 ^ 53) (he : -1074 ≤ e) : droppedBits m e = 0 := by
  have hlog : m.log2 ≤ 52 := by
    rcases Nat.eq_zero_or_pos m with rfl | hpos
    · exact Nat.zero_le 52
    · exact Nat.le_of_lt_succ ((Nat.log2_lt hpos.ne').2 hm)
  have hdropped := droppedBits_eq m e
  omega

theorem droppedBits_two_pow (he : -1074 ≤ e) : droppedBits (2 ^ 53) e = 1 := by
  have hdropped := droppedBits_eq (2 ^ 53) e
  rw [Nat.log2_two_pow] at hdropped
  omega

/-- Rounding drops bits once.  If that carries into one more bit, the last one is dropped too,
and it is zero. -/
theorem roundWithAccuracy_eq (sign : Sign) (m : Nat) (e : Int) (accuracy : Accuracy) :
    roundWithAccuracy Format.binary64 sign m e accuracy =
      if hzero : rounded m e accuracy = 0 then .zero sign
      else if rounded m e accuracy < 2 ^ 53 then
        .finite sign (rounded m e accuracy) (e + droppedBits m e) (Nat.pos_of_ne_zero hzero)
      else .finite sign (2 ^ 52) (e + droppedBits m e + 1) (Nat.two_pow_pos 52) := by
  have hlower : -1074 ≤ e + droppedBits m e := by
    have hdropped := droppedBits_eq m e
    omega
  have hround : roundWithAccuracy Format.binary64 sign m e accuracy =
      if h : rounded m e accuracy / 2 ^ droppedBits (rounded m e accuracy) (e + droppedBits m e) = 0
      then .zero sign
      else .finite sign _ (e + droppedBits m e +
        droppedBits (rounded m e accuracy) (e + droppedBits m e)) (Nat.pos_of_ne_zero h) := by
    unfold roundWithAccuracy
    simp only [shiftToTargetExponent_eq, mantissa_shiftRight, mantissa_ofMantissaAndAccuracy]
    rfl
  rw [hround]
  -- What is left has 53 bits at most, so the second shift drops nothing, except after a carry,
  -- where it drops the last bit of `2 ^ 53`.
  rcases (rounded_bounds m e accuracy).2.lt_or_eq with hlt | hcarry
  · simp only [droppedBits_of_lt hlt hlower, pow_zero, Nat.div_one, Nat.cast_zero, add_zero, hlt,
      if_true]
  · simp only [hcarry, droppedBits_two_pow hlower]
    rfl

end Rounding

section Packing

variable {sign : Sign} {m : Nat} {e : Int}

theorem exponentField_eq (e : Int) : (e + Format.binary64.exponentBias +
    Format.binary64.mantissaBitsWithoutImplicit).toNat = (e + 1075).toNat := by
  change (e + 1023 + 52).toNat = _
  omega

theorem isFinite_unpack_packComponents {exponent : BitVec Format.binary64.exponentBits}
    {mantissa : BitVec Format.binary64.mantissaBitsWithoutImplicit} :
    (UnpackedFloat.unpack Format.binary64
      (packComponents Format.binary64 sign exponent mantissa)).isFinite = true ↔
      exponent ≠ -1#_ := by
  unfold UnpackedFloat.unpack
  simp only [unpackExponent_packComponents, unpackMantissa_packComponents]
  by_cases hones : exponent = -1#_
  · rw [if_pos hones]
    refine ⟨fun h => absurd h ?_, fun h => absurd hones h⟩
    split <;> exact Bool.false_ne_true
  · rw [if_neg hones]
    refine ⟨fun _ => hones, fun _ => ?_⟩
    split
    · split <;> rfl
    · rfl

/-- A number whose exponent field would be all ones or more is packed as infinity. -/
theorem isFinite_unpack_pack (hpos : 0 < m) :
    (pack (.finite sign m e hpos)).unpack.isFinite = true ↔ e ≤ 971 := by
  change (UnpackedFloat.unpack Format.binary64
    (UnpackedFloat.pack Format.binary64 (.finite sign m e hpos))).isFinite = true ↔ _
  have hfield := exponentField_eq e
  have hcount : 2 ^ Format.binary64.exponentBits = 2048 := rfl
  unfold UnpackedFloat.pack
  simp only [hfield, hcount]
  by_cases he : e ≤ 971
  · rw [if_neg (by omega)]
    split
    · refine ⟨fun _ => he, fun _ => isFinite_unpack_packComponents.2 fun hones => ?_⟩
      have hsame := congrArg BitVec.toNat hones
      change (e + 1075).toNat % 2048 = 2047 at hsame
      omega
    · exact ⟨fun _ => he, fun _ => isFinite_unpack_packComponents.2 (by decide)⟩
  · rw [if_pos (by omega)]
    exact ⟨fun h => absurd rfl (isFinite_unpack_packComponents.1 h), fun h => absurd h he⟩

/-- A normal number is unpacked as it was packed. -/
theorem unpack_pack_normal (hlower : 2 ^ 52 ≤ m) (hupper : m < 2 ^ 53) (hmin : -1074 ≤ e)
    (hmax : e ≤ 971) (hpos : 0 < m) :
    (pack (.finite sign m e hpos)).unpack = .finite sign m e hpos := by
  change UnpackedFloat.unpack Format.binary64
    (UnpackedFloat.pack Format.binary64 (.finite sign m e hpos)) = _
  have hbits : m.log2 + 1 = Format.binary64.mantissaBits := by
    change m.log2 + 1 = 53
    rw [(Nat.log2_eq_iff hpos.ne').2 ⟨hlower, hupper⟩]
  have hfield := exponentField_eq e
  have hcount : 2 ^ Format.binary64.exponentBits = 2048 := rfl
  unfold UnpackedFloat.pack
  simp only [hfield, hcount, hbits, if_true]
  rw [if_neg (by omega)]
  have hexponent : (BitVec.ofNat Format.binary64.exponentBits (e + 1075).toNat).toNat =
      (e + 1075).toNat := Nat.mod_eq_of_lt (by change _ < 2048; omega)
  have hones : BitVec.ofNat Format.binary64.exponentBits (e + 1075).toNat ≠ -1#_ := fun h => by
    have hsame := congrArg BitVec.toNat h
    rw [hexponent] at hsame
    change _ = 2047 at hsame
    omega
  have hzeros : BitVec.ofNat Format.binary64.exponentBits (e + 1075).toNat ≠ 0#_ := fun h => by
    have hsame := congrArg BitVec.toNat h
    rw [hexponent] at hsame
    change _ = 0 at hsame
    omega
  have hleading :
      (1#1 ++ BitVec.ofNat Format.binary64.mantissaBitsWithoutImplicit m).toNat = m := by
    have hmantissa : (BitVec.ofNat Format.binary64.mantissaBitsWithoutImplicit m).toNat =
        m % 2 ^ 52 := rfl
    have hbound : m % 2 ^ 52 < 2 ^ 52 := Nat.mod_lt _ (Nat.two_pow_pos 52)
    rw [BitVec.toNat_append, hmantissa, ← Nat.shiftLeft_add_eq_or_of_lt hbound]
    change 1 <<< 52 + _ = m
    omega
  have hsign : Sign.ofBitVec sign.toBitVec = sign := by cases sign <;> rfl
  unfold UnpackedFloat.unpack
  simp only [unpackExponent_packComponents, unpackMantissa_packComponents,
    unpackSign_packComponents, if_neg hones, if_neg hzeros, hleading, hsign, hexponent]
  have hback : ((e + 1075).toNat : Int) - (Format.binary64.exponentBias +
      Format.binary64.mantissaBitsWithoutImplicit) = e := by
    change ((e + 1075).toNat : Int) - (1023 + 52) = e
    omega
  simp only [hback]

end Packing

end GateAlgebra
