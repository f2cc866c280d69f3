import GateAlgebra.Proofs.DoubleOrder
/-!
Rounding passes no double.  A number of at most the size of some double is rounded to a double of
at most that size, and one of at least a power of two is rounded to one of at least that power, or
to infinity.
-/

namespace GateAlgebra

open Float.Model UnpackedFloat

/-! ### Significands -/

section Significands

variable {m n : Nat} {e k : Int} {accuracy : Accuracy}

theorem shiftRight_exact (n d : Nat) :
    ExtendedMantissa.mk (n * 2 ^ d) false false >>> d = ⟨n, false, false⟩ := by
  induction d generalizing n with
  | zero => exact congrArg (ExtendedMantissa.mk · false false) (mul_one n)
  | succ d ih =>
      have hshift : ExtendedMantissa.mk (n * 2 ^ (d + 1)) false false >>> (d + 1) =
          (ExtendedMantissa.mk (n * 2 ^ (d + 1)) false false >>> d).shiftRightOne := rfl
      have hone : (ExtendedMantissa.mk (n * 2) false false).shiftRightOne =
          ⟨n * 2 / 2, n * 2 % 2 != 0, false⟩ := rfl
      rw [hshift, pow_succ', ← mul_assoc, ih (n * 2), hone, Nat.mul_div_cancel n Nat.two_pos,
        Nat.mul_mod_left]
      rfl

/-- Dropping zeros is exact. -/
theorem rounded_of_multiple (hm : m = n * 2 ^ droppedBits m e) : rounded m e .exact = n := by
  have hshift := shiftRight_exact n (droppedBits m e)
  rw [← hm] at hshift
  exact congrArg ExtendedMantissa.roundedMantissa hshift

theorem normal_of_lt (hfull : e ≤ -1074 ∨ 2 ^ 52 ≤ m) (h : -1074 < e + droppedBits m e) :
    2 ^ 52 ≤ m / 2 ^ droppedBits m e := by
  have hdropped := droppedBits_eq m e
  have hm : 2 ^ 52 ≤ m := by
    rcases hfull with he | hm
    · by_contra hsmall
      have hlog : m.log2 ≤ 52 := by
        rcases Nat.eq_zero_or_pos m with rfl | hpos
        · exact Nat.zero_le 52
        · exact ((Nat.log2_lt hpos.ne').2 (not_le.1 hsmall)).le
      omega
    · exact hm
  refine le_div_droppedBits hm ?_
  have hlog : 52 ≤ m.log2 := (Nat.le_log2 ((Nat.two_pow_pos 52).trans_le hm).ne').2 hm
  omega

theorem size_eq_of_le {low : Int} (h : low ≤ k) :
    (n : Rat) * 2 ^ k = (n * 2 ^ (k - low).toNat : Nat) * 2 ^ low := by
  have hsplit : k = (k - low).toNat + low := by omega
  conv_lhs => rw [hsplit, zpow_add₀ two_ne_zero, zpow_natCast]
  push_cast
  ring

theorem size_le_size_iff {low : Int} : (m : Rat) * 2 ^ low ≤ n * 2 ^ low ↔ m ≤ n := by
  rw [mul_le_mul_iff_left₀ (zpow_pos two_pos low), Nat.cast_le]

/-- The last bit that is kept is at or below the last bit of every double above. -/
theorem exponent_le_of_le (hfull : e ≤ -1074 ∨ 2 ^ 52 ≤ m) (hn : n < 2 ^ 53) (hk : -1074 ≤ k)
    (hle : (m : Rat) * 2 ^ e ≤ n * 2 ^ k) : e + droppedBits m e ≤ k := by
  by_contra hlt
  have hnormal := normal_of_lt hfull (by omega)
  have hm : 2 ^ (52 + droppedBits m e) ≤ m := by
    rwa [pow_add, ← Nat.le_div_iff_mul_le (Nat.two_pow_pos _)]
  have hlow : (2 : Rat) ^ (53 + k) ≤ m * 2 ^ e := le_size_of_le hm (by omega)
  have hhigh : (n : Rat) * 2 ^ k < 2 ^ (53 + k) := size_lt_of_lt hn le_rfl
  exact absurd (hlow.trans hle) (not_le.2 hhigh)

/-- A significand is rounded up to the last bit that is kept, and a double above has no bits
below it. -/
theorem rounded_le (hfull : e ≤ -1074 ∨ 2 ^ 52 ≤ m) (hn : n < 2 ^ 53) (hk : -1074 ≤ k)
    (hle : (m : Rat) * 2 ^ e ≤ n * 2 ^ k)
    (hexact : accuracy = .exact ∨ (m : Rat) * 2 ^ e < n * 2 ^ k) :
    rounded m e accuracy ≤ n * 2 ^ (k - (e + droppedBits m e)).toNat := by
  have hexponent := exponent_le_of_le hfull hn hk hle
  set whole := n * 2 ^ (k - (e + droppedBits m e)).toNat with hwhole
  have hsize : (n : Rat) * 2 ^ k = (whole * 2 ^ droppedBits m e : Nat) * 2 ^ e := by
    have hgap : (k - e).toNat = (k - (e + droppedBits m e)).toNat + droppedBits m e := by omega
    rw [size_eq_of_le (by omega : e ≤ k), hgap, pow_add, ← mul_assoc]
  rw [hsize] at hle hexact
  have hm := size_le_size_iff.1 hle
  have hquotient : m / 2 ^ droppedBits m e ≤ whole := Nat.div_le_of_le_mul (by rwa [mul_comm])
  rcases hquotient.lt_or_eq with hlt | heq
  · have hbounds := roundedMantissa_bounds
      (ExtendedMantissa.ofMantissaAndAccuracy m accuracy >>> droppedBits m e)
    rw [mantissa_shiftRight, mantissa_ofMantissaAndAccuracy] at hbounds
    exact hbounds.2.trans hlt
  · -- The significand has no bits to drop, and so it is exact.
    have hmultiple : m = whole * 2 ^ droppedBits m e :=
      le_antisymm hm (heq ▸ Nat.div_mul_le_self m _)
    have hexact : accuracy = .exact := by
      refine hexact.resolve_right fun hlt => ?_
      rw [← hmultiple] at hlt
      exact lt_irrefl _ hlt
    rw [hexact, rounded_of_multiple hmultiple]

/-- A double below has no bits below the last one that is kept, or it is below the leading bit. -/
theorem le_rounded_size (hfull : e ≤ -1074 ∨ 2 ^ 52 ≤ m) (hn : n < 2 ^ 53) (hk : -1074 ≤ k)
    (hle : (n : Rat) * 2 ^ k ≤ m * 2 ^ e) :
    (n : Rat) * 2 ^ k ≤ rounded m e accuracy * 2 ^ (e + droppedBits m e) := by
  have hbounds := (rounded_bounds m e accuracy).1
  rcases le_or_gt (e + droppedBits m e) k with hexponent | hexponent
  · rw [size_eq_of_le (by omega : e ≤ k)] at hle
    have hm := size_le_size_iff.1 hle
    have hgap : (k - e).toNat = (k - (e + droppedBits m e)).toNat + droppedBits m e := by omega
    have hquotient : n * 2 ^ (k - (e + droppedBits m e)).toNat ≤ m / 2 ^ droppedBits m e := by
      rwa [Nat.le_div_iff_mul_le (Nat.two_pow_pos _), mul_assoc, ← pow_add, ← hgap]
    rw [size_eq_of_le hexponent]
    exact size_le_size_iff.2 (hquotient.trans hbounds)
  · have hnormal := (normal_of_lt hfull (by omega)).trans hbounds
    exact (size_lt_of_lt hn le_rfl).le.trans (le_size_of_le hnormal (by omega))

end Significands

/-! ### Packing -/

section Packing

variable {sign : Sign} {m : Nat} {e : Int} {u : UnpackedFloat}

theorem unpack_pack_overflow (he : 971 < e) (hpos : 0 < m) :
    (pack (.finite sign m e hpos)).unpack = .infinity sign := by
  change UnpackedFloat.unpack Format.binary64
    (UnpackedFloat.pack Format.binary64 (.finite sign m e hpos)) = _
  have hfield := exponentField_eq e
  have hcount : 2 ^ Format.binary64.exponentBits = 2048 := rfl
  unfold UnpackedFloat.pack
  simp only [hfield, hcount]
  rw [if_pos (by omega)]
  cases sign <;> rfl

/-- A subnormal number is unpacked as it was packed. -/
theorem unpack_pack_subnormal (hm : m < 2 ^ 52) (hpos : 0 < m) :
    (pack (.finite sign m (-1074) hpos)).unpack = .finite sign m (-1074) hpos := by
  change UnpackedFloat.unpack Format.binary64
    (UnpackedFloat.pack Format.binary64 (.finite sign m (-1074) hpos)) = _
  have hbits : ¬m.log2 + 1 = Format.binary64.mantissaBits := fun h => by
    have hlog : m.log2 < 52 := (Nat.log2_lt hpos.ne').2 hm
    change m.log2 + 1 = 53 at h
    omega
  have hmantissa : (BitVec.ofNat Format.binary64.mantissaBitsWithoutImplicit m).toNat = m :=
    Nat.mod_eq_of_lt hm
  have hzero : BitVec.ofNat Format.binary64.mantissaBitsWithoutImplicit m ≠ 0#_ := fun h => by
    have hsame := congrArg BitVec.toNat h
    rw [hmantissa] at hsame
    exact hpos.ne' hsame
  have hfield : ¬2 ^ Format.binary64.exponentBits ≤ (-1074 + Format.binary64.exponentBias +
      Format.binary64.mantissaBitsWithoutImplicit : Int).toNat + 1 := by decide
  have hsign : Sign.ofBitVec sign.toBitVec = sign := by cases sign <;> rfl
  have hones : BitVec.ofNat Format.binary64.exponentBits 0 ≠ -1#_ := by decide
  unfold UnpackedFloat.pack
  simp only [if_neg hfield, if_neg hbits]
  unfold UnpackedFloat.unpack
  simp only [unpackExponent_packComponents, unpackMantissa_packComponents,
    unpackSign_packComponents, if_neg hones, if_true, dif_neg hzero, hsign, hmantissa]
  rfl

theorem unpack_pack_finite (hupper : m < 2 ^ 53) (hmin : -1074 ≤ e) (hmax : e ≤ 971)
    (hnormal : e = -1074 ∨ 2 ^ 52 ≤ m) (hpos : 0 < m) :
    (pack (.finite sign m e hpos)).unpack = .finite sign m e hpos := by
  by_cases hm : 2 ^ 52 ≤ m
  · exact unpack_pack_normal hm hupper hmin hmax hpos
  · obtain rfl := hnormal.resolve_right hm
    exact unpack_pack_subnormal (not_le.1 hm) hpos

/-- What the bits of a double can stand for. -/
def IsCanonical : UnpackedFloat → Prop
  | .finite _ m e _ => m < 2 ^ 53 ∧ -1074 ≤ e ∧ e ≤ 971 ∧ (e = -1074 ∨ 2 ^ 52 ≤ m)
  | _ => True

theorem unpack_pack (h : IsCanonical u) : (pack u).unpack = u := by
  cases u with
  | notANumber => rfl
  | infinity sign | zero sign => cases sign <;> rfl
  | finite sign m e hpos => exact unpack_pack_finite h.1 h.2.1 h.2.2.1 h.2.2.2 hpos

theorem unpack_pack_infinity (sign : Sign) : (pack (.infinity sign)).unpack = .infinity sign :=
  unpack_pack trivial

theorem isCanonical_unpack (x : Float) : IsCanonical x.toModel.unpack := by
  cases h : x.toModel.unpack with
  | notANumber | infinity | zero => trivial
  | finite sign m e hpos =>
      obtain ⟨hm, ⟨hmin, hmax⟩, hnormal, -⟩ := fields_of_unpack h
      exact ⟨hm, hmin, hmax, hnormal⟩

end Packing

/-! ### Bounds -/

section Bounds

variable {sign : Sign} {m : Nat} {e k : Int} {accuracy : Accuracy} {x : Float} {b : Rat}

/-- The size of a double: a significand of 53 bits and an exponent in range. -/
def IsSize (b : Rat) : Prop :=
  ∃ (n : Nat) (k : Int), n < 2 ^ 53 ∧ -1074 ≤ k ∧ k ≤ 971 ∧ b = n * 2 ^ k

theorem isSize_natCast {n : Nat} (hn : n < 2 ^ 53) : IsSize n :=
  ⟨n, 0, hn, by decide, by decide, by rw [zpow_zero, mul_one]⟩

theorem isSize_zero : IsSize 0 := by
  exact_mod_cast isSize_natCast (Nat.two_pow_pos 53)

theorem isSize_two_pow (h : -1074 ≤ k ∧ k ≤ 1023) : IsSize (2 ^ k) := by
  rcases le_or_gt k 971 with hk | hk
  · exact ⟨1, k, Nat.one_lt_two_pow (by decide), h.1, hk, by rw [Nat.cast_one, one_mul]⟩
  · refine ⟨2 ^ 52, k - 52, by norm_num, by omega, by omega, ?_⟩
    rw [Nat.cast_pow, Nat.cast_ofNat, ← zpow_natCast, ← zpow_add₀ two_ne_zero]
    congr 1
    omega

theorem IsSize.nonneg (hb : IsSize b) : 0 ≤ b := by
  obtain ⟨n, k, -, -, -, rfl⟩ := hb
  positivity

/-- A number in the direction of a sign. -/
def along (sign : Sign) (v : Rat) : Rat :=
  match sign with
  | .positive => v
  | .negative => -v

theorem along_along (sign : Sign) (v : Rat) : along sign (along sign v) = v := by
  cases sign with
  | positive => rfl
  | negative => exact neg_neg v

theorem along_of_ne {sign' : Sign} (h : sign' ≠ sign) (v : Rat) :
    along sign' v = -along sign v := by
  cases sign <;> cases sign' <;> first | exact absurd rfl h | rfl | exact (neg_neg v).symm

theorem along_zero (sign : Sign) : along sign 0 = 0 := by
  cases sign with
  | positive => rfl
  | negative => exact neg_zero

theorem abs_along (sign : Sign) (v : Rat) : |along sign v| = |v| := by
  cases sign with
  | positive => rfl
  | negative => exact abs_neg v

theorem value_of_finite {hpos : 0 < m} (h : x.toModel.unpack = .finite sign m e hpos) :
    (Double.ofFloat x).value = along sign (m * 2 ^ e) := by
  obtain ⟨-, -, -, hvalue⟩ := fields_of_unpack h
  cases sign with
  | positive => exact hvalue
  | negative => exact hvalue

/-- A finite double of at most a size. -/
structure AtMost (bound : Rat) (x : Float) : Prop where
  isFinite : x.isFinite = true
  size_le : |(Double.ofFloat x).value| ≤ bound

/-- At least a bound in the direction of a sign, or infinite there. -/
def AtLeast (sign : Sign) (bound : Rat) (x : Float) : Prop :=
  x.toModel.unpack = .infinity sign ∨
    x.isFinite = true ∧ bound ≤ along sign (Double.ofFloat x).value

theorem not_isFinite_of_infinity {s : Sign} (h : x.toModel.unpack = .infinity s) :
    ¬x.isFinite = true := by
  intro hfinite
  have hsame : UnpackedFloat.isFinite (.infinity s) = true :=
    (congrArg UnpackedFloat.isFinite h).symm.trans hfinite
  cases hsame

/-- A number is rounded to the significand that is left, or to infinity. -/
theorem unpack_round (hfull : e ≤ -1074 ∨ 2 ^ 52 ≤ m) :
    let x := Float.ofModel (pack (roundWithAccuracy Format.binary64 sign m e accuracy))
    x.toModel.unpack = .infinity sign ∨ x.isFinite = true ∧
      along sign (Double.ofFloat x).value = rounded m e accuracy * 2 ^ (e + droppedBits m e) := by
  intro x
  have hdropped := droppedBits_eq m e
  have hbounds := rounded_bounds m e accuracy
  have hnormal : e + droppedBits m e = -1074 ∨ 2 ^ 52 ≤ rounded m e accuracy := by
    rcases (show -1074 ≤ e + droppedBits m e by omega).eq_or_lt with heq | hlt
    · exact Or.inl heq.symm
    · exact Or.inr ((normal_of_lt hfull hlt).trans hbounds.1)
  have hx : x.toModel.unpack =
      (pack (roundWithAccuracy Format.binary64 sign m e accuracy)).unpack := rfl
  have hfinite : x.isFinite = x.toModel.unpack.isFinite := rfl
  rw [roundWithAccuracy_eq] at hx
  split at hx
  · rename_i hzero
    rw [unpack_pack_zero] at hx
    refine Or.inr ⟨by rw [hfinite, hx]; rfl, ?_⟩
    rw [value_of_unpack_zero hx, along_zero, hzero, Nat.cast_zero, zero_mul]
  · split at hx
    · rename_i hlt
      rcases le_or_gt (e + droppedBits m e) 971 with hmax | hmax
      · rw [unpack_pack_finite hlt (by omega) hmax hnormal] at hx
        refine Or.inr ⟨by rw [hfinite, hx]; rfl, ?_⟩
        rw [value_of_finite hx, along_along]
      · exact Or.inl (hx.trans (unpack_pack_overflow hmax _))
    · rename_i hcarry
      have hcarry : rounded m e accuracy = 2 * 2 ^ 52 := by omega
      rcases le_or_gt (e + droppedBits m e) 970 with hmax | hmax
      · rw [unpack_pack_finite (by norm_num) (by omega) (by omega) (Or.inr le_rfl)] at hx
        refine Or.inr ⟨by rw [hfinite, hx]; rfl, ?_⟩
        rw [value_of_finite hx, along_along, hcarry, zpow_add_one₀ two_ne_zero]
        push_cast
        ring
      · exact Or.inl (hx.trans (unpack_pack_overflow (by omega) _))

theorem atMost_round (hfull : e ≤ -1074 ∨ 2 ^ 52 ≤ m) (hb : IsSize b) (hle : m * 2 ^ e ≤ b)
    (hexact : accuracy = .exact ∨ m * 2 ^ e < b) :
    AtMost b (.ofModel (pack (roundWithAccuracy Format.binary64 sign m e accuracy))) := by
  obtain ⟨n, k, hn, hmin, hmax, rfl⟩ := hb
  have hexponent := exponent_le_of_le hfull hn hmin hle
  have hrounded := rounded_le hfull hn hmin hle hexact
  have hfinite : (pack (roundWithAccuracy Format.binary64 sign m e accuracy)).unpack.isFinite =
      true := by
    refine isFinite_roundWithAccuracy_iff.2 (Or.inr ?_)
    rcases le_or_gt (e + droppedBits m e) 970 with hlt | hlast
    · exact Or.inl hlt
    · have hk : (k - (e + droppedBits m e)).toNat = 0 := by omega
      rw [hk, pow_zero, mul_one] at hrounded
      exact Or.inr ⟨hrounded.trans_lt hn, by omega⟩
  rcases @unpack_round sign _ _ accuracy hfull with hinfinite | ⟨hfinite, hvalue⟩
  · exact absurd hfinite (not_isFinite_of_infinity hinfinite)
  · refine ⟨hfinite, ?_⟩
    have hnonneg : (0 : Rat) ≤ rounded m e accuracy * 2 ^ (e + droppedBits m e) := by positivity
    rw [← abs_along sign, hvalue, abs_of_nonneg hnonneg, size_eq_of_le hexponent]
    exact size_le_size_iff.2 hrounded

theorem atLeast_round (hfull : e ≤ -1074 ∨ 2 ^ 52 ≤ m) (hb : IsSize b) (hle : b ≤ m * 2 ^ e) :
    AtLeast sign b (.ofModel (pack (roundWithAccuracy Format.binary64 sign m e accuracy))) := by
  obtain ⟨n, k, hn, hmin, -, rfl⟩ := hb
  exact (unpack_round hfull).imp_right fun ⟨hfinite, hvalue⟩ =>
    ⟨hfinite, hvalue ▸ le_rounded_size hfull hn hmin hle⟩

/-- What a number is rounded to keeps all bounds of the number that are sizes of doubles. -/
structure Rounds (v : Rat) (x : Float) : Prop where
  atMost : ∀ {b : Rat}, IsSize b → |v| ≤ b → AtMost b x
  atLeast : ∀ {s : Sign} {b : Rat}, IsSize b → b ≤ along s v → AtLeast s b x

theorem rounds_self (h : x.isFinite = true) : Rounds (Double.ofFloat x).value x where
  atMost _ hle := ⟨h, hle⟩
  atLeast _ hle := Or.inr ⟨h, hle⟩

theorem rounds_zero (h : x.toModel.unpack = .zero sign) : Rounds 0 x := by
  rw [← value_of_unpack_zero h]
  exact rounds_self (congrArg UnpackedFloat.isFinite h)

theorem rounds_round (hfull : e ≤ -1074 ∨ 2 ^ 52 ≤ m) (hpos : 0 < m) :
    Rounds (along sign (m * 2 ^ e))
      (.ofModel (pack (roundWithAccuracy Format.binary64 sign m e .exact))) := by
  have hsize : (0 : Rat) < m * 2 ^ e := by positivity
  constructor
  · intro b hb hle
    rw [abs_along, abs_of_pos hsize] at hle
    exact atMost_round hfull hb hle (Or.inl rfl)
  · intro sign' b hb hle
    have hsign : sign' = sign := by
      by_contra hne
      rw [along_of_ne hne, along_along] at hle
      linarith [hb.nonneg]
    rw [hsign, along_along] at hle
    rw [hsign]
    exact atLeast_round hfull hb hle

end Bounds

end GateAlgebra
