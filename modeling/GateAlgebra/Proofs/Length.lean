import GateAlgebra.Number.Hypotenuse
import GateAlgebra.Proofs.DoubleBounds
/-!
Lengths of vectors of doubles.  Where the sides are not too long, the correction of the root
divides by no zero and overflows nowhere, so the length is no NaN.  Along an axis the length is the
size of the side.
-/

namespace GateAlgebra

open Float.Model UnpackedFloat

/-! ### Powers of two as bounds -/

section Powers

variable {x y : Float} {i j k : Int}

theorem two_zpow_le (h : i ≤ k) : (2 : Rat) ^ i ≤ 2 ^ k :=
  zpow_le_zpow_right₀ one_le_two h

theorem AtMost.mul_two_pow (hx : AtMost (2 ^ i) x) (hy : AtMost (2 ^ j) y)
    (hk : i + j ≤ k ∧ -1074 ≤ k ∧ k ≤ 1023) : AtMost (2 ^ k) (x * y) :=
  hx.mul hy (isSize_two_pow hk.2) ((zpow_add₀ two_ne_zero i j).ge.trans (two_zpow_le hk.1))

theorem add_two_pow_le (hi : i < k) (hj : j < k) : (2 : Rat) ^ i + 2 ^ j ≤ 2 ^ k := by
  have hsplit : (2 : Rat) ^ k = 2 ^ (k - 1) + 2 ^ (k - 1) := by
    rw [zpow_sub_one₀ two_ne_zero]
    ring
  rw [hsplit]
  exact add_le_add (two_zpow_le (by omega)) (two_zpow_le (by omega))

theorem AtMost.add_two_pow (hx : AtMost (2 ^ i) x) (hy : AtMost (2 ^ j) y)
    (hk : (i < k ∧ j < k) ∧ -1074 ≤ k ∧ k ≤ 1023) : AtMost (2 ^ k) (x + y) :=
  hx.add hy (isSize_two_pow hk.2) (add_two_pow_le hk.1.1 hk.1.2)

theorem AtMost.sub_two_pow (hx : AtMost (2 ^ i) x) (hy : AtMost (2 ^ j) y)
    (hk : (i < k ∧ j < k) ∧ -1074 ≤ k ∧ k ≤ 1023) : AtMost (2 ^ k) (x - y) :=
  hx.sub hy (isSize_two_pow hk.2) (add_two_pow_le hk.1.1 hk.1.2)

/-- A double that is a power of two. -/
structure IsPower (k : Int) (x : Float) : Prop where
  isFinite : x.isFinite = true
  value_eq : (Double.ofFloat x).value = 2 ^ k

theorem IsPower.pos (h : IsPower k x) : 0 < (Double.ofFloat x).value := by
  rw [h.value_eq]
  exact zpow_pos two_pos k

theorem IsPower.abs_value (h : IsPower k x) : |(Double.ofFloat x).value| = 2 ^ k := by
  rw [abs_of_pos h.pos, h.value_eq]

theorem IsPower.atMost (h : IsPower k x) : AtMost (2 ^ k) x :=
  ⟨h.isFinite, h.abs_value.le⟩

theorem AtMost.div_power (hx : AtMost (2 ^ i) x) (hy : IsPower j y)
    (hk : i ≤ k + j ∧ -1074 ≤ k ∧ k ≤ 1023) : AtMost (2 ^ k) (x / y) := by
  refine hx.div hy.isFinite (zpow_pos two_pos j) hy.abs_value.ge (isSize_two_pow hk.2) ?_
  rw [← zpow_add₀ two_ne_zero]
  exact two_zpow_le hk.1

theorem isPower_of_unpack (h : x.toModel.unpack =
    .finite .positive (2 ^ 52) (k - 52) (Nat.two_pow_pos 52)) : IsPower k x where
  isFinite := congrArg UnpackedFloat.isFinite h
  value_eq := by
    rw [value_of_finite h, along, Nat.cast_pow, Nat.cast_ofNat, ← zpow_natCast,
      ← zpow_add₀ two_ne_zero]
    congr 1
    omega

theorem isPower_one : IsPower 0 1 :=
  isPower_of_unpack rfl

theorem isPower_two : IsPower 1 2 :=
  isPower_of_unpack rfl

theorem isPower_four : IsPower 2 4 :=
  isPower_of_unpack rfl

theorem isPower_longestSide : IsPower 511 longestSide :=
  isPower_of_unpack rfl

theorem isPower_shortestSide : IsPower (-459) shortestSide :=
  isPower_of_unpack rfl

theorem isPower_sideScale : IsPower (-600) sideScale :=
  isPower_of_unpack rfl

theorem isPower_negligiblePart : IsPower (-54) negligiblePart :=
  isPower_of_unpack rfl

end Powers

/-! ### The corrected root -/

section Root

variable {long short root : Float}

/-- The excess of a root does not overflow. -/
theorem atMost_squareExcess (hroot : AtMost (2 ^ (401 : Int)) root)
    (hlong : AtMost (2 ^ (400 : Int)) long) (hshort : AtMost (2 ^ (400 : Int)) short) :
    AtMost (2 ^ (808 : Int)) (squareExcess root long short) := by
  have hrest : ∀ side, AtMost (2 ^ (400 : Int)) side → AtMost (2 ^ (402 : Int)) (root - side) :=
    fun side hside => hroot.sub_two_pow hside (by decide)
  unfold squareExcess
  split
  · have hrest := hrest short hshort
    have htwice : AtMost (2 ^ (403 : Int)) (2 * (root - short)) :=
      isPower_two.atMost.mul_two_pow hrest (by decide)
    have hgap : AtMost (2 ^ (404 : Int)) (2 * (root - short) - long) :=
      htwice.sub_two_pow hlong (by decide)
    have hfirst : AtMost (2 ^ (804 : Int)) (long * (2 * (root - short) - long)) :=
      hlong.mul_two_pow hgap (by decide)
    have hsides : AtMost (2 ^ (401 : Int)) (long - short) := hlong.sub_two_pow hshort (by decide)
    have htwiceSides : AtMost (2 ^ (402 : Int)) (2 * (long - short)) :=
      isPower_two.atMost.mul_two_pow hsides (by decide)
    have hgap' : AtMost (2 ^ (403 : Int)) (root - short - 2 * (long - short)) :=
      hrest.sub_two_pow htwiceSides (by decide)
    have hsecond : AtMost (2 ^ (805 : Int))
        ((root - short - 2 * (long - short)) * (root - short)) :=
      hgap'.mul_two_pow hrest (by decide)
    exact hfirst.add_two_pow hsecond (by decide)
  · have hrest := hrest long hlong
    have htwiceShort : AtMost (2 ^ (401 : Int)) (2 * short) :=
      isPower_two.atMost.mul_two_pow hshort (by decide)
    have hsides : AtMost (2 ^ (402 : Int)) (long - 2 * short) :=
      hlong.sub_two_pow htwiceShort (by decide)
    have htwice : AtMost (2 ^ (403 : Int)) (2 * (root - long)) :=
      isPower_two.atMost.mul_two_pow hrest (by decide)
    have hfirst : AtMost (2 ^ (805 : Int)) (2 * (root - long) * (long - 2 * short)) :=
      htwice.mul_two_pow hsides (by decide)
    have hfour : AtMost (2 ^ (404 : Int)) (4 * (root - long)) :=
      isPower_four.atMost.mul_two_pow hrest (by decide)
    have hgap : AtMost (2 ^ (405 : Int)) (4 * (root - long) - short) :=
      hfour.sub_two_pow hshort (by decide)
    have hsecond : AtMost (2 ^ (805 : Int)) ((4 * (root - long) - short) * short) :=
      hgap.mul_two_pow hshort (by decide)
    have hsquare : AtMost (2 ^ (804 : Int)) ((root - long) * (root - long)) :=
      hrest.mul_two_pow hrest (by decide)
    have hrestSum : AtMost (2 ^ (806 : Int))
        ((4 * (root - long) - short) * short + (root - long) * (root - long)) :=
      hsecond.add_two_pow hsquare (by decide)
    exact hfirst.add_two_pow hrestSum (by decide)

theorem correctedRoot_ne_nan (hlong : AtMost (2 ^ (400 : Int)) long)
    (hlow : (2 : Rat) ^ (-500 : Int) ≤ (Double.ofFloat long).value)
    (hshort : AtMost (2 ^ (400 : Int)) short) :
    (correctedRoot long short).toModel.unpack ≠ .notANumber := by
  have hsquare : ∀ {side}, AtMost (2 ^ (400 : Int)) side → AtMost (2 ^ (800 : Int)) (side * side) :=
    fun hside => hside.mul_two_pow hside (by decide)
  have hsquares : AtMost (2 ^ (801 : Int)) (long * long + short * short) :=
    (hsquare hlong).add_two_pow (hsquare hshort) (by decide)
  have hsquareLong : AtLeast .positive (2 ^ (-1000 : Int)) (long * long) := by
    refine (rounds_mul hlong.isFinite hlong.isFinite).atLeast
      (isSize_two_pow (by decide)) ?_
    calc (2 : Rat) ^ (-1000 : Int) = 2 ^ (-500 : Int) * 2 ^ (-500 : Int) := by
          rw [← zpow_add₀ two_ne_zero]
          rfl
      _ ≤ _ := mul_self_le_mul_self (by positivity) hlow
  have hsquareShort : AtLeast .positive 0 (short * short) :=
    (rounds_mul hshort.isFinite hshort.isFinite).atLeast isSize_zero (mul_self_nonneg _)
  have hpositive : (2 : Rat) ^ (-1000 : Int) ≤
      (Double.ofFloat (long * long + short * short)).value :=
    (hsquareLong.add hsquareShort (isSize_two_pow (by decide))
      (add_zero _).ge).le_along hsquares.isFinite
  have hpos : 0 < (Double.ofFloat (long * long + short * short)).value :=
    lt_of_lt_of_le (by positivity) hpositive
  have hroot : AtMost (2 ^ (401 : Int)) (long * long + short * short).sqrt := by
    refine AtMost.sqrt (hsquares.mono ?_) hpos (isSize_two_pow (by decide))
    rw [← zpow_natCast, ← zpow_mul]
    exact two_zpow_le (by decide)
  have hrootLow : AtLeast .positive (2 ^ (-500 : Int)) (long * long + short * short).sqrt := by
    refine AtLeast.sqrt hsquares.isFinite hpos (isSize_two_pow (by decide)) ?_
    rw [← zpow_natCast, ← zpow_mul]
    exact hpositive
  have htwice : AtMost (2 ^ (402 : Int)) (2 * (long * long + short * short).sqrt) :=
    isPower_two.atMost.mul_two_pow hroot (by decide)
  have htwiceLow : AtLeast .positive (2 ^ (-500 : Int))
      (2 * (long * long + short * short).sqrt) := by
    refine (rounds_mul isPower_two.isFinite hroot.isFinite).atLeast
      (isSize_two_pow (by decide)) ?_
    have hle := hrootLow.le_along hroot.isFinite
    change _ ≤ _ * _
    change _ ≤ (Double.ofFloat _).value at hle
    rw [isPower_two.value_eq, zpow_one]
    linarith [zpow_pos (two_pos : (0 : Rat) < 2) (-500)]
  have hne : (Double.ofFloat (2 * (long * long + short * short).sqrt)).value ≠ 0 :=
    (lt_of_lt_of_le (by positivity) (htwiceLow.le_along htwice.isFinite)).ne'
  exact sub_ne_nan hroot.isFinite
    (div_ne_nan (atMost_squareExcess hroot hlong hshort).isFinite htwice.isFinite hne)

end Root

/-! ### Lengths -/

section Lengths

variable {long short x y : Float}

/-- A positive double is at least the least one. -/
theorem least_le_value (h : x.isFinite = true) (hpos : 0 < (Double.ofFloat x).value) :
    (2 : Rat) ^ (-1074 : Int) ≤ (Double.ofFloat x).value := by
  obtain ⟨m, e, hm, hu⟩ := finite_of_pos h hpos
  obtain ⟨-, ⟨he, -⟩, -, -⟩ := fields_of_unpack hu
  rw [value_of_finite hu]
  exact le_size_of_le (n := 0) hm (by omega)

/-- Two short sides of which neither is negligible. -/
theorem atMost_of_not_negligible (hlong : long.isFinite = true)
    (hshort : AtMost (2 ^ (-459 : Int)) short) (hnonneg : 0 ≤ (Double.ofFloat short).value)
    (hle : (Double.ofFloat short).value ≤ (Double.ofFloat long).value)
    (hpart : ¬short / negligiblePart ≤ long) :
    AtMost (2 ^ (-405 : Int)) long ∧ 0 < (Double.ofFloat long).value := by
  have hquotient : AtMost (2 ^ (-405 : Int)) (short / negligiblePart) :=
    hshort.div_power isPower_negligiblePart (by decide)
  have hbelow : (Double.ofFloat long).value < (Double.ofFloat (short / negligiblePart)).value :=
    not_le.1 fun hle => hpart ((le_iff_value_le hquotient.isFinite hlong).2 hle)
  have hlongNonneg := hnonneg.trans hle
  refine ⟨⟨hlong, ?_⟩, hlongNonneg.lt_of_ne' fun hzero => ?_⟩
  · rw [abs_of_nonneg hlongNonneg]
    exact hbelow.le.trans ((le_abs_self _).trans hquotient.size_le)
  · -- If the longer side is zero, so is the shorter one, and it counts as negligible.
    have hshortZero : AtMost 0 short := by
      refine ⟨hshort.isFinite, ?_⟩
      rw [abs_of_nonneg hnonneg]
      exact hle.trans hzero.le
    have hquotientZero : AtMost 0 (short / negligiblePart) :=
      hshortZero.div isPower_negligiblePart.isFinite (abs_pos.2 isPower_negligiblePart.pos.ne')
        le_rfl isSize_zero (zero_mul _).ge
    have hlow := (le_abs_self _).trans hquotientZero.size_le
    linarith

/-- Short sides are scaled up, and are not too long after that. -/
theorem scaledRoot_ne_nan (hlong : long.isFinite = true) (hshort : short.isFinite = true)
    (hnonneg : 0 ≤ (Double.ofFloat short).value)
    (hle : (Double.ofFloat short).value ≤ (Double.ofFloat long).value)
    (hshortest : short < shortestSide) (hpart : ¬short / negligiblePart ≤ long) :
    (correctedRoot (long / sideScale) (short / sideScale) * sideScale).toModel.unpack ≠
      .notANumber := by
  have hshortSize : AtMost (2 ^ (-459 : Int)) short := by
    refine ⟨hshort, ?_⟩
    rw [abs_of_nonneg hnonneg, ← isPower_shortestSide.value_eq]
    exact ((lt_iff_value_lt hshort isPower_shortestSide.isFinite).1 hshortest).le
  obtain ⟨hlongSize, hpos⟩ := atMost_of_not_negligible hlong hshortSize hnonneg hle hpart
  have hlongLow : (2 : Rat) ^ (-1074 : Int) ≤ along .positive (Double.ofFloat long).value :=
    least_le_value hlong hpos
  have hscalePos : 0 < along .positive (Double.ofFloat sideScale).value := isPower_sideScale.pos
  have hscaledLow : AtLeast .positive (2 ^ (-474 : Int)) (long / sideScale) := by
    refine AtLeast.div hlong hlongLow (by positivity) isPower_sideScale.atMost hscalePos
      (isSize_two_pow (by decide)) ?_
    rw [← zpow_add₀ two_ne_zero]
    exact two_zpow_le (by decide)
  have hscaled : AtMost (2 ^ (400 : Int)) (long / sideScale) :=
    hlongSize.div_power isPower_sideScale (by decide)
  have hscaledShort : AtMost (2 ^ (400 : Int)) (short / sideScale) :=
    hshortSize.div_power isPower_sideScale (by decide)
  have hlow : (2 : Rat) ^ (-500 : Int) ≤ (Double.ofFloat (long / sideScale)).value :=
    (two_zpow_le (by decide)).trans (hscaledLow.le_along hscaled.isFinite)
  exact mul_ne_nan (correctedRoot_ne_nan hscaled hlow hscaledShort) isPower_sideScale.isFinite
    isPower_sideScale.pos.ne'

theorem finiteHypotenuse_ne_nan (hlong : AtMost (2 ^ (400 : Int)) long)
    (hshort : short.isFinite = true) (hnonneg : 0 ≤ (Double.ofFloat short).value)
    (hle : (Double.ofFloat short).value ≤ (Double.ofFloat long).value) :
    (finiteHypotenuse long short).toModel.unpack ≠ .notANumber := by
  have hshortSize : AtMost (2 ^ (400 : Int)) short := by
    refine ⟨hshort, ?_⟩
    rw [abs_of_nonneg hnonneg]
    exact hle.trans ((le_abs_self _).trans hlong.size_le)
  have hsum : (long + short).toModel.unpack ≠ .notANumber :=
    (rounds_add hlong.isFinite hshort).ne_nan
  have hlongest : ¬longestSide < long := by
    rw [lt_iff_value_lt isPower_longestSide.isFinite hlong.isFinite, isPower_longestSide.value_eq,
      not_lt]
    exact (le_abs_self _).trans (hlong.size_le.trans (two_zpow_le (by decide)))
  unfold finiteHypotenuse
  rw [if_neg hlongest]
  split
  · rename_i hshortest
    split
    · exact hsum
    · rename_i hpart
      exact scaledRoot_ne_nan hlong.isFinite hshort hnonneg hle hshortest hpart
  · rename_i hshortest
    split
    · exact hsum
    · refine correctedRoot_ne_nan hlong ?_ hshortSize
      rw [lt_iff_value_lt hshort isPower_shortestSide.isFinite, isPower_shortestSide.value_eq,
        not_lt] at hshortest
      exact (two_zpow_le (by decide)).trans (hshortest.trans hle)

theorem hypotenuse_eq (hx : x.isFinite = true) (hy : y.isFinite = true) :
    hypotenuse x y =
      if x.abs < y.abs then finiteHypotenuse y.abs x.abs else finiteHypotenuse x.abs y.abs := by
  have hinf : ∀ {z : Float}, z.isFinite = true → z.isInf = false ∧ z.isNaN = false := by
    intro z hz
    change z.toModel.unpack.isInf = false ∧ z.toModel.unpack.isNaN = false
    rcases cases_of_isFinite hz with ⟨s, hu⟩ | ⟨s, m, e, hpos, hu⟩
    all_goals
      rw [hu]
      exact ⟨rfl, rfl⟩
  unfold hypotenuse
  rw [(hinf hx).1, (hinf hx).2, (hinf hy).1, (hinf hy).2, if_neg Bool.false_ne_true,
    if_neg Bool.false_ne_true, Bool.or_self, if_neg Bool.false_ne_true]

/-- Beside finite sides that are not too long there is a length. -/
theorem hypotenuse_ne_nan (hx : AtMost (2 ^ (400 : Int)) x) (hy : AtMost (2 ^ (400 : Int)) y) :
    (hypotenuse x y).toModel.unpack ≠ .notANumber := by
  have hlt := lt_iff_value_lt hx.abs.isFinite hy.abs.isFinite
  rw [hypotenuse_eq hx.isFinite hy.isFinite]
  split
  · rename_i hless
    exact finiteHypotenuse_ne_nan hy.abs hx.abs.isFinite (value_abs_nonneg x) (hlt.1 hless).le
  · rename_i hless
    exact finiteHypotenuse_ne_nan hx.abs hy.abs.isFinite (value_abs_nonneg y)
      (not_lt.1 fun h => hless (hlt.2 h))

theorem unpack_hypotenuse_infinity {s : Sign} (hx : x.toModel.unpack = .infinity s) :
    (hypotenuse x y).toModel.unpack = .infinity .positive := by
  have hinf : x.isInf = true := congrArg UnpackedFloat.isInf hx
  unfold hypotenuse
  rw [if_pos hinf, unpack_abs, hx]
  rfl

theorem isSize_abs_value (h : x.isFinite = true) : IsSize |(Double.ofFloat x).value| := by
  rcases cases_of_isFinite h with ⟨s, hu⟩ | ⟨s, m, e, hpos, hu⟩
  · rw [value_of_unpack_zero hu, abs_zero]
    exact isSize_zero
  · obtain ⟨hm, ⟨hmin, hmax⟩, -, -⟩ := fields_of_unpack hu
    rw [abs_value_of_finite hu]
    exact ⟨m, e, hm, hmin, hmax, rfl⟩

/-- A side that is zero is added. -/
theorem finiteHypotenuse_of_zero (hlong : long.isFinite = true)
    (hnonneg : 0 ≤ (Double.ofFloat long).value) (hshort : AtMost 0 short) :
    finiteHypotenuse long short = long + short := by
  have hfinitePart := isPower_negligiblePart.isFinite
  have hpart := isPower_negligiblePart.pos
  have hzero : (Double.ofFloat short).value ≤ 0 := (le_abs_self _).trans hshort.size_le
  unfold finiteHypotenuse
  split
  · have hproduct : AtMost |(Double.ofFloat long).value| (long * negligiblePart) := by
      refine AtMost.mul (b := 1) ⟨hlong, le_rfl⟩ ⟨hfinitePart, ?_⟩ (isSize_abs_value hlong)
        (mul_one _).le
      rw [isPower_negligiblePart.abs_value]
      norm_num
    have hproduct' : AtLeast .positive 0 (long * negligiblePart) :=
      (rounds_mul hlong hfinitePart).atLeast isSize_zero (mul_nonneg hnonneg hpart.le)
    have hle : short ≤ long * negligiblePart :=
      (le_iff_value_le hshort.isFinite hproduct.isFinite).2
        (hzero.trans (hproduct'.le_along hproduct.isFinite))
    rw [if_pos hle]
  · have hshortest : short < shortestSide := by
      rw [lt_iff_value_lt hshort.isFinite isPower_shortestSide.isFinite]
      exact hzero.trans_lt isPower_shortestSide.pos
    have hquotient : AtMost 0 (short / negligiblePart) :=
      hshort.div hfinitePart (hpart.trans_le (le_abs_self _)) le_rfl isSize_zero (zero_mul _).ge
    have hle : short / negligiblePart ≤ long :=
      (le_iff_value_le hquotient.isFinite hlong).2
        (((le_abs_self _).trans hquotient.size_le).trans hnonneg)
    rw [if_pos hshortest, if_pos hle]

/-- Along an axis the length is the size of the side. -/
theorem rounds_hypotenuse_axis (hx : x.isFinite = true) (hy : AtMost 0 y) :
    Rounds |(Double.ofFloat x).value| (hypotenuse x y) := by
  have hlong := value_abs_nonneg x
  have hshort : (Double.ofFloat y.abs).value = 0 := by
    rw [value_abs]
    exact le_antisymm hy.size_le (abs_nonneg _)
  have hfinite : x.abs.isFinite = true := (isFinite_abs x).trans hx
  have hlt : ¬x.abs < y.abs := by
    rw [lt_iff_value_lt hfinite hy.abs.isFinite, hshort]
    exact not_lt.2 hlong
  have hsum := rounds_add hfinite hy.abs.isFinite
  rw [hshort, add_zero, value_abs] at hsum
  rwa [hypotenuse_eq hx hy.isFinite, if_neg hlt, finiteHypotenuse_of_zero hfinite hlong hy.abs]

end Lengths

end GateAlgebra
