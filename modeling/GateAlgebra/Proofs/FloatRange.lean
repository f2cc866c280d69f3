import GateAlgebra.Proofs.Exponent
import GateAlgebra.Proofs.Rounding
/-!
When doubles overflow.  A product is finite exactly if the product of the numbers lies below a
bound, half a step above the largest double; the quotient of two words is always finite.
-/

namespace GateAlgebra

open Float.Model UnpackedFloat

section Overflow

/-- The least size that is rounded to infinity: half a step above the largest double. -/
def overflowBound : Rat := (2 ^ 54 - 1) * 2 ^ (970 : Int)

variable {sign : Sign} {m : Nat} {e : Int} {accuracy : Accuracy}

/-- What comes of rounding is finite, unless it, or the carry, needs too large an exponent. -/
theorem isFinite_roundWithAccuracy_iff :
    (pack (roundWithAccuracy Format.binary64 sign m e accuracy)).unpack.isFinite = true ↔
      rounded m e accuracy = 0 ∨ e + droppedBits m e ≤ 970 ∨
        rounded m e accuracy < 2 ^ 53 ∧ e + droppedBits m e = 971 := by
  rw [roundWithAccuracy_eq]
  by_cases hzero : rounded m e accuracy = 0
  · rw [dif_pos hzero]
    exact ⟨fun _ => Or.inl hzero, fun _ => by cases sign <;> rfl⟩
  · rw [dif_neg hzero]
    split
    · rw [isFinite_unpack_pack]
      omega
    · rw [isFinite_unpack_pack]
      omega

/-- A tie at the largest significand is rounded up, as that one is odd. -/
theorem rounded_lt_iff {j : Nat} (hj : droppedBits m e = j + 1) :
    rounded m e .exact < 2 ^ 53 ↔ m < (2 ^ 54 - 1) * 2 ^ j := by
  have hquotient : m / 2 ^ j / 2 < 2 ^ 53 := by
    rw [Nat.div_div_eq_div_mul, ← pow_succ, ← hj]
    exact div_droppedBits_lt m e
  rw [← Nat.div_lt_iff_lt_mul (Nat.two_pow_pos j), rounded, hj]
  have hmantissa := mantissa_shiftRight (.ofMantissaAndAccuracy m .exact) (j + 1)
  have hround := roundBit_shiftRight (.ofMantissaAndAccuracy m .exact) j
  rw [mantissa_ofMantissaAndAccuracy] at hmantissa hround
  rw [pow_succ, ← Nat.div_div_eq_div_mul] at hmantissa
  generalize ExtendedMantissa.ofMantissaAndAccuracy m .exact >>> (j + 1) = em at *
  obtain ⟨q, round, sticky⟩ := em
  obtain rfl : q = m / 2 ^ j / 2 := hmantissa
  obtain rfl : round = (m / 2 ^ j % 2 != 0) := hround
  rcases Nat.mod_two_eq_zero_or_one (m / 2 ^ j) with heven | hodd
  · rw [heven]
    cases sticky <;>
      simp only [bne_self_eq_false, ExtendedMantissa.roundedMantissa, ExtendedMantissa.accuracy,
        Accuracy.roundToNearestEven] <;> omega
  · rw [hodd]
    cases sticky <;>
      simp only [show (1 != 0) = true from rfl, ExtendedMantissa.roundedMantissa,
        ExtendedMantissa.accuracy, Accuracy.roundToNearestEven] <;> omega

theorem size_lt_of_lt {n : Nat} {top : Int} (hm : m < 2 ^ n) (htop : n + e ≤ top) :
    (m : Rat) * 2 ^ e < 2 ^ top := by
  have hpos : (0 : Rat) < 2 ^ e := zpow_pos two_pos e
  calc (m : Rat) * 2 ^ e < 2 ^ n * 2 ^ e :=
        mul_lt_mul_of_pos_right (by exact_mod_cast hm) hpos
    _ = 2 ^ (n + e) := by rw [zpow_add₀ two_ne_zero, zpow_natCast]
    _ ≤ 2 ^ top := zpow_le_zpow_right₀ one_le_two htop

theorem le_size_of_le {n : Nat} {bottom : Int} (hm : 2 ^ n ≤ m) (hbottom : bottom ≤ n + e) :
    (2 : Rat) ^ bottom ≤ m * 2 ^ e := by
  have hpos : (0 : Rat) < 2 ^ e := zpow_pos two_pos e
  calc (2 : Rat) ^ bottom ≤ 2 ^ (n + e) := zpow_le_zpow_right₀ one_le_two hbottom
    _ = 2 ^ n * 2 ^ e := by rw [zpow_add₀ two_ne_zero, zpow_natCast]
    _ ≤ m * 2 ^ e := mul_le_mul_of_nonneg_right (by exact_mod_cast hm) hpos.le

theorem size_lt_overflowBound_iff {j : Nat} (hj : e + j = 970) :
    (m : Rat) * 2 ^ e < overflowBound ↔ m < (2 ^ 54 - 1) * 2 ^ j := by
  have hpos : (0 : Rat) < 2 ^ e := zpow_pos two_pos e
  have hbound : overflowBound = ((2 ^ 54 - 1) * 2 ^ j : Nat) * 2 ^ e := by
    rw [overflowBound, ← hj, zpow_add₀ two_ne_zero, zpow_natCast]
    push_cast
    ring
  rw [hbound, mul_lt_mul_iff_left₀ hpos, Nat.cast_lt]

theorem two_pow_lt_overflowBound : (2 : Rat) ^ (1023 : Int) < overflowBound := by
  have hsplit : (1023 : Int) = 53 + 970 := rfl
  rw [overflowBound, hsplit, zpow_add₀ two_ne_zero]
  exact mul_lt_mul_of_pos_right (by norm_num) (zpow_pos two_pos 970)

theorem overflowBound_lt_two_pow : overflowBound < (2 : Rat) ^ (1024 : Int) := by
  have hsplit : (1024 : Int) = 54 + 970 := rfl
  rw [overflowBound, hsplit, zpow_add₀ two_ne_zero]
  exact mul_lt_mul_of_pos_right (by norm_num) (zpow_pos two_pos 970)

/-- With the last exponent of all, the significand is rounded up out of range exactly from the
bound on. -/
theorem rounded_lt_iff_size_lt (hlast : e + droppedBits m e = 971) :
    rounded m e .exact < 2 ^ 53 ↔ (m : Rat) * 2 ^ e < overflowBound := by
  rcases Nat.eq_zero_or_pos (droppedBits m e) with hnone | hsome
  · have hrounded : rounded m e .exact = m := congrArg (fun k =>
      (ExtendedMantissa.ofMantissaAndAccuracy m .exact >>> k).roundedMantissa) hnone
    have hsize : (m : Rat) * 2 ^ e = (m * 2 : Nat) * 2 ^ (970 : Int) := by
      obtain rfl : e = 1 + 970 := by omega
      rw [zpow_add₀ two_ne_zero, zpow_one, Nat.cast_mul, mul_assoc, Nat.cast_two]
    rw [hrounded, hsize, size_lt_overflowBound_iff (add_zero 970), pow_zero, mul_one]
    omega
  · obtain ⟨j, hj⟩ := Nat.exists_eq_add_of_le' hsome
    rw [rounded_lt_iff hj, size_lt_overflowBound_iff (by omega : e + j = 970)]

/-- A number is rounded to a finite one exactly below the bound. -/
theorem isFinite_roundWithAccuracy_exact_iff (hpos : 0 < m) (hnormal : e ≤ 971 ∨ 2 ^ 52 ≤ m) :
    (pack (roundWithAccuracy Format.binary64 sign m e .exact)).unpack.isFinite = true ↔
      (m : Rat) * 2 ^ e < overflowBound := by
  have hdropped := droppedBits_eq m e
  have hquotient := div_droppedBits_lt m e
  rw [isFinite_roundWithAccuracy_iff]
  -- Only with the last exponent of all does it matter which way the significand is rounded.
  rcases lt_trichotomy (e + droppedBits m e) 971 with hbelow | hlast | habove
  · have hm : m < 2 ^ (53 + droppedBits m e) := by
      rwa [pow_add, ← Nat.div_lt_iff_lt_mul (Nat.two_pow_pos _)]
    have hsize : (m : Rat) * 2 ^ e < 2 ^ (1023 : Int) := size_lt_of_lt hm (by omega)
    exact ⟨fun _ => hsize.trans two_pow_lt_overflowBound, fun _ => by omega⟩
  · have hlimit : (rounded m e .exact = 0 ∨ e + droppedBits m e ≤ 970 ∨
        rounded m e .exact < 2 ^ 53 ∧ e + droppedBits m e = 971) ↔
          rounded m e .exact < 2 ^ 53 := by omega
    rw [hlimit, rounded_lt_iff_size_lt hlast]
  · have hm : 2 ^ 52 ≤ m := by
      rcases hnormal with he | hm
      · by_contra hsmall
        have hlog : m.log2 < 52 := (Nat.log2_lt hpos.ne').2 (not_le.1 hsmall)
        omega
      · exact hm
    have hlog : 52 ≤ m.log2 := (Nat.le_log2 hpos.ne').2 hm
    have hsome := (le_div_droppedBits hm (by omega)).trans (rounded_bounds m e .exact).1
    have hsize : (2 : Rat) ^ (1024 : Int) ≤ m * 2 ^ e :=
      le_size_of_le (Nat.log2_self_le hpos.ne') (by omega)
    exact ⟨fun h => by omega, fun h =>
      absurd (h.trans overflowBound_lt_two_pow) (not_lt.2 hsize)⟩

end Overflow

section Products

variable {x y : Float}

theorem unpack_mul (x y : Float) : (x * y).toModel.unpack =
    (pack (UnpackedFloat.mul Format.binary64 x.toModel.unpack y.toModel.unpack)).unpack := rfl

theorem mul_comm_double (x y : Float) : x * y = y * x := by
  change Float.ofModel (pack (UnpackedFloat.mul Format.binary64 _ _)) =
    Float.ofModel (pack (UnpackedFloat.mul Format.binary64 _ _))
  have hsign : ∀ s s' : Sign, s * s' = s' * s := fun s s' => by cases s <;> cases s' <;> rfl
  have hcomm : ∀ u v : UnpackedFloat, UnpackedFloat.mul Format.binary64 u v =
      UnpackedFloat.mul Format.binary64 v u := by
    intro u v
    cases u <;> cases v <;>
      simp only [UnpackedFloat.mul, hsign, Nat.mul_comm, Int.add_comm]
  rw [hcomm]

theorem isFinite_of_pack {u : UnpackedFloat} (h : (pack u).unpack.isFinite = true) :
    u.isFinite = true := by
  cases u with
  | notANumber => exact h
  | infinity sign => cases sign <;> exact h
  | zero | finite => rfl

theorem unpack_pack_zero (sign : Sign) : (pack (.zero sign)).unpack = .zero sign := by
  cases sign <;> rfl

theorem isFinite_of_mul_unpacked {format : Format} {u v : UnpackedFloat}
    (h : (UnpackedFloat.mul format u v).isFinite = true) :
    u.isFinite = true ∧ v.isFinite = true := by
  cases u with
  | notANumber => cases h
  | infinity => cases v <;> cases h
  | zero | finite =>
      refine ⟨rfl, ?_⟩
      cases v with
      | notANumber | infinity => cases h
      | zero | finite => rfl

/-- What is not finite stays so in every product. -/
theorem isFinite_of_mul (h : (x * y).isFinite = true) : x.isFinite = true ∧ y.isFinite = true :=
  isFinite_of_mul_unpacked (isFinite_of_pack h)

/-- The significand and the exponent of a number that a double unpacks to. -/
theorem normal_of_unpack {sign : Sign} {m : Nat} {e : Int} {hpos : 0 < m}
    (h : x.toModel.unpack = .finite sign m e hpos) : e = -1074 ∨ 2 ^ 52 ≤ m := by
  have hread : Double.ofFloat x = .finite (sign == .negative) m e := by
    rw [Double.ofFloat_eq_ofUnpacked, h]
    rfl
  exact (Double.normal_of_ofFloat hread).2

theorem value_ofUnpacked_zero (sign : Sign) : (Double.ofUnpacked (.zero sign)).value = 0 := by
  change _ * ((0 : Nat) : Rat) * _ = 0
  rw [Nat.cast_zero, mul_zero, zero_mul]

theorem abs_value_ofUnpacked {sign : Sign} {m : Nat} {e : Int} {hpos : 0 < m} :
    |(Double.ofUnpacked (.finite sign m e hpos)).value| = m * 2 ^ e := by
  have hsize : (0 : Rat) ≤ m * 2 ^ e := mul_nonneg (Nat.cast_nonneg m) (zpow_pos two_pos e).le
  cases sign with
  | positive =>
      change |1 * (m : Rat) * 2 ^ e| = _
      rw [one_mul, abs_of_nonneg hsize]
  | negative =>
      change |-1 * (m : Rat) * 2 ^ e| = _
      rw [mul_assoc, neg_one_mul, abs_neg, abs_of_nonneg hsize]

/-- A product of doubles overflows exactly if the product of the numbers does. -/
theorem isFinite_mul_iff (hx : x.isFinite = true) (hy : y.isFinite = true) :
    (x * y).isFinite = true ↔
      |(Double.ofFloat x).value * (Double.ofFloat y).value| < overflowBound := by
  have hzero : ∀ sign, (pack (.zero sign)).unpack.isFinite = true ↔ 0 < overflowBound :=
    fun sign => iff_of_true (congrArg UnpackedFloat.isFinite (unpack_pack_zero sign))
      ((zpow_pos two_pos _).trans two_pow_lt_overflowBound)
  change (x * y).toModel.unpack.isFinite = true ↔ _
  change x.toModel.unpack.isFinite = true at hx
  change y.toModel.unpack.isFinite = true at hy
  -- A large exponent needs a leading bit to be rounded exactly, and only subnormal numbers,
  -- which have the least exponent, have none.
  rw [unpack_mul, Double.ofFloat_eq_ofUnpacked, Double.ofFloat_eq_ofUnpacked]
  have hnormalx := @normal_of_unpack x
  have hnormaly := @normal_of_unpack y
  generalize x.toModel.unpack = u at *
  generalize y.toModel.unpack = v at *
  cases u with
  | notANumber | infinity => cases hx
  | zero sign =>
      rw [value_ofUnpacked_zero, zero_mul, abs_zero]
      cases v with
      | notANumber | infinity => cases hy
      | zero sign' | finite sign' => exact hzero _
  | finite sign m e hpos =>
      cases v with
      | notANumber | infinity => cases hy
      | zero sign' =>
          rw [value_ofUnpacked_zero, mul_zero, abs_zero]
          exact hzero _
      | finite sign' m' e' hpos' =>
          have hproduct : (m : Rat) * 2 ^ e * (m' * 2 ^ e') = (m * m' : Nat) * 2 ^ (e + e') := by
            rw [zpow_add₀ two_ne_zero, Nat.cast_mul, mul_mul_mul_comm]
          have hnormal : e + e' ≤ 971 ∨ 2 ^ 52 ≤ m * m' := by
            rcases hnormalx rfl with hsubnormal | hm
            · rcases hnormaly rfl with hsubnormal' | hm'
              · omega
              · exact Or.inr (hm'.trans (Nat.le_mul_of_pos_left m' hpos))
            · exact Or.inr (hm.trans (Nat.le_mul_of_pos_right m hpos'))
          rw [abs_mul, abs_value_ofUnpacked, abs_value_ofUnpacked, hproduct]
          exact isFinite_roundWithAccuracy_exact_iff (Nat.mul_pos hpos hpos') hnormal

end Products

section Quotients

/-- A number with a leading bit, with an exponent in a range. -/
def IsNormal (low high : Int) (u : UnpackedFloat) : Prop :=
  ∃ (sign : Sign) (m : Nat) (e : Int) (hpos : 0 < m),
    u = .finite sign m e hpos ∧ 2 ^ 52 ≤ m ∧ m < 2 ^ 53 ∧ low ≤ e ∧ e ≤ high

variable {low high low' high' : Int} {u v : UnpackedFloat}

theorem IsNormal.unpack_pack (h : IsNormal low high u) (hlow : -1074 ≤ low) (hhigh : high ≤ 971) :
    IsNormal low high (pack u).unpack := by
  obtain ⟨sign, m, e, hpos, rfl, hlower, hupper, hmin, hmax⟩ := h
  rw [unpack_pack_normal hlower hupper (hlow.trans hmin) (hmax.trans hhigh)]
  exact ⟨sign, m, e, hpos, rfl, hlower, hupper, hmin, hmax⟩

theorem isNormal_roundWithAccuracy {sign : Sign} {m : Nat} {e : Int} {accuracy : Accuracy}
    (hm : 2 ^ 52 ≤ m) (hmin : -1074 ≤ low) (hlow : low ≤ e + m.log2 - 52)
    (hhigh : e + m.log2 - 51 ≤ high) :
    IsNormal low high (roundWithAccuracy Format.binary64 sign m e accuracy) := by
  have hpos : 0 < m := (Nat.two_pow_pos 52).trans_le hm
  have hlog : 52 ≤ m.log2 := (Nat.le_log2 hpos.ne').2 hm
  have hdropped := droppedBits_eq m e
  have hbounds := rounded_bounds m e accuracy
  have hleading : 2 ^ 52 ≤ m / 2 ^ droppedBits m e := le_div_droppedBits hm (by omega)
  rw [roundWithAccuracy_eq, dif_neg (by omega)]
  split
  · exact ⟨sign, _, _, _, rfl, by omega, ‹_›, by omega, by omega⟩
  · exact ⟨sign, _, _, _, rfl, le_rfl, by decide, by omega, by omega⟩

theorem log2_mul_normal {m n : Nat} (hm : 2 ^ 52 ≤ m ∧ m < 2 ^ 53) (hn : 2 ^ 52 ≤ n ∧ n < 2 ^ 53) :
    104 ≤ (m * n).log2 ∧ (m * n).log2 ≤ 105 := by
  have hlower : 2 ^ 52 * 2 ^ 52 ≤ m * n := Nat.mul_le_mul hm.1 hn.1
  have hupper : m * n < 2 ^ 53 * 2 ^ 53 := Nat.mul_lt_mul'' hm.2 hn.2
  rw [← pow_add] at hlower hupper
  have hne : m * n ≠ 0 := (Nat.lt_of_lt_of_le (Nat.two_pow_pos _) hlower).ne'
  exact ⟨(Nat.le_log2 hne).2 hlower, Nat.le_of_lt_succ ((Nat.log2_lt hne).2 hupper)⟩

theorem IsNormal.mul (hu : IsNormal low high u) (hv : IsNormal low' high' v)
    (hmin : -1126 ≤ low + low') :
    IsNormal (low + low' + 52) (high + high' + 54) (UnpackedFloat.mul Format.binary64 u v) := by
  obtain ⟨sign, m, e, hpos, rfl, hlower, hupper, he, he'⟩ := hu
  obtain ⟨sign', n, f, hpos', rfl, hlower', hupper', hf, hf'⟩ := hv
  have hlog := log2_mul_normal ⟨hlower, hupper⟩ ⟨hlower', hupper'⟩
  have hle : 2 ^ 52 ≤ m * n := hlower.trans (Nat.le_mul_of_pos_right m hpos')
  exact isNormal_roundWithAccuracy hle (by omega) (by omega) (by omega)

/-- The quotient of normal numbers, with one bit to spare. -/
theorem divCore_eq {m n : Nat} {e f : Int} (hm : m.log2 = 52) (hn : n.log2 = 52)
    (hexponent : -1021 ≤ e - f) :
    divCore Format.binary64 m e n f =
      (m * 2 ^ 53 / n, e - f - 53, accuracyOfFraction (m * 2 ^ 53 % n) n) := by
  have htarget : min (e - f) (Format.binary64.targetExponent
      (totalExponent m e - totalExponent n f)) = e - f - 53 := by
    change min (e - f) (max ((m.log2 : Int) + 1 + e - ((n.log2 : Int) + 1 + f) - 53) (-1074)) = _
    omega
  have hshift : (e - f - (e - f - 53)).toNat = 53 := by omega
  simp only [divCore, htarget, hshift, Nat.shiftLeft_eq]

theorem IsNormal.div (hu : IsNormal low high u) (hv : IsNormal low' high' v)
    (hmin : -1021 ≤ low - high') :
    IsNormal (low - high' - 53) (high - low' - 51) (UnpackedFloat.div Format.binary64 u v) := by
  obtain ⟨sign, m, e, hpos, rfl, hlower, hupper, he, he'⟩ := hu
  obtain ⟨sign', n, f, hpos', rfl, hlower', hupper', hf, hf'⟩ := hv
  have hlogm : m.log2 = 52 := (Nat.log2_eq_iff hpos.ne').2 ⟨hlower, hupper⟩
  have hlogn : n.log2 = 52 := (Nat.log2_eq_iff hpos'.ne').2 ⟨hlower', hupper'⟩
  have hquotient : 2 ^ 52 ≤ m * 2 ^ 53 / n := by
    rw [Nat.le_div_iff_mul_le hpos']
    omega
  have hquotient' : m * 2 ^ 53 / n < 2 ^ 54 := by
    rw [Nat.div_lt_iff_lt_mul hpos']
    omega
  have hne : m * 2 ^ 53 / n ≠ 0 := by omega
  have hlog : 52 ≤ (m * 2 ^ 53 / n).log2 := (Nat.le_log2 hne).2 hquotient
  have hlog' : (m * 2 ^ 53 / n).log2 < 54 := (Nat.log2_lt hne).2 hquotient'
  change IsNormal _ _ (roundWithAccuracy Format.binary64 (sign / sign')
    (divCore Format.binary64 m e n f).1 (divCore Format.binary64 m e n f).2.1
    (divCore Format.binary64 m e n f).2.2)
  rw [divCore_eq hlogm hlogn (by omega)]
  dsimp only
  exact isNormal_roundWithAccuracy hquotient (by omega) (by omega) (by omega)

theorem log2_mul_two_pow {n : Nat} (hpos : 0 < n) (k : Nat) : (n * 2 ^ k).log2 = n.log2 + k := by
  rw [Nat.log2_eq_iff (Nat.mul_pos hpos (Nat.two_pow_pos k)).ne', pow_add, pow_succ, pow_add,
    mul_right_comm, ← pow_succ]
  exact ⟨Nat.mul_le_mul_right _ (Nat.log2_self_le hpos.ne'),
    Nat.mul_lt_mul_of_pos_right Nat.lt_log2_self (Nat.two_pow_pos k)⟩

theorem isNormal_ofNat {n : Nat} (hpos : 0 < n) (hn : n < 2 ^ 64) :
    IsNormal (-52) 12 (UnpackedFloat.ofNat Format.binary64 n) := by
  have hlog : n.log2 < 64 := (Nat.log2_lt hpos.ne').2 hn
  have htarget : Format.binary64.targetExponent (totalExponent n 0) = n.log2 - 52 := by
    change max ((n.log2 : Int) + 1 + 0 - 53) (-1074) = _
    omega
  have hround : UnpackedFloat.ofNat Format.binary64 n =
      roundWithAccuracy Format.binary64 .positive (n * 2 ^ (52 - n.log2))
        (0 - (52 - n.log2 : Nat)) .exact := by
    have hcompare : compare (n : Int) 0 = .gt := Std.compare_eq_gt.2 (by omega)
    have hshift : (0 - ((n.log2 : Int) - 52)).toNat = 52 - n.log2 := by omega
    simp only [UnpackedFloat.ofNat, UnpackedFloat.ofInt, UnpackedFloat.normalize, hcompare,
      UnpackedFloat.round, Int.toNat_natCast, htarget, decreaseExponent, hshift, Nat.shiftLeft_eq]
  have hshifted := log2_mul_two_pow hpos (52 - n.log2)
  have hlower : 2 ^ 52 ≤ n * 2 ^ (52 - n.log2) := by
    calc 2 ^ 52 ≤ 2 ^ (n.log2 + (52 - n.log2)) := Nat.pow_le_pow_right Nat.two_pos (by omega)
      _ = 2 ^ n.log2 * 2 ^ (52 - n.log2) := pow_add _ _ _
      _ ≤ n * 2 ^ (52 - n.log2) := Nat.mul_le_mul_right _ (Nat.log2_self_le hpos.ne')
  rw [hround]
  exact isNormal_roundWithAccuracy hlower (by decide) (by omega) (by omega)

theorem isNormal_ofScientific {n : Nat} (hpos : 0 < n) (hn : n < 2 ^ 64) :
    IsNormal (-52) 14 (UnpackedFloat.ofScientific Format.binary64 n 0) := by
  have hlog : n.log2 < 64 := (Nat.log2_lt hpos.ne').2 hn
  have hshifted : (n <<< 53 * 10 ^ (0 : Int).toNat).log2 = n.log2 + 53 := by
    change (n <<< 53 * 1).log2 = _
    rw [mul_one, Nat.shiftLeft_eq, log2_mul_two_pow hpos]
  have hproduct : UnpackedFloat.ofScientific Format.binary64 n 0 =
      roundWithAccuracy Format.binary64 .positive (n <<< 53 * 10 ^ (0 : Int).toNat) (-53 + 0)
        .exact := by
    have hsmall : ¬(0 : Int) < -(2 ^ Format.binary64.exponentBits + (n.log2 : Int)) := by
      change ¬(0 : Int) < -(2048 + (n.log2 : Int))
      omega
    rw [UnpackedFloat.ofScientific, dif_neg hpos.ne', if_neg (by decide), if_neg hsmall,
      if_pos le_rfl]
    rfl
  have hlower : 2 ^ 52 ≤ n <<< 53 * 10 ^ (0 : Int).toNat := by
    change 2 ^ 52 ≤ n <<< 53 * 1
    omega
  rw [hproduct]
  exact isNormal_roundWithAccuracy hlower (by decide) (by omega) (by omega)

theorem isNormal_natCast {n : Nat} (hpos : 0 < n) (hn : n < 2 ^ 64) :
    IsNormal (-52) 14 (Float.ofNat n).toModel.unpack := by
  change IsNormal (-52) 14 (Float.ofScientific n false 0).toModel.unpack
  unfold Float.ofScientific
  -- Small numbers are words times the power of ten zero, and large ones are rounded as they are.
  split
  · have hword : IsNormal (-52) 12 (n.toUInt64.toFloat).toModel.unpack := by
      have hsame : n.toUInt64.toNat = n := Nat.mod_eq_of_lt hn
      change IsNormal (-52) 12 (pack (UnpackedFloat.ofNat Format.binary64 n.toUInt64.toNat)).unpack
      rw [hsame]
      exact (isNormal_ofNat hpos hn).unpack_pack (by decide) (by decide)
    have hone : IsNormal (-52) (-52) (Float.exactlyRepresentablePowersOfTen[0]).toModel.unpack :=
      ⟨.positive, 2 ^ 52, -52, Nat.two_pow_pos 52, rfl, le_rfl, by decide, le_rfl, le_rfl⟩
    exact (hword.mul hone (by decide)).unpack_pack (by decide) (by decide)
  · change IsNormal (-52) 14 (pack (UnpackedFloat.ofScientific Format.binary64 n 0)).unpack
    exact (isNormal_ofScientific hpos hn).unpack_pack (by decide) (by decide)

/-- The quotient of two words is zero or a number far from the bound. -/
theorem isNormal_div_natCast {n d : Nat} (hn : n < 2 ^ 64) (hd : 0 < d) (hd' : d < 2 ^ 64) :
    IsNormal (-119) 15 (Float.ofNat n / Float.ofNat d).toModel.unpack ∨
      ∃ sign, (Float.ofNat n / Float.ofNat d).toModel.unpack = .zero sign := by
  have hdenom := isNormal_natCast hd hd'
  have hquotient : (Float.ofNat n / Float.ofNat d).toModel.unpack =
      (pack (UnpackedFloat.div Format.binary64 (Float.ofNat n).toModel.unpack
        (Float.ofNat d).toModel.unpack)).unpack := rfl
  rw [hquotient]
  rcases Nat.eq_zero_or_pos n with rfl | hpos
  · have hzero : (Float.ofNat 0).toModel.unpack = .zero .positive := rfl
    obtain ⟨sign, m, e, hm, hunpack, -⟩ := hdenom
    rw [hzero, hunpack]
    exact Or.inr ⟨_, unpack_pack_zero _⟩
  · exact Or.inl (((isNormal_natCast hpos hn).div hdenom (by decide)).unpack_pack
      (by decide) (by decide))

theorem isFinite_div_natCast {n d : Nat} (hn : n < 2 ^ 64) (hd : 0 < d) (hd' : d < 2 ^ 64) :
    (Float.ofNat n / Float.ofNat d).isFinite = true := by
  change (Float.ofNat n / Float.ofNat d).toModel.unpack.isFinite = true
  rcases isNormal_div_natCast hn hd hd' with ⟨sign, m, e, hm, hunpack, -⟩ | ⟨sign, hzero⟩
  · rw [hunpack]
    rfl
  · rw [hzero]
    rfl

theorem abs_value_div_natCast_lt {n d : Nat} (hn : n < 2 ^ 64) (hd : 0 < d) (hd' : d < 2 ^ 64) :
    |(Double.ofFloat (Float.ofNat n / Float.ofNat d)).value| < 2 ^ (68 : Int) := by
  rw [Double.ofFloat_eq_ofUnpacked]
  rcases isNormal_div_natCast hn hd hd' with
    ⟨sign, m, e, hm, hunpack, -, hupper, -, hmax⟩ | ⟨sign, hzero⟩
  · rw [hunpack, abs_value_ofUnpacked]
    exact size_lt_of_lt hupper (by omega)
  · rw [hzero, value_ofUnpacked_zero, abs_zero]
    exact zpow_pos two_pos 68

end Quotients

end GateAlgebra
