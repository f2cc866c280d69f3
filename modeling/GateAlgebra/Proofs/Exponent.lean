import Mathlib.Algebra.Order.Field.Basic
import Mathlib.Data.Rat.Lemmas
import Mathlib.Tactic.NormNum
import GateAlgebra.Exponent
import GateAlgebra.Proofs.Double
/-!
Exponents as numbers.
-/

namespace GateAlgebra

namespace Double

theorem fraction_scaled (factor : Nat) (exponent : Int) :
    ((Fraction.scaled factor exponent).numer : Rat) / (Fraction.scaled factor exponent).denom =
      factor * 2 ^ exponent := by
  have hnumer : (Fraction.scaled factor exponent).numer = factor * 2 ^ exponent.toNat := by
    rw [Fraction.scaled, Nat.shiftLeft_eq]
  have hdenom : (Fraction.scaled factor exponent).denom = 2 ^ (-exponent).toNat := by
    rw [Fraction.scaled, Nat.one_shiftLeft]
  rw [hnumer, hdenom]
  rcases le_total 0 exponent with hnonneg | hnonpos
  · obtain ⟨n, rfl⟩ := Int.eq_ofNat_of_zero_le hnonneg
    simp
  · obtain ⟨n, hn⟩ := Int.eq_ofNat_of_zero_le (neg_nonneg.2 hnonpos)
    obtain rfl : exponent = -(n : Int) := by omega
    simp [div_eq_mul_inv]

/-- A whole double is the number of repetitions that it counts as. -/
theorem value_of_natural? {d : Double} {n : Nat} (h : d.natural? = some n) :
    max d.value 0 = n := by
  cases d with
  | nan => simp [natural?] at h
  | infinite negative => simp [natural?] at h
  | finite negative significand exponent =>
      let size := Fraction.scaled significand exponent
      have hvalue : (size.numer : Rat) / size.denom = significand * 2 ^ exponent :=
        fraction_scaled significand exponent
      simp only [natural?, Option.ite_none_right_eq_some, Option.some.injEq] at h
      obtain ⟨hwhole, hn⟩ := h
      have hfloor : (significand : Rat) * 2 ^ exponent = size.floor := by
        rw [← hvalue]
        have hpositive : (size.denom : Rat) ≠ 0 := by
          exact_mod_cast (Fraction.denom_scaled_pos significand exponent).ne'
        rw [div_eq_iff hpositive]
        exact_mod_cast (Nat.div_mul_cancel (Nat.dvd_of_mod_eq_zero hwhole)).symm
      subst hn
      cases negative with
      | false =>
          simp only [value, Bool.false_eq_true, if_false, one_mul, hfloor]
          exact max_eq_left (Nat.cast_nonneg _)
      | true =>
          simp only [value, if_true, neg_mul, one_mul, hfloor, Nat.cast_zero]
          exact max_eq_right (neg_nonpos.2 (Nat.cast_nonneg _))

theorem unpack_one : (1 : Float).toModel.unpack =
    .finite .positive leadingBit (-52) (by decide) := rfl

/-- One double equals one. -/
theorem ofFloat_of_beq_one {x : Float} (h : (x == 1) = true) :
    ofFloat x = .finite false leadingBit (-52) := by
  have hcompare : (x.toModel.unpack.compare (1 : Float).toModel.unpack == some .eq) = true := h
  rw [ofFloat_eq_ofUnpacked]
  rw [unpack_one] at hcompare
  generalize x.toModel.unpack = unpacked at hcompare ⊢
  cases unpacked with
  | notANumber => cases hcompare
  | infinity sign => cases sign <;> cases hcompare
  | zero sign => cases hcompare
  | finite sign mantissa exponent hpos =>
      cases sign with
      | negative => cases hcompare
      | positive =>
          have hthen : (compare exponent (-52)).then (compare mantissa leadingBit) = .eq :=
            Option.some.inj (eq_of_beq hcompare)
          obtain ⟨hexponent, hmantissa⟩ := Ordering.then_eq_eq.1 hthen
          obtain rfl := compare_eq_iff_eq.1 hexponent
          obtain rfl := compare_eq_iff_eq.1 hmantissa
          rfl

/-- Equality with one, as doubles, is equality with the number one. -/
theorem value_of_beq_one {x : Float} (h : (x == 1) = true) : (ofFloat x).value = 1 := by
  rw [ofFloat_of_beq_one h]
  norm_num [value, leadingBit]

theorem natural?_of_beq_one {x : Float} (h : (x == 1) = true) : (ofFloat x).natural? = some 1 := by
  rw [ofFloat_of_beq_one h]
  rfl

/-- The significand and the exponent of a finite double, in the one form in which a
normal number has its leading bit. -/
theorem normal_of_ofFloat {x : Float} {negative : Bool} {significand : Nat} {exponent : Int}
    (h : ofFloat x = finite negative significand exponent) :
    significand < 2 * leadingBit ∧ (exponent = -1074 ∨ leadingBit ≤ significand) := by
  have hfraction : x.toBits.toNat % leadingBit < leadingBit :=
    Nat.mod_lt _ (by decide)
  unfold ofFloat ofBits at h
  dsimp only at h
  split at h
  · split at h <;> cases h
  · split at h
    · cases h
      exact ⟨by omega, Or.inl rfl⟩
    · cases h
      exact ⟨by omega, Or.inr (Nat.le_add_right _ _)⟩

theorem beq_one_of_ofFloat {x : Float} (h : ofFloat x = finite false leadingBit (-52)) :
    (x == 1) = true := by
  change (x.toModel.unpack.compare (1 : Float).toModel.unpack == some .eq) = true
  rw [ofFloat_eq_ofUnpacked] at h
  rw [unpack_one]
  generalize x.toModel.unpack = unpacked at h ⊢
  cases unpacked with
  | notANumber => cases h
  | infinity sign => cases h
  | zero sign =>
      exact absurd (finite.inj h).2.1 (by decide)
  | finite sign mantissa exponent hpos =>
      obtain ⟨hsign, rfl, rfl⟩ := finite.inj h
      cases sign with
      | negative => cases hsign
      | positive => rfl

/-- The number one has one form in which a normal number has its leading bit. -/
theorem fields_of_one {significand : Nat} {exponent : Int}
    (hsize : significand <<< exponent.toNat = 1 <<< (-exponent).toNat)
    (hbound : significand < 2 * leadingBit)
    (hnormal : exponent = -1074 ∨ leadingBit ≤ significand) :
    significand = leadingBit ∧ exponent = -52 := by
  have hleading : leadingBit = 2 ^ 52 := rfl
  rw [hleading] at hbound hnormal ⊢
  rw [Nat.shiftLeft_eq, Nat.shiftLeft_eq, one_mul] at hsize
  rcases le_or_gt 0 exponent with hnonneg | hnegative
  · have hzero : (-exponent).toNat = 0 := by omega
    rw [hzero, pow_zero] at hsize
    have hunit : significand = 1 := Nat.dvd_one.1 ⟨_, hsize.symm⟩
    omega
  · have hzero : exponent.toNat = 0 := by omega
    rw [hzero, pow_zero, mul_one] at hsize
    have hupper : (-exponent).toNat < 53 := by
      rw [hsize, ← pow_succ'] at hbound
      exact (Nat.pow_lt_pow_iff_right (by decide)).1 hbound
    have hlower : 52 ≤ (-exponent).toNat := by
      rcases hnormal with hsubnormal | hnormal
      · omega
      · rw [hsize] at hnormal
        exact (Nat.pow_le_pow_iff_right (by decide)).1 hnormal
    have hexponent : exponent = -52 := by omega
    subst hexponent
    exact ⟨hsize, rfl⟩

/-- The only double that counts as one repetition is one. -/
theorem beq_one_of_natural? {x : Float} (h : (ofFloat x).natural? = some 1) :
    (x == 1) = true := by
  cases hx : ofFloat x with
  | nan => simp [hx, natural?] at h
  | infinite negative => simp [hx, natural?] at h
  | finite negative significand exponent =>
      rw [hx] at h
      obtain ⟨hbound, hnormal⟩ := normal_of_ofFloat hx
      simp only [natural?, Option.ite_none_right_eq_some, Option.some.injEq] at h
      obtain ⟨hwhole, hone⟩ := h
      cases negative with
      | true => simp at hone
      | false =>
          have hsize : significand <<< exponent.toNat = 1 <<< (-exponent).toNat := by
            have hdivides := Nat.dvd_of_mod_eq_zero hwhole
            have hproduct := Nat.div_mul_cancel hdivides
            simp only [Bool.false_eq_true, if_false, Fraction.floor] at hone
            rw [hone, one_mul] at hproduct
            exact hproduct.symm
          obtain ⟨rfl, rfl⟩ := fields_of_one hsize hbound hnormal
          exact beq_one_of_ofFloat hx

end Double

namespace Exponent

/-- The number that an exponent stands for.  No exponent is below zero; what is counts as
zero. -/
def number : Exponent → Rat
  | rational ratio => max ratio 0
  | real value => max (Double.ofFloat value).value 0

theorem number_nonneg (e : Exponent) : 0 ≤ e.number := by
  cases e with
  | rational ratio => exact le_max_right _ _
  | real value => exact le_max_right _ _

theorem number_of_natural? {e : Exponent} {n : Nat} (h : e.natural? = some n) :
    e.number = n := by
  cases e with
  | rational ratio =>
      simp only [natural?, Option.ite_none_right_eq_some, Option.some.injEq] at h
      obtain ⟨⟨hden, hnum, -⟩, rfl⟩ := h
      have hratio : ((ratio.num.toNat : Int) : Rat) = ratio := by
        rw [Int.toNat_of_nonneg hnum, Rat.coe_int_num_of_den_eq_one hden]
      rw [number, ← Int.cast_natCast, hratio]
      exact max_eq_left (Rat.num_nonneg.1 hnum)
  | real value =>
      simp only [natural?, Option.filter_eq_some_iff] at h
      exact Double.value_of_natural? h.1

theorem number_of_isOne {e : Exponent} (h : e.isOne = true) : e.number = 1 := by
  cases e with
  | rational ratio =>
      obtain rfl : ratio = 1 := by simpa [isOne] using h
      rfl
  | real value =>
      simp [number, Double.value_of_beq_one h]

theorem isOne_of_natural? {e : Exponent} (h : e.natural? = some 1) : e.isOne = true := by
  cases e with
  | rational ratio =>
      have hone : max ratio 0 = 1 := number_of_natural? h
      have hratio : ratio = 1 := by
        rcases max_choice ratio 0 with hmax | hmax
        · rw [← hmax, hone]
        · rw [hmax] at hone
          exact absurd hone zero_ne_one
      rw [isOne, hratio]
      rfl
  | real value =>
      simp only [natural?, Option.filter_eq_some_iff] at h
      exact Double.beq_one_of_natural? h.1

theorem natural?_of_isOne {e : Exponent} (h : e.isOne = true) : e.natural? = some 1 := by
  cases e with
  | rational ratio =>
      obtain rfl : ratio = 1 := by simpa [isOne] using h
      rfl
  | real value => simp [natural?, Double.natural?_of_beq_one h, maxRepetitions]

theorem isOne_of_natural?_eq_none {e : Exponent} (h : e.natural? = none) : e.isOne = false := by
  rw [← Bool.not_eq_true]
  intro hone
  cases h.symm.trans (natural?_of_isOne hone)

/-- The exponent of a square root.  An operation without an exponent has the exponent
one. -/
def root (e : Exponent) : Exponent :=
  if (e * half).isOne then ofNat 1 else e * half

def rootAt (e : Exponent) : Nat → Exponent
  | 0 => e
  | k + 1 => (e.rootAt k).root

theorem rootAt_root (e : Exponent) (k : Nat) : e.root.rootAt k = e.rootAt (k + 1) := by
  induction k with
  | zero => rfl
  | succ k ih =>
      rw [rootAt, ih]
      rfl

/-- Each of the square roots that are taken under `c` controls has exactly half the
exponent of the one before. -/
def HalvesExactly (c : Nat) (e : Exponent) : Prop :=
  ∀ k, k + 1 < c → (e.rootAt (k + 1)).number = (e.rootAt k).number / 2

theorem HalvesExactly.mono {c d : Nat} {e : Exponent} (h : e.HalvesExactly d) (hcd : c ≤ d) :
    e.HalvesExactly c :=
  fun k hk => h k (Nat.lt_of_lt_of_le hk hcd)

theorem HalvesExactly.root {c : Nat} {e : Exponent} (h : e.HalvesExactly (c + 1)) :
    e.root.HalvesExactly c := by
  intro k hk
  rw [rootAt_root, rootAt_root]
  exact h (k + 1) (Nat.add_lt_add_right hk 1)

section Fraction

theorem den_half_pow_dvd (ratio : Rat) (k : Nat) : (ratio / 2 ^ k).den ∣ ratio.den * 2 ^ k := by
  have hden : (((2 : Rat) ^ k)⁻¹).den = 2 ^ k := by
    have h := Rat.inv_natCast_den_of_pos (Nat.two_pow_pos k)
    exact_mod_cast h
  have hdvd := Rat.mul_den_dvd ratio ((2 : Rat) ^ k)⁻¹
  rwa [hden, ← div_eq_mul_inv] at hdvd

theorem num_half_pow_le {ratio : Rat} (hnonneg : 0 ≤ ratio) (k : Nat) :
    (ratio / 2 ^ k).num ≤ ratio.num := by
  have hnum : (((2 : Rat) ^ k)⁻¹).num = 1 := by
    have h := Rat.inv_natCast_num_of_pos (Nat.two_pow_pos k)
    exact_mod_cast h
  rw [div_eq_mul_inv, Rat.mul_num, hnum, mul_one]
  exact Int.ediv_le_self _ (Rat.num_nonneg.2 hnonneg)

variable {ratio : Rat} {c : Nat}

/-- Half a fraction is a fraction while its denominator can be doubled. -/
theorem mul_half_rational (hnonneg : 0 ≤ ratio) (hnum : fitsWord ratio.num = true)
    (hden : fitsWord (ratio.den * 2 ^ c : Nat) = true) {k : Nat} (hk : k + 1 ≤ c) :
    rational (ratio / 2 ^ k) * half = rational (ratio / 2 ^ (k + 1)) := by
  have hnum' : fitsWord ((ratio / 2 ^ k).num * (mkRat 1 2).num) = true := by
    have hle := num_half_pow_le hnonneg k
    have hzero : 0 ≤ (ratio / 2 ^ k).num :=
      Rat.num_nonneg.2 (div_nonneg hnonneg (pow_nonneg zero_le_two k))
    have hone : (mkRat 1 2).num = 1 := rfl
    simp only [fitsWord, Bool.and_eq_true, decide_eq_true_eq] at hnum
    rw [hone, mul_one]
    simp only [fitsWord, Bool.and_eq_true, decide_eq_true_eq]
    omega
  have hden' : fitsWord ((ratio / 2 ^ k).den * (mkRat 1 2).den : Nat) = true := by
    have htwo : (mkRat 1 2).den = 2 := rfl
    have hdvd : (ratio / 2 ^ k).den * 2 ∣ ratio.den * 2 ^ c := by
      calc (ratio / 2 ^ k).den * 2 ∣ ratio.den * 2 ^ k * 2 :=
          Nat.mul_dvd_mul_right (den_half_pow_dvd ratio k) 2
        _ = ratio.den * 2 ^ (k + 1) := by rw [pow_succ, mul_assoc]
        _ ∣ ratio.den * 2 ^ c := Nat.mul_dvd_mul_left _ (pow_dvd_pow 2 hk)
    have hle := Nat.le_of_dvd (Nat.mul_pos ratio.den_pos (Nat.two_pow_pos c)) hdvd
    rw [fitsWord_natCast] at hden ⊢
    rw [htwo]
    exact hle.trans hden
  have hfits : (fitsWord ((ratio / 2 ^ k).num * (mkRat 1 2).num) &&
      fitsWord ((ratio / 2 ^ k).den * (mkRat 1 2).den)) = true := by
    rw [Bool.and_eq_true]
    exact ⟨hnum', by simpa using hden'⟩
  have hratio : ratio / 2 ^ k * mkRat 1 2 = ratio / 2 ^ (k + 1) := by
    rw [Rat.mkRat_eq_div, pow_succ, div_mul_div_comm, Int.cast_one, mul_one]
    rfl
  change mul (rational (ratio / 2 ^ k)) (rational (mkRat 1 2)) = _
  rw [mul, if_pos hfits, hratio]

/-- The square roots of a fraction are fractions while its denominator can be doubled. -/
theorem rootAt_rational (hnonneg : 0 ≤ ratio) (hnum : fitsWord ratio.num = true)
    (hden : fitsWord (ratio.den * 2 ^ c : Nat) = true) {k : Nat} (hk : k ≤ c) :
    (rational ratio).rootAt k = rational (ratio / 2 ^ k) := by
  induction k with
  | zero => rw [rootAt, pow_zero, div_one]
  | succ k ih =>
      rw [rootAt, ih (Nat.le_of_succ_le hk), root, mul_half_rational hnonneg hnum hden hk]
      by_cases hone : (rational (ratio / 2 ^ (k + 1))).isOne = true
      · have hratio : ratio / 2 ^ (k + 1) = 1 := by simpa [isOne] using hone
        rw [if_pos hone, hratio]
        rfl
      · rw [if_neg hone]

/-- Fractions halve exactly while their denominators can be doubled. -/
theorem halvesExactly_rational (hnonneg : 0 ≤ ratio) (hnum : fitsWord ratio.num = true)
    (hden : fitsWord (ratio.den * 2 ^ c : Nat) = true) : (rational ratio).HalvesExactly c := by
  intro k hk
  rw [rootAt_rational hnonneg hnum hden (Nat.le_of_lt hk),
    rootAt_rational hnonneg hnum hden (Nat.le_of_succ_le (Nat.le_of_lt hk)), number, number,
    max_eq_left (div_nonneg hnonneg (pow_nonneg zero_le_two _)),
    max_eq_left (div_nonneg hnonneg (pow_nonneg zero_le_two _)), pow_succ, div_div]

theorem ofNat_one : ofNat 1 = rational 1 :=
  congrArg rational Nat.cast_one

theorem root_ofNat_one : (ofNat 1).root = half := by
  have hroot : (rational 1).rootAt 1 = rational (1 / 2 ^ 1) :=
    rootAt_rational zero_le_one rfl rfl (Nat.le_refl 1)
  rw [ofNat_one]
  refine hroot.trans ?_
  rw [pow_one, half, Rat.mkRat_eq_div]
  rfl

end Fraction

end Exponent

end GateAlgebra
