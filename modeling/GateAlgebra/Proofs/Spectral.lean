import Mathlib.Analysis.CStarAlgebra.ContinuousFunctionalCalculus.Basic
import Mathlib.Analysis.CStarAlgebra.ContinuousFunctionalCalculus.Unitary
import Mathlib.Analysis.CStarAlgebra.Matrix
import Mathlib.Analysis.SpecialFunctions.Pow.Real
import Mathlib.LinearAlgebra.Eigenspace.Minpoly
/-!
Powers of unitary matrices over the complex numbers.  They are taken on the spectrum, along the
principal branch.
-/

namespace GateAlgebra

open scoped Matrix.Norms.L2Operator

variable {ι : Type} [Fintype ι] [DecidableEq ι] {A : Matrix ι ι ℂ} {p q : Rat}

/-- The power of a matrix by the principal powers of its eigenvalues. -/
noncomputable def principalPower (A : Matrix ι ι ℂ) (p : Rat) : Matrix ι ι ℂ :=
  cfc (fun z : ℂ => z ^ ((p : ℝ) : ℂ)) A

theorem isStarNormal_of_unitary (hA : A ∈ Matrix.unitaryGroup ι ℂ) : IsStarNormal A :=
  ⟨(Matrix.mem_unitaryGroup_iff'.1 hA).trans (Matrix.mem_unitaryGroup_iff.1 hA).symm⟩

theorem continuousOn_spectrum (f : ℂ → ℂ) (A : Matrix ι ι ℂ) :
    ContinuousOn f (spectrum ℂ A) :=
  (Matrix.finite_spectrum A).continuousOn f

theorem norm_of_mem_spectrum (hA : A ∈ Matrix.unitaryGroup ι ℂ) {z : ℂ}
    (hz : z ∈ spectrum ℂ A) : ‖z‖ = 1 :=
  spectrum.norm_eq_one_of_unitary hA hz

theorem principalPower_zero (hA : A ∈ Matrix.unitaryGroup ι ℂ) : principalPower A 0 = 1 := by
  have hnormal := isStarNormal_of_unitary hA
  simp only [principalPower, Rat.cast_zero, Complex.ofReal_zero, Complex.cpow_zero]
  exact cfc_const_one ℂ A

theorem principalPower_one (hA : A ∈ Matrix.unitaryGroup ι ℂ) : principalPower A 1 = A := by
  have hnormal := isStarNormal_of_unitary hA
  simp only [principalPower, Rat.cast_one, Complex.ofReal_one, Complex.cpow_one]
  exact cfc_id' ℂ A

theorem principalPower_mul (hA : A ∈ Matrix.unitaryGroup ι ℂ) :
    principalPower A p * principalPower A q = principalPower A (p + q) := by
  have hnormal := isStarNormal_of_unitary hA
  rw [principalPower, principalPower, ← cfc_mul _ _ A (continuousOn_spectrum _ A)
    (continuousOn_spectrum _ A), principalPower]
  apply cfc_congr
  intro z hz
  have hne : z ≠ 0 := by
    rintro rfl
    simpa using norm_of_mem_spectrum hA hz
  simp [Complex.cpow_add _ _ hne]

theorem principalPower_mem (hA : A ∈ Matrix.unitaryGroup ι ℂ) :
    principalPower A p ∈ Matrix.unitaryGroup ι ℂ := by
  refine (cfc_unitary_iff _ A (isStarNormal_of_unitary hA) (continuousOn_spectrum _ A)).2 ?_
  intro z hz
  have hnorm : ‖z ^ ((p : ℝ) : ℂ)‖ = 1 := by
    rw [Complex.norm_cpow_real, norm_of_mem_spectrum hA hz, Real.one_rpow]
  have hsquare := Complex.conj_mul' (z ^ ((p : ℝ) : ℂ))
  rw [hnorm] at hsquare
  simpa using hsquare

/-- Below two, the powers of minus one are told apart by their exponents. -/
theorem eq_of_neg_one_cpow_eq {x y : ℝ} (hx : x ∈ Set.Ico 0 2) (hy : y ∈ Set.Ico 0 2)
    (h : (-1 : ℂ) ^ (x : ℂ) = (-1) ^ (y : ℂ)) : x = y := by
  have hne : (-1 : ℂ) ≠ 0 := neg_ne_zero.2 one_ne_zero
  rw [Complex.cpow_def_of_ne_zero hne, Complex.cpow_def_of_ne_zero hne, Complex.log_neg_one,
    Complex.exp_eq_exp_iff_exists_int] at h
  obtain ⟨n, hn⟩ := h
  have hpi : (Real.pi : ℂ) * Complex.I ≠ 0 :=
    mul_ne_zero (Complex.ofReal_ne_zero.2 Real.pi_ne_zero) Complex.I_ne_zero
  have hreal : (x : ℂ) = y + 2 * n := by
    apply mul_left_cancel₀ hpi
    rw [hn]
    ring
  have hdiff : x = y + 2 * n := by exact_mod_cast hreal
  have hlower : (-1 : ℝ) < n := by linarith [hx.1, hy.2]
  have hupper : (n : ℝ) < 1 := by linarith [hx.2, hy.1]
  obtain rfl : n = 0 := by
    have hlower' : -1 < n := by exact_mod_cast hlower
    have hupper' : n < 1 := by exact_mod_cast hupper
    omega
  simpa using hdiff

/-- Minus one is an eigenvalue of a reflection, so its powers are told apart too. -/
theorem eq_of_principalPower_eq (hA : A ∈ Matrix.unitaryGroup ι ℂ) (hself : A * A = 1)
    (hne : A ≠ 1) (hp : (p : ℝ) ∈ Set.Ico 0 2) (hq : (q : ℝ) ∈ Set.Ico 0 2)
    (h : principalPower A p = principalPower A q) : p = q := by
  have hspectrum : (-1 : ℂ) ∈ spectrum ℂ A := by
    rw [spectrum.mem_iff]
    intro hunit
    have hproduct : (algebraMap ℂ (Matrix ι ι ℂ) (-1) - A) * (1 - A) = 0 := by
      rw [map_neg, map_one, sub_mul, mul_sub, mul_sub, hself, mul_one, mul_one, neg_one_mul]
      abel
    have hzero := (hunit.mul_right_eq_zero).1 hproduct
    exact hne (sub_eq_zero.1 hzero).symm
  have hnormal := isStarNormal_of_unitary hA
  have hagree := (cfc_eq_cfc_iff_eqOn hnormal (continuousOn_spectrum _ A)
    (continuousOn_spectrum _ A)).1 h hspectrum
  exact_mod_cast eq_of_neg_one_cpow_eq hp hq hagree

end GateAlgebra
