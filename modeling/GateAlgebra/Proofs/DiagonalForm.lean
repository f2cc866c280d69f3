import Mathlib.Analysis.Matrix.Spectrum
import Mathlib.LinearAlgebra.Eigenspace.Matrix
import Mathlib.LinearAlgebra.Lagrange
import GateAlgebra.Proofs.Spectral
/-!
Unitary matrices in diagonal form.  A unitary matrix is diagonal in an orthonormal basis, and a
function of it has the values at the eigenvalues on that diagonal.
-/

namespace GateAlgebra

open Matrix
open scoped Matrix.Norms.L2Operator

variable {ι : Type} [Fintype ι] [DecidableEq ι] {A : Matrix ι ι ℂ}
  (Q : unitary (Matrix ι ι ℂ)) (z : ι → ℂ)

/-- The matrix with given eigenvalues on the columns of a unitary one. -/
def diagonalIn : Matrix ι ι ℂ :=
  Unitary.conjStarAlgAut ℂ _ Q (diagonal z)

theorem diagonalIn_eq :
    diagonalIn Q z = (Q : Matrix ι ι ℂ) * diagonal z * star (Q : Matrix ι ι ℂ) :=
  rfl

theorem spectrum_diagonalIn : spectrum ℂ (diagonalIn Q z) = Set.range z := by
  rw [diagonalIn_eq, Unitary.spectrum_star_right_conjugate, spectrum_diagonal]

theorem diagonalIn_pow (n : Nat) : diagonalIn Q z ^ n = diagonalIn Q fun i => z i ^ n := by
  rw [diagonalIn, diagonalIn, ← map_pow, diagonal_pow]
  rfl

theorem isStarNormal_diagonalIn : IsStarNormal (diagonalIn Q z) := by
  refine ⟨?_⟩
  have hdiagonal : Commute (star (diagonal z)) (diagonal z) := by
    rw [star_eq_conjTranspose, diagonal_conjTranspose]
    exact commute_diagonal _ _
  have hmap := hdiagonal.map (Unitary.conjStarAlgAut ℂ (Matrix ι ι ℂ) Q)
  rwa [map_star] at hmap

theorem aeval_diagonalIn (q : Polynomial ℂ) :
    Polynomial.aeval (diagonalIn Q z) q = diagonalIn Q fun i => q.eval (z i) := by
  have hvalues : Polynomial.aeval z q = fun i => q.eval (z i) := by
    funext i
    rw [← Polynomial.coe_aeval_eq_eval]
    exact (Polynomial.aeval_algHom_apply (Pi.evalAlgHom ℂ (fun _ => ℂ) i) z q).symm
  have hdiagonal : Polynomial.aeval (diagonal z) q = diagonal fun i => q.eval (z i) := by
    rw [← hvalues]
    exact Polynomial.aeval_algHom_apply (diagonalAlgHom ℂ) z q
  rw [diagonalIn, diagonalIn, ← hdiagonal]
  exact Polynomial.aeval_algHom_apply (Unitary.conjStarAlgAut ℂ (Matrix ι ι ℂ) Q) (diagonal z) q

/-- On finitely many eigenvalues any function is a polynomial. -/
theorem cfc_diagonalIn (f : ℂ → ℂ) : cfc f (diagonalIn Q z) = diagonalIn Q (f ∘ z) := by
  classical
  have hnormal := isStarNormal_diagonalIn Q z
  let q := Lagrange.interpolate (Finset.univ.image z) id f
  have hq : ∀ i, q.eval (z i) = f (z i) := fun i =>
    Lagrange.eval_interpolate_at_node f Function.injective_id.injOn
      (Finset.mem_image_of_mem z (Finset.mem_univ i))
  have hcongr : Set.EqOn f q.eval (spectrum ℂ (diagonalIn Q z)) := by
    rw [spectrum_diagonalIn]
    rintro _ ⟨i, rfl⟩
    exact (hq i).symm
  rw [cfc_congr hcongr, cfc_polynomial q (diagonalIn Q z), aeval_diagonalIn]
  exact congrArg (diagonalIn Q) (funext hq)

theorem principalPower_diagonalIn (p : Rat) :
    principalPower (diagonalIn Q z) p = diagonalIn Q fun i => z i ^ ((p : ℝ) : ℂ) :=
  cfc_diagonalIn Q z _

theorem one_principalPower (p : Rat) : principalPower (1 : Matrix ι ι ℂ) p = 1 := by
  simp [principalPower, cfc_apply_one]

/-- The angles of the eigenvalues are the eigenvalues of a Hermitian matrix. -/
theorem exists_eq_diagonalIn (hA : A ∈ unitary (Matrix ι ι ℂ)) : ∃ Q z, A = diagonalIn Q z := by
  have hnormal : IsStarNormal A := ⟨hA.1.trans hA.2.symm⟩
  have hfinite := Matrix.finite_spectrum A
  have hangles : (cfc (fun w : ℂ => (w.arg : ℂ)) A).IsHermitian := by
    refine (cfc_star _ A).symm.trans (cfc_congr fun w _ => ?_)
    exact Complex.conj_ofReal w.arg
  have hback : cfc (fun w : ℂ => Complex.exp (w * Complex.I))
      (cfc (fun w : ℂ => (w.arg : ℂ)) A) = A := by
    rw [← cfc_comp' _ _ A ((hfinite.image _).continuousOn _) (hfinite.continuousOn _)]
    refine (cfc_congr fun w hw => ?_).trans (cfc_id' ℂ A)
    have hnorm : ‖w‖ = 1 := spectrum.norm_eq_one_of_unitary hA hw
    have hpolar := Complex.norm_mul_exp_arg_mul_I w
    rwa [hnorm, Complex.ofReal_one, one_mul] at hpolar
  rw [← hback, hangles.spectral_theorem]
  exact ⟨_, _, cfc_diagonalIn _ _ _⟩

/-- The columns of a unitary matrix are eigenvectors of what is diagonal in it. -/
theorem diagonalIn_mulVec_col (i : ι) :
    diagonalIn Q z *ᵥ (Q : Matrix ι ι ℂ).col i = z i • (Q : Matrix ι ι ℂ).col i := by
  have hQ : star (Q : Matrix ι ι ℂ) * Q = 1 := (Unitary.mem_iff.1 Q.2).1
  have hsingle : (Pi.single i (z i) : ι → ℂ) = z i • Pi.single i 1 := by
    rw [← Pi.single_smul', smul_eq_mul, mul_one]
  rw [← mulVec_single_one, diagonalIn_eq, ← mulVec_mulVec, mulVec_mulVec _ (star _), hQ,
    one_mulVec, ← mulVec_mulVec, diagonal_mulVec_single, mul_one, hsingle, mulVec_smul]

theorem col_ne_zero (i : ι) : (Q : Matrix ι ι ℂ).col i ≠ 0 := by
  intro hzero
  have hQ : star (Q : Matrix ι ι ℂ) * Q = 1 := (Unitary.mem_iff.1 Q.2).1
  have hback := congrArg (star (Q : Matrix ι ι ℂ) *ᵥ ·) hzero
  simp only [← mulVec_single_one, mulVec_mulVec, hQ, one_mulVec, mulVec_zero] at hback
  exact one_ne_zero (Pi.single_eq_zero_iff.1 hback)

/-- The power of a unitary matrix is known by its eigenvectors. -/
theorem eq_principalPower_of_eigenvectors {B : Matrix ι ι ℂ} {p : Rat}
    (hA : A ∈ unitary (Matrix ι ι ℂ))
    (h : ∀ (z : ℂ) (v : ι → ℂ), v ≠ 0 → A *ᵥ v = z • v → B *ᵥ v = z ^ ((p : ℝ) : ℂ) • v) :
    B = principalPower A p := by
  obtain ⟨Q, z, rfl⟩ := exists_eq_diagonalIn hA
  have hQ : (Q : Matrix ι ι ℂ) * star (Q : Matrix ι ι ℂ) = 1 := (Unitary.mem_iff.1 Q.2).2
  have hcolumns : B * (Q : Matrix ι ι ℂ) = principalPower (diagonalIn Q z) p * Q := by
    refine ext_of_mulVec_single fun i => ?_
    rw [← mulVec_mulVec, ← mulVec_mulVec, mulVec_single_one,
      h (z i) _ (col_ne_zero Q i) (diagonalIn_mulVec_col Q z i), principalPower_diagonalIn,
      diagonalIn_mulVec_col]
  calc B = B * Q * star (Q : Matrix ι ι ℂ) := by rw [mul_assoc, hQ, mul_one]
    _ = principalPower (diagonalIn Q z) p := by rw [hcolumns, mul_assoc, hQ, mul_one]

/-- Past a half turn the principal power takes the angle from the other side. -/
theorem neg_one_cpow_cpow {x : ℝ} (hx : x ∈ Set.Ioc 1 3) (y : ℝ) :
    ((-1 : ℂ) ^ (x : ℂ)) ^ (y : ℂ) = (-1) ^ (((x - 2) * y + 2 : ℝ) : ℂ) := by
  have hne : (-1 : ℂ) ≠ 0 := neg_ne_zero.2 one_ne_zero
  have hturn : (-1 : ℂ) ^ (x : ℂ) = Complex.exp (((x - 2) * Real.pi : ℝ) * Complex.I) := by
    rw [Complex.cpow_def_of_ne_zero hne, Complex.log_neg_one, Complex.exp_eq_exp_iff_exists_int]
    refine ⟨1, ?_⟩
    push_cast
    ring
  have hlog : Complex.log ((-1 : ℂ) ^ (x : ℂ)) = ((x - 2) * Real.pi : ℝ) * Complex.I := by
    have hpi := Real.pi_pos
    rw [hturn]
    refine Complex.log_exp ?_ ?_ <;> rw [Complex.im_ofReal_mul, Complex.I_im, mul_one]
    · nlinarith [hx.1]
    · nlinarith [hx.2]
  rw [Complex.cpow_def_of_ne_zero (by rw [hturn]; exact Complex.exp_ne_zero _), hlog,
    Complex.cpow_def_of_ne_zero hne, Complex.log_neg_one, Complex.exp_eq_exp_iff_exists_int]
  refine ⟨-1, ?_⟩
  push_cast
  ring

/-- Powers of powers of a reflection, past a half turn. -/
theorem principalPower_principalPower [Nonempty ι] {p : Rat} (hA : A ∈ unitaryGroup ι ℂ)
    (hself : A * A = 1) (hp : (p : ℝ) ∈ Set.Ioc 1 3) (q : Rat) :
    principalPower (principalPower A p) q = principalPower A ((p - 2) * q + 2) := by
  obtain ⟨Q, z, rfl⟩ := exists_eq_diagonalIn hA
  have hsquares : ∀ i, z i ^ 2 = 1 := by
    have hspectrum := spectrum_diagonalIn Q fun i => z i ^ 2
    rw [← diagonalIn_pow, pow_two, hself, spectrum.one_eq] at hspectrum
    exact fun i => hspectrum.symm.subset ⟨i, rfl⟩
  rw [principalPower_diagonalIn, principalPower_diagonalIn, principalPower_diagonalIn]
  refine congrArg (diagonalIn Q) (funext fun i => ?_)
  rcases sq_eq_one_iff.1 (hsquares i) with hi | hi
  · simp [hi]
  · rw [hi, neg_one_cpow_cpow hp]
    push_cast
    rfl

end GateAlgebra
