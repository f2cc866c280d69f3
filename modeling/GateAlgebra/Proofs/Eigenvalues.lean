import GateAlgebra.Proofs.DiagonalForm
import GateAlgebra.Proofs.ExactMatrix
import GateAlgebra.Proofs.PlainPower
/-!
Dense matrices with common eigenvectors.  Control blocks, tensor products and powers act on the
eigenvalues.
-/

namespace GateAlgebra

open scoped Matrix.Norms.L2Operator

namespace Exponent

variable {p e : Exponent}

/-- The principal power of a complex number. -/
noncomputable def principal (e : Exponent) (z : ℂ) : ℂ :=
  z ^ ((e.number : ℝ) : ℂ)

theorem principal_of_isOne (he : e.isOne = true) (z : ℂ) : e.principal z = z := by
  rw [principal, number_of_isOne he, Rat.cast_one, Complex.ofReal_one, Complex.cpow_one]

/-- The exponent stands for a whole number. -/
def Whole (e : Exponent) : Prop :=
  ∃ k : Nat, e.number = k

theorem principal_of_number {k : Nat} (h : e.number = k) (z : ℂ) : e.principal z = z ^ k := by
  rw [principal, h, Rat.cast_natCast, Complex.ofReal_natCast, Complex.cpow_natCast]

theorem principal_one (e : Exponent) : e.principal 1 = 1 :=
  Complex.one_cpow _

/-- A power of a principal power is principal if the one is whole or the other is at most one,
which takes no angle beyond a half turn. -/
theorem principal_of_mul (hexact : (p * e).number = p.number * e.number)
    (h : e.Whole ∨ p.number ≤ 1) (z : ℂ) : (p * e).principal z = e.principal (p.principal z) := by
  rcases h with ⟨k, hk⟩ | hp
  · rw [principal_of_number hk, principal, principal, hexact, hk, Rat.cast_mul, Complex.ofReal_mul,
      Rat.cast_natCast, Complex.ofReal_natCast, Complex.cpow_mul_nat]
  · have hp' : (p.number : ℝ) ≤ 1 := by exact_mod_cast hp
    have hp₀ : (0 : ℝ) ≤ p.number := by exact_mod_cast p.number_nonneg
    have him : (Complex.log z * ((p.number : ℝ) : ℂ)).im = z.arg * p.number := by
      rw [Complex.im_mul_ofReal, Complex.log_im]
    have hlower := Complex.neg_pi_lt_arg z
    have hupper := Complex.arg_le_pi z
    have hpi := Real.pi_pos
    rw [principal, principal, principal, hexact, Rat.cast_mul, Complex.ofReal_mul]
    refine Complex.cpow_mul _ ?_ ?_ <;> rw [him] <;> nlinarith

end Exponent

namespace DenseMatrix

section IntegerPower

variable {R : Type} [CommRing R] {m : DenseMatrix R} {n : Nat}

theorem HasSide.toMatrix_plainPower (h : m.HasSide n) (k : Nat) :
    (m.plainPower k).toMatrix n = m.toMatrix n ^ k := by
  induction k with
  | zero => rw [plainPower, h.rows, toMatrix_identity, pow_zero]
  | succ k ih =>
      have hside : (m.plainPower k).HasSide n :=
        ⟨(rows_plainPower m k).trans h.rows, (h.isSquare.cols_plainPower k).trans h.rows⟩
      rw [plainPower_succ, hside.toMatrix_mul h, ih, pow_succ]

theorem HasSide.toMatrix_integerPower (h : m.HasSide n) (k : Nat) :
    (m.integerPower (· * ·) k).toMatrix n = m.toMatrix n ^ k := by
  rw [h.isSquare.integerPower_eq, h.toMatrix_plainPower]

end IntegerPower

variable {q q' m : DenseMatrix ℂ} {w z w' z' : Nat → ℂ}

/-- The matrix with given eigenvalues on the columns of another one. -/
def eigenform (q : DenseMatrix ℂ) (z : Nat → ℂ) : DenseMatrix ℂ :=
  q * diagonal q.rows z * q.adjoint

theorem HasSide.exactPower {n : Nat} (h : m.HasSide n) (e : Exponent) :
    (m.exactPower e).HasSide n := by
  cases he : e.natural? with
  | none =>
      rw [DenseMatrix.exactPower, he]
      exact ⟨h.rows, h.rows⟩
  | some k =>
      have hsides := h.isSquare.sides_integerPower shape_mul k
      rw [DenseMatrix.exactPower, he]
      exact ⟨hsides.1.trans h.rows, hsides.2.trans h.rows⟩

theorem exactPower_identity (n : Nat) (e : Exponent) :
    (identity n : DenseMatrix ℂ).exactPower e = identity n := by
  have hside : (identity n : DenseMatrix ℂ).HasSide n := ⟨rfl, rfl⟩
  refine (hside.exactPower e).ext hside ?_
  cases he : e.natural? with
  | none =>
      rw [exactPower, he]
      refine (toMatrix_ofMatrix _).trans ?_
      exact (congrArg (GateAlgebra.principalPower · e.number) toMatrix_identity).trans
        ((one_principalPower _).trans toMatrix_identity.symm)
  | some k =>
      rw [exactPower, he]
      refine (hside.toMatrix_integerPower k).trans ?_
      rw [toMatrix_identity, one_pow]

theorem exactPower_pauliX_two :
    (Trigonometry.pauliX : DenseMatrix ℂ).exactPower (.ofNat 2) = identity 2 := by
  have hside : (Trigonometry.pauliX : DenseMatrix ℂ).HasSide 2 := ⟨rfl, rfl⟩
  refine (hside.exactPower _).ext ⟨rfl, rfl⟩ ?_
  refine (hside.toMatrix_integerPower 2).trans ?_
  rw [Trigonometry.pauliX, toMatrix_ofRows_two, sq, Matrix.mul_fin_two]
  refine Eq.trans ?_ toMatrix_identity.symm
  rw [Matrix.one_fin_two]
  simp

theorem hasSide_eigenform : (q.eigenform z).HasSide q.rows :=
  ⟨rfl, rfl⟩

/-- The columns of a unitary matrix. -/
def IsUnitary.columns (hq : q.IsUnitary) : unitary (Matrix (Fin q.rows) (Fin q.rows) ℂ) :=
  ⟨q.toMatrix q.rows, hq.square.hasSide.isUnitary_iff.1 hq⟩

theorem IsUnitary.toMatrix_eigenform (hq : q.IsUnitary) :
    (q.eigenform z).toMatrix q.rows = diagonalIn hq.columns fun i => z i := by
  have hside := hq.square.hasSide
  have hdiagonal : (diagonal q.rows z).HasSide q.rows := ⟨rfl, rfl⟩
  rw [eigenform, (hside.mul hdiagonal).toMatrix_mul hside.adjoint, hside.toMatrix_mul hdiagonal,
    toMatrix_diagonal, hside.toMatrix_adjoint, diagonalIn_eq]
  rfl

theorem IsUnitary.eigenform_eq_iff (hq : q.IsUnitary) :
    q.eigenform w = q.eigenform z ↔ ∀ i < q.rows, w i = z i := by
  have hmatrix : q.eigenform w = q.eigenform z ↔
      diagonalIn hq.columns (fun i => w i) = diagonalIn hq.columns fun i => z i := by
    rw [← hq.toMatrix_eigenform, ← hq.toMatrix_eigenform]
    exact ⟨congrArg (toMatrix q.rows), hasSide_eigenform.ext hasSide_eigenform⟩
  rw [hmatrix, diagonalIn, diagonalIn, EmbeddingLike.apply_eq_iff_eq,
    Matrix.diagonal_injective.eq_iff]
  exact ⟨fun h i hi => congrFun h ⟨i, hi⟩, fun h => funext fun i => h i i.2⟩

/-- The eigenvalues of a matrix. -/
def eigenvalues (m : DenseMatrix ℂ) : Set ℂ :=
  spectrum ℂ (m.toMatrix m.rows)

theorem IsUnitary.eigenvalues_eigenform (hq : q.IsUnitary) :
    (q.eigenform z).eigenvalues = z '' Set.Iio q.rows := by
  have hspectrum := spectrum_diagonalIn hq.columns fun i => z i
  rw [← hq.toMatrix_eigenform] at hspectrum
  refine hspectrum.trans (Set.ext fun value => ?_)
  exact ⟨fun ⟨i, hi⟩ => ⟨i, i.2, hi⟩, fun ⟨i, hi, hvalue⟩ => ⟨⟨i, hi⟩, hvalue⟩⟩

theorem IsUnitary.exists_eq_eigenform (hm : m.IsUnitary) :
    ∃ (q : DenseMatrix ℂ) (z : Nat → ℂ), q.IsUnitary ∧ m = q.eigenform z := by
  have hside := hm.square.hasSide
  obtain ⟨Q, z, hQ⟩ := exists_eq_diagonalIn (hside.isUnitary_iff.1 hm)
  let q := ofMatrix (Q : Matrix (Fin m.rows) (Fin m.rows) ℂ)
  have hq : q.IsUnitary := by
    refine (hasSide_ofMatrix _).isUnitary_iff.2 ?_
    rw [toMatrix_ofMatrix]
    exact Q.2
  have hcolumns : hq.columns = Q := Subtype.ext (toMatrix_ofMatrix _)
  refine ⟨q, fun i => if h : i < m.rows then z ⟨i, h⟩ else 0, hq, ?_⟩
  refine hside.ext hasSide_eigenform (hQ.trans ?_)
  refine Eq.trans ?_ hq.toMatrix_eigenform.symm
  rw [hcolumns]
  exact congrArg (diagonalIn Q) (funext fun i => by rw [dif_pos i.2])

/-- Whole powers multiply, and all others are principal, which is the same on eigenvalues. -/
theorem IsUnitary.exactPower_eigenform (hq : q.IsUnitary) (e : Exponent) :
    (q.eigenform z).exactPower e = q.eigenform fun i => e.principal (z i) := by
  cases he : e.natural? with
  | none =>
      rw [exactPower, he]
      refine (hasSide_ofMatrix _).ext hasSide_eigenform ?_
      refine (toMatrix_ofMatrix _).trans ?_
      refine Eq.trans ?_ hq.toMatrix_eigenform.symm
      refine (congrArg (GateAlgebra.principalPower · e.number) hq.toMatrix_eigenform).trans ?_
      exact principalPower_diagonalIn _ _ _
  | some n =>
      rw [exactPower, he]
      have hside : (q.eigenform z).HasSide q.rows := hasSide_eigenform
      have hpower := hside.isSquare.sides_integerPower shape_mul n
      have hnumber := Exponent.number_of_natural? he
      refine HasSide.ext ⟨hpower.1, hpower.2⟩ hasSide_eigenform ?_
      refine (hside.toMatrix_integerPower n).trans ?_
      refine Eq.trans ?_ hq.toMatrix_eigenform.symm
      rw [hq.toMatrix_eigenform, diagonalIn_pow]
      exact congrArg (diagonalIn _) (funext fun i => (Exponent.principal_of_number hnumber _).symm)

theorem IsUnitary.norm_eigenvalue (hm : m.IsUnitary) {value : ℂ} (h : value ∈ m.eigenvalues) :
    ‖value‖ = 1 :=
  spectrum.norm_eq_one_of_unitary (hm.square.hasSide.isUnitary_iff.1 hm) h

theorem IsUnitary.isUnitary_eigenform (hq : q.IsUnitary) (hz : ∀ i < q.rows, ‖z i‖ = 1) :
    (q.eigenform z).IsUnitary := by
  have hdiagonal : (diagonal q.rows z).HasSide q.rows := ⟨rfl, rfl⟩
  have hunitary : (diagonal q.rows z).IsUnitary := by
    refine hdiagonal.isUnitary_iff.2 (Matrix.mem_unitaryGroup_iff'.2 ?_)
    rw [toMatrix_diagonal, Matrix.star_eq_conjTranspose, Matrix.diagonal_conjTranspose,
      Matrix.diagonal_mul_diagonal, ← Matrix.diagonal_one]
    congr 1
    funext i
    have hsquare := Complex.conj_mul' (z i)
    rwa [hz i i.2, Complex.ofReal_one, one_pow] at hsquare
  exact (hq.mul hunitary hq.square.symm).mul hq.adjoint hq.square

/-- A power of a unitary matrix is one. -/
theorem IsUnitary.exactPower (hm : m.IsUnitary) (e : Exponent) : (m.exactPower e).IsUnitary := by
  obtain ⟨q, z, hq, rfl⟩ := hm.exists_eq_eigenform
  have hz : ∀ i < q.rows, ‖z i‖ = 1 := fun i hi =>
    hm.norm_eigenvalue (hq.eigenvalues_eigenform ▸ Set.mem_image_of_mem z hi)
  rw [hq.exactPower_eigenform]
  refine hq.isUnitary_eigenform fun i hi => ?_
  rw [Exponent.principal, Complex.norm_cpow_real, hz i hi, Real.one_rpow]

theorem IsUnitary.exactPower_of_isOne (hm : m.IsUnitary) {e : Exponent} (he : e.isOne = true) :
    m.exactPower e = m := by
  obtain ⟨q, z, hq, rfl⟩ := hm.exists_eq_eigenform
  rw [hq.exactPower_eigenform]
  exact hq.eigenform_eq_iff.2 fun i _ => Exponent.principal_of_isOne he (z i)

theorem IsUnitary.control_eigenform (hq : q.IsUnitary) (n : Nat) :
    (q.eigenform z).control n = (q.control n).eigenform fun i =>
      if i < q.rows * dimension n - q.rows then 1
      else z (i - (q.rows * dimension n - q.rows)) := by
  have hdiagonal : (diagonal q.rows z).IsSquare := rfl
  have hproduct : (q * diagonal q.rows z).IsSquare := rfl
  rw [eigenform, eigenform, hq.square.adjoint_control, rows_control, ← control_diagonal,
    control_mul hq.square hdiagonal hq.square.symm,
    control_mul hproduct hq.square.adjoint hq.square]

theorem IsUnitary.tensor_eigenform (hq : q.IsUnitary) (hq' : q'.IsUnitary) :
    (q.eigenform z).tensor (q'.eigenform z') =
      (q.tensor q').eigenform fun i => z (i / q'.rows) * z' (i % q'.rows) := by
  have hleft : (q * diagonal q.rows z).cols = q.adjoint.rows := hq.square
  have hright : (q' * diagonal q'.rows z').cols = q'.adjoint.rows := hq'.square
  have hcolumns : q.cols = (diagonal q.rows z).rows := hq.square.symm
  have hcolumns' : q'.cols = (diagonal q'.rows z').rows := hq'.square.symm
  rw [eigenform, eigenform, eigenform, adjoint_tensor, rows_tensor, ← tensor_diagonal,
    ← tensor_mul hleft hright, ← tensor_mul hcolumns hcolumns']

end DenseMatrix

namespace LeafMatrices

variable (reading : Reading)

/-- Over exact numbers all matrices are unitary. -/
theorem unitary_exact : (LeafMatrices.exact reading).Unitary where
  gate _ _ h := Trigonometry.isUnitary_gateMatrix h
  custom := reading.isUnitary_custom
  power m e p hm h := by
    obtain rfl := Except.ok.inj h
    exact hm.exactPower e

theorem sized_exact : (LeafMatrices.exact reading).Sized where
  gate _ _ h := ((unitary_exact reading).gate _ _ h).square
  custom _ _ h := ((unitary_exact reading).custom _ _ h).square
  power m e p hm h := by
    obtain rfl := Except.ok.inj h
    exact (hm.hasSide.exactPower e).isSquare
  rows_gate _ _ h := (sides_gateMatrix h).1
  rows_custom := reading.rows_custom
  rows_power m e p hm h := by
    obtain rfl := Except.ok.inj h
    exact (hm.hasSide.exactPower e).rows

end LeafMatrices

end GateAlgebra
