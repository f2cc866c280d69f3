import Mathlib.LinearAlgebra.Matrix.ConjTranspose
import Mathlib.LinearAlgebra.UnitaryGroup
import GateAlgebra.Proofs.MatrixProduct
/-!
Square dense matrices as matrices indexed by `Fin`.  Products, adjoints and diagonal matrices
correspond, so what is known of matrices over a ring can be said of dense ones.
-/

namespace GateAlgebra

namespace DenseMatrix

/-- A matrix with as many rows and columns. -/
structure HasSide {R : Type} (m : DenseMatrix R) (n : Nat) : Prop where
  rows : m.rows = n
  cols : m.cols = n

theorem HasSide.isSquare {R : Type} {m : DenseMatrix R} {n : Nat} (h : m.HasSide n) :
    m.IsSquare :=
  h.rows.trans h.cols.symm

theorem IsSquare.hasSide {R : Type} {m : DenseMatrix R} (h : m.IsSquare) : m.HasSide m.rows :=
  ⟨rfl, h.symm⟩

variable {R : Type} [CommRing R] {a b m : DenseMatrix R} {n : Nat}

theorem HasSide.mul (ha : a.HasSide n) (hb : b.HasSide n) : (a * b).HasSide n :=
  ⟨ha.rows, hb.cols⟩

/-- The entries of the first `n` rows and columns. -/
def toMatrix (n : Nat) (m : DenseMatrix R) : Matrix (Fin n) (Fin n) R :=
  fun i j => m.entry i j

/-- The dense matrix with given entries. -/
def ofMatrix (A : Matrix (Fin n) (Fin n) R) : DenseMatrix R :=
  ofFn n n fun i j => if h : i < n ∧ j < n then A ⟨i, h.1⟩ ⟨j, h.2⟩ else 0

theorem hasSide_ofMatrix (A : Matrix (Fin n) (Fin n) R) : (ofMatrix A).HasSide n :=
  ⟨rfl, rfl⟩

@[simp] theorem toMatrix_ofMatrix (A : Matrix (Fin n) (Fin n) R) : (ofMatrix A).toMatrix n = A := by
  ext i j
  rw [toMatrix, ofMatrix, entry_ofFn _ i.2 j.2, dif_pos ⟨i.2, j.2⟩]

theorem HasSide.ext (ha : a.HasSide n) (hb : b.HasSide n)
    (h : a.toMatrix n = b.toMatrix n) : a = b := by
  refine ext_entry (ha.rows.trans hb.rows.symm) (ha.cols.trans hb.cols.symm) fun i j hi hj => ?_
  have hi : i < n := ha.rows ▸ hi
  have hj : j < n := ha.cols ▸ hj
  exact congrFun (congrFun h ⟨i, hi⟩) ⟨j, hj⟩

theorem HasSide.toMatrix_mul (ha : a.HasSide n) (hb : b.HasSide n) :
    (a * b).toMatrix n = a.toMatrix n * b.toMatrix n := by
  ext i j
  rw [toMatrix, entry_mul a b (ha.rows.symm ▸ i.2) (hb.cols.symm ▸ j.2), ha.cols,
    Matrix.mul_apply, Finset.sum_range]
  rfl

@[simp] theorem toMatrix_diagonal (f : Nat → R) :
    (diagonal n f).toMatrix n = Matrix.diagonal fun i : Fin n => f i := by
  ext i j
  rw [toMatrix, diagonal, entry_ofFn _ i.2 j.2, Matrix.diagonal_apply]
  simp only [Fin.ext_iff]

theorem toMatrix_ofRows_two (p q r s : R) :
    (ofRows [[p, q], [r, s]]).toMatrix 2 = !![p, q; r, s] := by
  ext i j
  refine (entry_ofFn _ i.2 j.2).trans ?_
  fin_cases i <;> fin_cases j <;> rfl

theorem toMatrix_ofRows_four (a b c d e f g h i j k l m n o p : R) :
    (ofRows [[a, b, c, d], [e, f, g, h], [i, j, k, l], [m, n, o, p]]).toMatrix 4 =
      !![a, b, c, d; e, f, g, h; i, j, k, l; m, n, o, p] := by
  ext row col
  refine (entry_ofFn _ row.2 col.2).trans ?_
  fin_cases row <;> fin_cases col <;> rfl

@[simp] theorem toMatrix_identity : (identity n : DenseMatrix R).toMatrix n = 1 :=
  (toMatrix_diagonal _).trans Matrix.diagonal_one

theorem HasSide.toMatrix_adjoint [StarRing R] (h : m.HasSide n) :
    m.adjoint.toMatrix n = star (m.toMatrix n) := by
  ext i j
  rw [toMatrix, entry_adjoint (h.cols.symm ▸ i.2) (h.rows.symm ▸ j.2)]
  rfl

theorem HasSide.adjoint [StarRing R] (h : m.HasSide n) : m.adjoint.HasSide n :=
  ⟨h.cols, h.rows⟩

theorem HasSide.isUnitary_iff [StarRing R] (h : m.HasSide n) :
    m.IsUnitary ↔ m.toMatrix n ∈ unitary (Matrix (Fin n) (Fin n) R) := by
  have hleft : m.adjoint * m = identity n ↔ star (m.toMatrix n) * m.toMatrix n = 1 := by
    rw [← h.toMatrix_adjoint, ← h.adjoint.toMatrix_mul h, ← toMatrix_identity]
    exact ⟨congrArg (toMatrix n), (h.adjoint.mul h).ext ⟨rfl, rfl⟩⟩
  have hright : m * m.adjoint = identity n ↔ m.toMatrix n * star (m.toMatrix n) = 1 := by
    rw [← h.toMatrix_adjoint, ← h.toMatrix_mul h.adjoint, ← toMatrix_identity]
    exact ⟨congrArg (toMatrix n), (h.mul h.adjoint).ext ⟨rfl, rfl⟩⟩
  rw [Unitary.mem_iff, ← hleft, ← hright]
  constructor
  · intro hm
    exact ⟨h.rows ▸ hm.adjoint_mul_self, h.rows ▸ hm.mul_adjoint_self⟩
  · rintro ⟨hmul, hmul'⟩
    exact ⟨h.isSquare, h.rows.symm ▸ hmul, h.rows.symm ▸ hmul'⟩

end DenseMatrix

end GateAlgebra
