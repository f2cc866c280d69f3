import GateAlgebra.Proofs.MatrixProduct
import GateAlgebra.Proofs.ModifierMatrix
/-!
The matrices of gates have a row for every basis state, and if the matrices of leaves are
unitary, the matrix of any gate is.
-/

namespace GateAlgebra

namespace LeafMatrices

/-- The matrix of a leaf is square with a row for every basis state, and powers keep the
rows. -/
structure Sized {α : Type} (leaves : LeafMatrices α) : Prop extends leaves.Square where
  rows_gate : ∀ g m, leaves.gate g = .ok m → m.rows = dimension g.numQubits
  rows_custom : ∀ g m, leaves.custom g = .ok m → m.rows = dimension g.numQubits
  rows_power : ∀ m e p, m.IsSquare → leaves.power m e = .ok p → p.rows = m.rows

/-- The matrices that the program computes in doubles. -/
theorem sized_double : LeafMatrices.double.Sized where
  toSquare := square_double
  rows_gate _ _ h := (sides_gateMatrix h).1
  rows_custom _ _ h := (CustomGate.sides_matrix h).1
  rows_power _ _ _ hm h := (hm.sides_power h).1

/-- The matrices of leaves are unitary, and powers of unitary matrices are. -/
structure Unitary {R : Type} [CommRing R] [StarRing R] (leaves : LeafMatrices R) : Prop where
  gate : ∀ g m, leaves.gate g = .ok m → m.IsUnitary
  custom : ∀ g m, leaves.custom g = .ok m → m.IsUnitary
  power : ∀ m e p, m.IsUnitary → leaves.power m e = .ok p → p.IsUnitary

end LeafMatrices

theorem dimension_mul (n k : Nat) : dimension (n * k) = dimension k ^ n := by
  induction n with
  | zero => rw [Nat.zero_mul, pow_zero, dimension_zero]
  | succ n ih => rw [Nat.succ_mul, dimension_add, ih, pow_succ]

theorem DenseMatrix.rows_tensorPower {α : Type} [Zero α] [One α] [Mul α] (m : DenseMatrix α)
    (n : Nat) : (m.tensorPower n).rows = m.rows ^ n := by
  induction n with
  | zero => rfl
  | succ n ih => exact congrArg (· * m.rows) ih

namespace Operation

theorem rows_matrixOver {α : Type} [Zero α] [One α] [Add α] [Mul α] [Conj α]
    {leaves : LeafMatrices α} {x : Operation} {m : DenseMatrix α} (hsized : leaves.Sized)
    (hunitary : x.isUnitary = true) (h : x.matrixOver leaves = .ok m) :
    m.rows = dimension x.numQubits := by
  refine (matrixOver_induction
    (P := fun x m => m.IsSquare ∧ m.rows = dimension x.numQubits)
    ?_ ?_ ?_ ?_ ?_ ?_ hunitary h).2
  · exact fun g m hm => ⟨hsized.gate g m hm, hsized.rows_gate g m hm⟩
  · exact fun g m hm => ⟨hsized.custom g m hm, hsized.rows_custom g m hm⟩
  · rintro n w m ⟨-, hrows⟩
    refine ⟨DenseMatrix.isSquare_control, ?_⟩
    calc (m.control n).rows = dimension w.numQubits * dimension n :=
          congrArg (· * dimension n) hrows
      _ = dimension (n + w.numQubits) := by rw [dimension_add, Nat.mul_comm]
  · rintro e w m p ⟨hsquare, hrows⟩ hp
    exact ⟨hsized.power m e p hsquare hp, (hsized.rows_power m e p hsquare hp).trans hrows⟩
  · rintro w m ⟨hsquare, hrows⟩
    exact ⟨hsquare.adjoint, hsquare.symm.trans hrows⟩
  · rintro n w m ⟨hsquare, hrows⟩
    refine ⟨hsquare.tensorPower n, ?_⟩
    rw [DenseMatrix.rows_tensorPower, hrows]
    exact (dimension_mul n w.numQubits).symm

theorem isUnitary_matrixOver {R : Type} [CommRing R] [StarRing R] {leaves : LeafMatrices R}
    {x : Operation} {m : DenseMatrix R} (hleaves : leaves.Unitary)
    (hunitary : x.isUnitary = true) (h : x.matrixOver leaves = .ok m) : m.IsUnitary :=
  matrixOver_induction (P := fun _ m => m.IsUnitary) hleaves.gate hleaves.custom
    (fun n _ _ hm => hm.control n) (fun e _ m p hm hp => hleaves.power m e p hm hp)
    (fun _ _ hm => hm.adjoint) (fun n _ _ hm => hm.tensorPower n) hunitary h

end Operation

namespace LeafMatrices

theorem sized_gaussian : LeafMatrices.gaussian.Sized where
  toSquare := square_gaussian
  rows_gate g m h := by
    cases g with
    | x | y | z | s =>
        obtain rfl := Except.ok.inj h
        rfl
    | _ => cases h
  rows_custom g m h := by cases h
  rows_power m e p hm h := by
    obtain ⟨n, rfl⟩ := gaussian_power h
    exact (hm.sides_integerPower DenseMatrix.shape_mul n).1

theorem unitary_gaussian : LeafMatrices.gaussian.Unitary where
  gate g m h := by
    cases g with
    | x | y | z | s =>
        obtain rfl := Except.ok.inj h
        refine ⟨rfl, ?_, ?_⟩ <;> rfl
    | _ => cases h
  custom g m h := by cases h
  power m e p hm h := by
    obtain ⟨n, rfl⟩ := gaussian_power h
    exact hm.integerPower n

end LeafMatrices

end GateAlgebra
