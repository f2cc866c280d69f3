import GateAlgebra.BranchCut
import GateAlgebra.DenseMatrix.Schur
import GateAlgebra.Exponent
/-!
Powers of matrices.  A whole exponent multiplies; any other takes the principal
power of each eigenvalue.
-/

namespace GateAlgebra

namespace DenseMatrix

/-- Entries off the diagonal that are shorter than this count as zero. -/
def diagonalTolerance : Float := 1e-10

/-- Whether every entry off the diagonal counts as zero. -/
def isDiagonal (m : FloatMatrix) : Bool :=
  (List.range m.rows).all fun i =>
    (List.range m.cols).all fun j =>
      i == j || (m.entry i j).norm < diagonalTolerance

/-- The diagonal matrix of the principal powers of the diagonal. -/
def diagonalPower (m : FloatMatrix) (exponent : Float) : FloatMatrix :=
  diagonal m.rows fun i => (m.entry i i).principalPower exponent

/-- The square matrix of the first columns, as many as there are rows. -/
def leadingSquare (m : FloatMatrix) : FloatMatrix :=
  ofFn m.rows m.rows m.entry

/-- The power of a matrix by the principal powers of its eigenvalues.  Columns past
the leading square only count when the matrix is tested for being diagonal. -/
def fractionalPower (m : FloatMatrix) (exponent : Float) :
    Except CircuitError FloatMatrix :=
  if m.isDiagonal then .ok (m.diagonalPower exponent)
  else
    match m.leadingSquare.schur? with
    | none => .error (.noConvergence m.rows)
    | some state =>
        .ok (state.basis * state.form.diagonalPower exponent * state.basis.adjoint)

/-- The power of a matrix. -/
def power (m : FloatMatrix) (exponent : Exponent) : Except CircuitError FloatMatrix :=
  match exponent.natural? with
  | some n => .ok (m.integerPower product n)
  | none => m.fractionalPower exponent.toFloat

end DenseMatrix

end GateAlgebra
