import GateAlgebra.DenseMatrix.Gate
import GateAlgebra.DenseMatrix.Power
import GateAlgebra.Operation.Basic
/-!
The matrix of an operation, given the matrices of its leaves and a power of
matrices.  The first target of an operation has the most significant bit.
-/

namespace GateAlgebra

/-- The matrices of leaves and the powers of matrices. -/
structure LeafMatrices (α : Type) where
  gate : Gate → Except CircuitError (DenseMatrix α)
  custom : CustomGate → Except CircuitError (DenseMatrix α)
  observable : Observable → DenseMatrix α
  power : DenseMatrix α → Exponent → Except CircuitError (DenseMatrix α)

/-- The matrix of an operation: a control block, a power, an adjoint or a tensor
power of the matrix of what a modifier wraps.  An operation that is neither a
gate nor a pure operator has none. -/
def Operation.matrixOver {α : Type} [Zero α] [One α] [Add α] [Mul α] [Conj α]
    (leaves : LeafMatrices α) (op : Operation) : Except CircuitError (DenseMatrix α) :=
  match op with
  | gate g => leaves.gate g
  | custom g => leaves.custom g
  | controlled n w => do return (← w.matrixOver leaves).control n
  | powered e w => do leaves.power (← w.matrixOver leaves) e
  | inverted w => do return (← w.matrixOver leaves).adjoint
  | repeated n w => do return (← w.matrixOver leaves).tensorPower n
  | observable o => .ok (leaves.observable o)
  | op => .error (.notUnitary op.name)

/-- The matrix of a custom gate, whose entries have to fill its side. -/
def CustomGate.matrix (g : CustomGate) : Except CircuitError FloatMatrix :=
  let dim := dimension g.numQubits
  if h : g.entries.size = dim * dim then .ok ⟨dim, dim, g.entries, h⟩
  else .error (.matrixSize g.name dim (g.entries.size / dim) dim)

/-- Matrices in doubles. -/
def LeafMatrices.double : LeafMatrices ComplexFloat where
  gate := Gate.matrix
  custom := CustomGate.matrix
  observable := Observable.matrix
  power := DenseMatrix.power

/-- The matrix of an operation in doubles. -/
def Operation.matrix (op : Operation) : Except CircuitError FloatMatrix :=
  op.matrixOver .double

end GateAlgebra
