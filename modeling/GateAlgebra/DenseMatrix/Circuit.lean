import GateAlgebra.Circuit.Basic
import GateAlgebra.DenseMatrix.InPlace
import GateAlgebra.DenseMatrix.Operation
/-!
The unitary of a circuit: the product of its operations, each applied to the
bits of its own targets.  Qubit zero is the most significant bit of an index.
-/

namespace GateAlgebra

namespace Circuit

variable {α : Type} [Zero α] [One α] [Add α] [Mul α] [Conj α]

/-- Apply an instruction to a state on `n` qubits.  A barrier does nothing, and an
index past the register is refused before the matrix is asked for. -/
def applyInstruction (leaves : LeafMatrices α) (n : Nat) (state : DenseMatrix α)
    (inst : Instruction) : Except CircuitError (DenseMatrix α) :=
  if inst.isBarrier then .ok state
  else
    match inst.qubits.find? (n ≤ ·) with
    | some q => .error (.invalidTarget (q + 1) .outsideRegister inst.operation.name)
    | none => do
        return state.applyInPlace (← inst.operation.matrixOver leaves) inst.qubits n

/-- The unitary of a circuit on `n` qubits.  Its side is not bounded: it is assumed that there
can be an array for as many entries, which for pairs of doubles means at most 29 qubits. -/
def unitaryOver (leaves : LeafMatrices α) (c : Circuit) (n : Nat) :
    Except CircuitError (DenseMatrix α) :=
  c.instructions.foldlM (applyInstruction leaves n) (.identity (dimension n))

/-- The unitary of a circuit in doubles. -/
def unitary (c : Circuit) (n : Nat) : Except CircuitError FloatMatrix :=
  c.unitaryOver .double n

end Circuit

end GateAlgebra
