import GateAlgebra.DenseMatrix.Operation
/-!
The matrix of an operation as it is stored.  The side of a control block is shifted in 64
bits, and the program stops where an array for the entries of a matrix cannot be.
-/

namespace GateAlgebra

namespace Counting

/-- Shift to the left.  A shift by 64 bits or more stops the program, or it is by what is
left of the amount in six bits. -/
def shiftLeft (counting : Counting) (n amount : Nat) : Option Nat :=
  match counting with
  | exact => some (n * dimension amount)
  | stops => if amount < 64 then some (n * dimension amount % (maxIndex + 1)) else none
  | wraps => some (n * dimension (amount % 64) % (maxIndex + 1))

/-- The greatest number of pairs of doubles that an array can hold. -/
def maxEntries : Nat := 0x07ffffffffffffff

/-- Whether there can be an array for so many entries. -/
def holds (counting : Counting) (entries : Nat) : Bool :=
  counting == exact || entries ≤ maxEntries

end Counting

namespace DenseMatrix

variable {α : Type} [Zero α] [One α]

/-- The matrix under `n` controls, if it can be stored and the block is not larger. -/
def controlIn (counting : Counting) (n : Nat) (m : DenseMatrix α) : Option (DenseMatrix α) := do
  let dim ← counting.shiftLeft m.rows n
  if m.rows ≤ dim ∧ counting.holds (dim * dim) then some (m.inLastBlock dim) else none

variable [Mul α]

/-- The tensor product, if it can be stored. -/
def tensorIn (counting : Counting) (a b : DenseMatrix α) : Option (DenseMatrix α) :=
  if counting.holds (a.rows * b.rows * (a.cols * b.cols)) then some (a.tensor b) else none

/-- Append copies of a matrix to a tensor product, one after the other. -/
def tensorCopiesIn (counting : Counting) (m : DenseMatrix α) :
    Nat → DenseMatrix α → Option (DenseMatrix α)
  | 0, result => some result
  | n + 1, result => do tensorCopiesIn counting m n (← result.tensorIn counting m)

end DenseMatrix

/-- The matrix of an operation, computed from the inside out, and nothing where the program
stops. -/
def Operation.matrixIn {α : Type} [Zero α] [One α] [Add α] [Mul α] [Conj α] (counting : Counting)
    (leaves : LeafMatrices α) (op : Operation) : Answer (DenseMatrix α) :=
  match op with
  | gate g => liftM (leaves.gate g)
  | custom g =>
      if counting.holds g.entries.size then liftM (leaves.custom g) else ExceptT.lift none
  | controlled n w => do ExceptT.lift ((← w.matrixIn counting leaves).controlIn counting n)
  | powered e w => do liftM (leaves.power (← w.matrixIn counting leaves) e)
  | inverted w => do return (← w.matrixIn counting leaves).adjoint
  | repeated n w => do
      ExceptT.lift ((← w.matrixIn counting leaves).tensorCopiesIn counting n (.identity 1))
  | observable o =>
      let dim := dimension o.numQubits
      if counting.holds (dim * dim) then pure (leaves.observable o) else ExceptT.lift none
  | op => throw (.notUnitary op.name)

end GateAlgebra
