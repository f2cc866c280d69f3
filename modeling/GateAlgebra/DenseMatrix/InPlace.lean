import GateAlgebra.DenseMatrix.Basic
/-!
Applying a gate to a state in place.  The rows of the state fall into blocks, one for
each row without a target bit.  A block is read into a buffer column by column, and what the
gate makes of the buffer is written back over it.
-/

namespace GateAlgebra

/-- The bit of qubit `q` in an index over `n` qubits, alone. -/
def qubitMask (n q : Nat) : Nat :=
  1 <<< (n - 1 - q)

/-- The masks that the bits of a number select, added up.  The first mask goes with the
highest bit. -/
def selectMasks : List Nat → Nat → Nat
  | [], _ => 0
  | mask :: rest, value =>
      (if (value >>> rest.length) &&& 1 = 1 then mask else 0) + selectMasks rest value

/-- The rows in which no bit of a mask is set. -/
def baseRows (rows mask : Nat) : List Nat :=
  (List.range rows).filter fun base => base &&& mask = 0

/-- The rows that a gate of a size mixes: a base row with the bits of every number below the
size in place of the masks. -/
def mixedRows (masks : List Nat) (size base : Nat) : List Nat :=
  (List.range size).map fun value => base ||| selectMasks masks value

namespace DenseMatrix

variable {α : Type} [Zero α] [Add α] [Mul α]

/-- The matrix with one entry replaced. -/
def set (m : DenseMatrix α) (i j : Nat) (value : α) : DenseMatrix α where
  rows := m.rows
  cols := m.cols
  entries := m.entries.setIfInBounds (i * m.cols + j) value
  size_entries := Array.size_setIfInBounds.trans m.size_entries

/-- Replace the entries of one column in some rows by what a gate makes of them.  All of
them are read before the first is written. -/
def mixColumn (gate : DenseMatrix α) (rows : List Nat) (state : DenseMatrix α)
    (col : Nat) : DenseMatrix α :=
  let buffer := (rows.map fun row => state.entry row col).toArray
  rows.zipIdx.foldl (fun state place =>
    state.set place.1 col
      (sumBelow (fun j => gate.entry place.2 j * buffer.getD j 0) gate.rows)) state

/-- Mix some rows in every column. -/
def mixRows (gate : DenseMatrix α) (state : DenseMatrix α) (rows : List Nat) :
    DenseMatrix α :=
  (List.range state.cols).foldl (mixColumn gate rows) state

/-- Apply a gate to targets of a state on `n` qubits, block by block. -/
def applyInPlace (state gate : DenseMatrix α) (targets : List Nat) (n : Nat) :
    DenseMatrix α :=
  let masks := targets.map (qubitMask n)
  let bases := baseRows state.rows (masks.foldr (· + ·) 0)
  (bases.map (mixedRows masks gate.rows)).foldl (mixRows gate) state

end DenseMatrix

end GateAlgebra
