import GateAlgebra.CircuitError
import GateAlgebra.Dimension
import GateAlgebra.Scalar
import GateAlgebra.Sum
import GateAlgebra.Word
/-!
Gates given by an explicit matrix.  A matrix is accepted if it has the side of
its qubit count and its rows are orthonormal within a tolerance.
-/

namespace GateAlgebra

/-- A named gate with its matrix, row by row, and parameters for display. -/
structure CustomGate where
  name : String
  numQubits : Nat
  params : List Scalar
  entries : Array ComplexFloat
deriving Inhabited, BEq

/-- The sum of the products of row `i` with the conjugates of row `j`. -/
def rowOverlap (entries : Array ComplexFloat) (dim i j : Nat) : ComplexFloat :=
  sumBelow
    (fun k => entries.getD (i * dim + k) 0 * Conj.conj (entries.getD (j * dim + k) 0))
    dim

/-- The bound on the distance of a row overlap from its ideal value. -/
def overlapTolerance : Float := 1e-8

/-- Whether a row overlap is farther from one (a row with itself) or zero (two
rows) than the tolerance.  A NaN is not farther. -/
def overlapDiffers (entries : Array ComplexFloat) (dim i j : Nat) : Bool :=
  let ideal : ComplexFloat := if i = j then 1 else 0
  overlapTolerance < (rowOverlap entries dim i j - ideal).norm

/-- Whether row-major entries form a square matrix of side `dim` with
orthonormal rows. -/
def isUnitaryEntries (entries : Array ComplexFloat) (dim : Nat) : Bool :=
  entries.size == dim * dim &&
    (List.range dim).all fun i =>
      (List.range dim).all fun j => !overlapDiffers entries dim i j

namespace CustomGate

/-- The greatest qubit count whose matrix entries can be counted in 64 bits. -/
def maxQubits : Nat := 31

/-- A gate from its row-major entries, which have to be unitary.  A side that is too
large is reported as the largest index. -/
def ofEntries (name : String) (numQubits : Nat) (entries : Array ComplexFloat) :
    Except CircuitError CustomGate :=
  if maxQubits < numQubits then
    .error (.matrixSize name maxIndex entries.size 1)
  else
    let dim := dimension numQubits
    if entries.size ≠ dim * dim then
      .error (.matrixSize name dim (entries.size / dim) dim)
    else if !isUnitaryEntries entries dim then .error (.notUnitary name)
    else .ok { name, numQubits, params := [], entries }

/-- Attach parameters for display. -/
def withParams (gate : CustomGate) (params : List Scalar) : CustomGate :=
  { gate with params }

/-- Replace bound symbols in the display parameters. -/
def substitute (bindings : Bindings) (gate : CustomGate) : CustomGate :=
  gate.withParams (gate.params.map (Scalar.substitute bindings))

end CustomGate

end GateAlgebra
