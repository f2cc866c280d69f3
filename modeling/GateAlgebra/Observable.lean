import GateAlgebra.CircuitError
import GateAlgebra.Gate
/-!
Pure operators: projectors, ladder operators and Pauli strings.  They have a
matrix but are not gates, and enter a circuit only inside an expectation value.
-/

namespace GateAlgebra

/-- A single-qubit Pauli matrix. -/
inductive Pauli where
  | i | x | y | z
deriving DecidableEq, Inhabited, Repr

namespace Pauli

/-- The letter of the matrix. -/
def letter : Pauli → Char
  | i => 'I'
  | x => 'X'
  | y => 'Y'
  | z => 'Z'

/-- The matrix of a letter of either case. -/
def ofLetter (c : Char) : Except CircuitError Pauli :=
  match c.toUpper with
  | 'I' => .ok i
  | 'X' => .ok x
  | 'Y' => .ok y
  | 'Z' => .ok z
  | other => .error (.invalidOperator (.notPauli other))

/-- The gate with the same matrix. -/
def gate : Pauli → Gate
  | i => .i
  | x => .x
  | y => .y
  | z => .z

theorem ofLetter_letter (p : Pauli) : ofLetter p.letter = .ok p := by
  cases p <;> rfl

end Pauli

/-- A pure operator. -/
inductive Observable where
  /-- The projector onto the state zero. -/
  | projector0
  /-- The projector onto the state one. -/
  | projector1
  /-- The operator that takes one to zero. -/
  | sigmaPlus
  /-- The operator that takes zero to one. -/
  | sigmaMinus
  /-- A tensor product of Pauli matrices, the first on the first qubit. -/
  | pauliString (factors : List Pauli)
deriving DecidableEq, Inhabited, Repr

namespace Observable

/-- A Pauli string, which must not be empty. -/
def ofPaulis (factors : List Pauli) : Except CircuitError Observable :=
  if factors.isEmpty then .error (.invalidOperator .empty)
  else .ok (.pauliString factors)

/-- Read a Pauli string such as `XZIY`. -/
def ofText (text : String) : Except CircuitError Observable := do
  ofPaulis (← text.toList.mapM Pauli.ofLetter)

def numQubits : Observable → Nat
  | pauliString factors => factors.length
  | projector0 | projector1 | sigmaPlus | sigmaMinus => 1

/-- The name; that of a Pauli string is its letters. -/
def name : Observable → String
  | projector0 => "proj0"
  | projector1 => "proj1"
  | sigmaPlus => "sigma_plus"
  | sigmaMinus => "sigma_minus"
  | pauliString factors => String.ofList (factors.map Pauli.letter)

end Observable

end GateAlgebra
