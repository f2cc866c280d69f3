import GateAlgebra.Number.Text
/-!
The ways in which building or evaluating operations, instructions and circuits
can fail, each with its message.
-/

namespace GateAlgebra

/-- What is wrong with a target index. -/
inductive TargetFault where
  | emptyGroup
  | zeroIndex
  | repeatedInGroup
  | repeatedInList
  | outsideRegister
deriving DecidableEq, Repr

def TargetFault.text : TargetFault → String
  | emptyGroup => "empty target group"
  | zeroIndex => "target indices start at 1"
  | repeatedInGroup => "index appears twice in one target group"
  | repeatedInList => "index appears twice in one target list"
  | outsideRegister => "qubit outside of the reconstructed register"

/-- What is wrong with a pure operator. -/
inductive OperatorFault where
  | empty
  | notPauli (symbol : Char)
deriving DecidableEq, Repr

def OperatorFault.text : OperatorFault → String
  | empty => "Pauli string must act on at least one qubit"
  | notPauli symbol => "'" ++ String.singleton symbol ++ "' is not a Pauli symbol"

/-- A cause of failure.  Operations are reported by name. -/
inductive CircuitError where
  /-- The number of targets does not match the operation. -/
  | arityMismatch (operation : String) (expected got : Nat)
  /-- A target index is zero, repeated or out of range, or a group is empty. -/
  | invalidTarget (target : Nat) (fault : TargetFault) (operation : String)
  /-- A pure operator cannot be applied. -/
  | nonGateOperator (operator : String)
  /-- A pure operator is malformed. -/
  | invalidOperator (fault : OperatorFault)
  /-- The operation has no inverse. -/
  | nonInvertible (operation : String)
  /-- The operation has no powers. -/
  | nonExponentiable (operation : String)
  /-- A unitary operation was required. -/
  | notUnitary (operation : String)
  /-- An exponent is infinite, negative or not a number. -/
  | invalidExponent (value : Float)
  /-- A control modifier has no control. -/
  | noControls
  /-- A parallel modifier has no repetition. -/
  | noRepeats
  /-- A parameter is outside of its range. -/
  | outOfRange (parameter : String) (value lower upper : Float)
  /-- A parameter has no value yet. -/
  | unbound (expression : String)
  /-- A position is past the end of the circuit. -/
  | invalidPosition (position length : Nat)
  /-- A matrix does not have the size of its gate. -/
  | matrixSize (gate : String) (expected rows cols : Nat)
  /-- The decomposition behind a fractional power did not converge. -/
  | noConvergence (dim : Nat)
deriving BEq

def CircuitError.message : CircuitError → String
  | arityMismatch operation expected got =>
      s!"Operation '{operation}' expects {expected} target groups, got {got}"
  | invalidTarget target fault operation =>
      s!"Invalid target {target}: {fault.text} (gate: {operation})"
  | nonGateOperator operator =>
      s!"Operator '{operator}' is not a gate and cannot be added to a circuit directly"
  | invalidOperator fault => s!"Invalid operator: {fault.text}"
  | nonInvertible operation => s!"Operation '{operation}' is not invertible"
  | nonExponentiable operation => s!"Operation '{operation}' cannot be exponentiated"
  | notUnitary operation => s!"Operation '{operation}' is not unitary"
  | invalidExponent value =>
      s!"Invalid exponent {floatText value}: exponents must be finite and non-negative"
  | noControls => "Control modifier requires at least one control qubit"
  | noRepeats => "Parallel modifier requires at least one repetition"
  | outOfRange parameter value lower upper =>
      s!"Parameter '{parameter}' = {floatText value} is out of range " ++
        s!"[{floatText lower}, {floatText upper}]"
  | unbound expression => s!"Parameter '{expression}' is unbound"
  | invalidPosition position length =>
      s!"Position {position} is out of bounds for circuit of length {length}"
  | matrixSize gate expected rows cols =>
      s!"Matrix for '{gate}' must be {expected}x{expected}, got {rows}x{cols}"
  | noConvergence dim =>
      s!"Eigendecomposition of a {dim}x{dim} matrix did not converge"

/-- What a call answers: a result or a failure, and nothing where the program stops. -/
abbrev Answer := ExceptT CircuitError Option

instance : MonadLift (Except CircuitError) Answer where
  monadLift result := ExceptT.mk (some result)

end GateAlgebra
