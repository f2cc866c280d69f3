import GateAlgebra.Circuit.Broadcast
import GateAlgebra.Document.Value
import GateAlgebra.Lowering.Config
/-!
The document of every value.
-/

namespace GateAlgebra

open Document

/-- A variant with content. -/
def Document.variant (name : String) (content : Document) : Document :=
  record [(name, content)]

def ComplexFloat.encode (a : ComplexFloat) : Document :=
  list [.ofFloat a.re, .ofFloat a.im]

def Expression.encode : Expression → Document
  | constant value => .variant "Constant" value.encode
  | symbol name => .variant "Symbol" (string name)
  | neg operand => .variant "Neg" operand.encode
  | add left right => .variant "Add" (list [left.encode, right.encode])
  | sub left right => .variant "Sub" (list [left.encode, right.encode])
  | mul left right => .variant "Mul" (list [left.encode, right.encode])
  | div left right => .variant "Div" (list [left.encode, right.encode])

def Scalar.encode : Scalar → Document
  | concrete value => .variant "Concrete" value.encode
  | symbolic e => .variant "Symbolic" e.encode

def Gate.encode : Gate → Document
  | i => string "I"
  | x => string "X"
  | y => string "Y"
  | z => string "Z"
  | h => string "H"
  | s => string "S"
  | t => string "T"
  | sx => string "SX"
  | rx angle => .variant "Rx" angle.encode
  | ry angle => .variant "Ry" angle.encode
  | rz angle => .variant "Rz" angle.encode
  | p angle => .variant "P" angle.encode
  | u theta phi lambda =>
      .variant "U" (list [theta.encode, phi.encode, lambda.encode])
  | swap => string "Swap"
  | iswap => string "ISwap"
  | rxx angle => .variant "RXX" angle.encode
  | ryy angle => .variant "RYY" angle.encode
  | rzz angle => .variant "RZZ" angle.encode

def CustomGate.encode (gate : CustomGate) : Document :=
  record [
    ("matrix", list (gate.entries.toList.map ComplexFloat.encode)),
    ("name", string gate.name),
    ("num_qubits", .ofIndex gate.numQubits),
    ("params", list (gate.params.map Scalar.encode))]

def Exponent.encode : Exponent → Document
  | rational ratio => .variant "Rational" (list [integer ratio.num, integer ratio.den])
  | real value => .variant "Real" (.ofFloat value)

def Pauli.encode (p : Pauli) : Document :=
  string (String.singleton p.letter)

def Observable.encode : Observable → Document
  | projector0 => string "Projector0"
  | projector1 => string "Projector1"
  | sigmaPlus => string "SigmaPlus"
  | sigmaMinus => string "SigmaMinus"
  | pauliString factors => .variant "PauliString" (list (factors.map Pauli.encode))

/-- The variant name of a kind of noise. -/
def Noise.variantName : Noise → String
  | depolarizing => "Depolarizing"
  | bitFlip => "BitFlip"
  | phaseFlip => "PhaseFlip"
  | amplitudeDamping => "AmplitudeDamping"
  | phaseDamping => "PhaseDamping"

def Channel.encode (c : Channel) : Document :=
  .variant c.noise.variantName (record [(c.noise.parameterName, c.parameter.encode)])

/-- The variant name of a form of operation. -/
def OperationKind.variantName : OperationKind → String
  | gate => "Gate"
  | custom => "Custom"
  | controlled => "Control"
  | powered => "Power"
  | inverted => "Inverse"
  | repeated => "Parallel"
  | measure => "Measure"
  | reset => "Reset"
  | barrier => "Barrier"
  | channel => "Channel"
  | observable => "Operator"
  | expectation => "ExpectationValue"

def Operation.encode (op : Operation) : Document :=
  match op with
  | gate g => .variant op.kind.variantName g.encode
  | custom g => .variant op.kind.variantName g.encode
  | controlled n w =>
      .variant op.kind.variantName
        (record [("num_controls", .ofIndex n), ("wrapped", w.encode)])
  | powered e w =>
      .variant op.kind.variantName
        (record [("exponent", e.encode), ("wrapped", w.encode)])
  | inverted w => .variant op.kind.variantName (record [("wrapped", w.encode)])
  | repeated n w =>
      .variant op.kind.variantName
        (record [("repeats", .ofIndex n), ("wrapped", w.encode)])
  | measure => string op.kind.variantName
  | reset => string op.kind.variantName
  | barrier width => .variant op.kind.variantName (.ofIndex width)
  | channel c => .variant op.kind.variantName c.encode
  | observable o => .variant op.kind.variantName o.encode
  | expectation o => .variant op.kind.variantName (record [("operator", o.encode)])

def Instruction.encode (inst : Instruction) : Document :=
  record [
    ("bits", .ofIndices inst.bits),
    ("operation", inst.operation.encode),
    ("qubits", .ofIndices inst.qubits),
    ("zvars", .ofIndices inst.zvars)]

def Circuit.encode (c : Circuit) : Document :=
  record [
    ("instructions", list (c.instructions.map Instruction.encode)),
    ("name", string c.name)]

def Target.encode : Target → Document
  | index i => .variant "Index" (.ofIndex i)
  | register is => .variant "Register" (.ofIndices is)

def LoweringConfig.encode (config : LoweringConfig) : Document :=
  record [
    ("ancillae", .ofIndices config.ancillae),
    ("max_passes", .ofIndex config.maxPasses)]

end GateAlgebra
