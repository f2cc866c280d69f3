import GateAlgebra.Lowering.ControlledX
import GateAlgebra.Lowering.Expansion
/-!
Lowering of one instruction.  Gates are expanded, modifiers are taken apart, and
what no rule applies to stays as it is.

A power of something that lowers to one other instruction is lowered again as the
power of that instruction.  Nothing in the operation gets smaller by this alone,
so lowering counts the depth of its recursion, and a call that is not allotted any
depth is unfinished.  The rank of an operation is depth enough unless an operation
differs from itself, as one with a NaN does.
-/

namespace GateAlgebra

/-- The depth that lowering a gate may need. -/
def Gate.rank : Gate → Nat
  | swap | rzz _ | u _ _ _ => 3
  | rxx _ | ryy _ => 4
  | iswap => 5
  | i | x | y | z | h | s | t | sx | rx _ | ry _ | rz _ | p _ => 1

/-- The depth that lowering an operation may need.  A power weighs most, since it
may be taken inside whatever its operation is lowered to. -/
def Operation.rank : Operation → Nat
  | gate g => g.rank
  | controlled _ w => w.rank + 1
  | repeated _ w => w.rank + 1
  | inverted w => 2 * w.rank
  | powered _ w => 3 * w.rank
  | custom _ | measure | reset | barrier _ | channel _ | observable _
  | expectation _ => 1

/-- Consecutive blocks of a width; the last may be shorter.  There is at most one
block for each index. -/
def blocks (width : Nat) (indices : List Nat) : Nat → List (List Nat)
  | 0 => []
  | count + 1 =>
      if indices.isEmpty then []
      else indices.take width :: blocks width (indices.drop width) count

/-- Whether an operation on qubits was lowered to just itself. -/
def isUnchanged (lowered : List Instruction) (op : Operation) (qubits : List Nat) : Bool :=
  match lowered with
  | [only] => only.operation == op && only.qubits == qubits
  | _ => false

section Step

/-! The rules, with `lower` for what is lowered within them. -/

variable (lower : Instruction → Emission)

def lowerOn (op : Operation) (qubits : List Nat) : Emission :=
  .build (Instruction.onQubits op qubits) lower

/-- A gate is replaced by its expansion, each step lowered. -/
def lowerGate (inst : Instruction) (g : Gate) : Emission :=
  .build (g.expansion inst.qubits) fun expansion =>
    match expansion with
    | some steps => .sequence (steps.map lower)
    | none => .done [inst]

/-- An inverse is the inverse of each lowered instruction, last to first. -/
def lowerInverted (wrapped : Operation) (qubits : List Nat) : Emission :=
  (lowerOn lower wrapped qubits).whole fun lowered =>
    .sequence (lowered.reverse.map fun inst =>
      .bind (inst.inverse.mapError .ofRefusal) fun inverse => .done [inverse])

/-- Copies are lowered block by block.  Blocks need at least one qubit. -/
def lowerRepeated (wrapped : Operation) (qubits : List Nat) : Emission :=
  if wrapped.numQubits = 0 then .failure (.notDecomposable wrapped.name)
  else
    .sequence ((blocks wrapped.numQubits qubits qubits.length).map
      (lowerOn lower wrapped))

/-- A whole power repeats, the zeroth one without a look at what it repeats.  Any
other power of a gate with a known root is that root.  A power of what lowers to one
other instruction is lowered as the power of that instruction, and everything else
stays. -/
def lowerPowered (inst : Instruction) (exponent : Exponent) (wrapped : Operation) :
    Emission :=
  match exponent.natural? with
  | some 0 => .done []
  | some n => (lowerOn lower wrapped inst.qubits).times n
  | none =>
      let root? :=
        match wrapped with
        | .gate g => g.root? exponent
        | _ => none
      match root? with
      | some root => lowerOn lower (.gate root) inst.qubits
      | none =>
          (lowerOn lower wrapped inst.qubits).whole fun lowered =>
            match lowered with
            | [only] =>
                if isUnchanged lowered wrapped inst.qubits then .done [inst]
                else
                  .bind ((only.operation.power exponent).mapError .ofRefusal)
                    fun powered => lowerOn lower powered only.qubits
            | _ => .done [inst]

/-- Put controls in front of an instruction. -/
def controlInstruction (controls : List Nat) (inst : Instruction) : Emission :=
  .bind ((inst.operation.control controls.length).mapError .ofRefusal) fun controlled =>
    .apply controlled (controls ++ inst.qubits)

/-- What is left of a controlled operation that lowers to itself: several controls
on one qubit are built from fewer. -/
def lowerControlledLeaf (free : List Nat) (inst : Instruction) (controls : List Nat)
    (wrapped : Operation) (targets : List Nat) : Emission :=
  if wrapped.numQubits ≠ 1 ∨ controls.length = 1 then .done [inst]
  else
    let target := targets.headD 0
    if wrapped == .gate .x then controlledX controls target free
    else controlledRoot wrapped controls target free

/-- Control every instruction that the wrapped operation lowers to.  One control on
one qubit stays as it is. -/
def lowerControlled (free : List Nat) (inst : Instruction) (n : Nat)
    (wrapped : Operation) : Emission :=
  let controls := inst.qubits.take n
  let targets := inst.qubits.drop n
  if wrapped.numQubits = 1 ∧ n = 1 then .done [inst]
  else
    (lowerOn lower wrapped targets).whole fun lowered =>
      if isUnchanged lowered wrapped targets then
        lowerControlledLeaf free inst controls wrapped targets
      else .sequence (lowered.map (controlInstruction controls))

/-- One level of lowering. -/
def lowerStep (free : List Nat) (inst : Instruction) : Emission :=
  match inst.operation with
  | .gate g => lowerGate lower inst g
  | .inverted w => lowerInverted lower w inst.qubits
  | .repeated _ w => lowerRepeated lower w inst.qubits
  | .powered e w => lowerPowered lower inst e w
  | .controlled n w => lowerControlled lower free inst n w
  | _ => .done [inst]

end Step

/-- Lowering within a depth of recursion, with qubits that may be borrowed. -/
def lowerWithin (free : List Nat) : Nat → Instruction → Emission
  | 0, _ => .unfinished
  | depth + 1, inst => lowerStep (lowerWithin free depth) free inst

/-- Lower an instruction.  It borrows the ancillae that it does not act on. -/
def Instruction.lower (inst : Instruction) (ancillae : List Nat) : Emission :=
  let free := ancillae.filter fun a => !inst.qubits.contains a
  lowerWithin free inst.operation.rank inst

/-- Lower an operation on targets. -/
def Operation.lower (op : Operation) (qubits bits zvars ancillae : List Nat) :
    Emission :=
  .build (Instruction.make op qubits bits zvars) fun inst => inst.lower ancillae

end GateAlgebra
