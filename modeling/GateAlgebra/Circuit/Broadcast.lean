import GateAlgebra.Circuit.Basic
/-!
Growing a circuit by an operation on target groups.  Groups are counted from
one, qubit groups before bit groups before z-register groups.  Registers with
several indices are zipped up to the shortest; a single index is used again for
every instruction.  Nothing is added unless every instruction is valid.
-/

namespace GateAlgebra

/-- A target group: an index or a register of them. -/
inductive Target where
  | index (index : Nat)
  | register (indices : List Nat)
deriving DecidableEq, Inhabited, Repr

namespace Target

/-- The indices of a group. -/
def indices : Target → List Nat
  | index i => [i]
  | register is => is

/-- A register of consecutive indices, the last one excluded. -/
def range (first last : Nat) : Target :=
  register ((List.range (last - first)).map (first + ·))

/-- A register of consecutive indices, the last one included. -/
def through (first last : Nat) : Target :=
  range first (last + 1)

/-- The first index of a group that is zero or occurred before. -/
def firstFault (seen : Std.HashSet Nat) : List Nat → Option (Nat × TargetFault)
  | [] => none
  | i :: rest =>
      if i = 0 then some (0, .zeroIndex)
      else if seen.contains i then some (i, .repeatedInGroup)
      else firstFault (seen.insert i) rest

/-- What is wrong with a group on its own. -/
def fault? (group : Target) : Option (Nat × TargetFault) :=
  if group.indices.isEmpty then some (0, .emptyGroup)
  else firstFault ∅ group.indices

/-- The index that the instruction number `i` takes from a group, counted from
zero. -/
def pick (i : Nat) (group : Target) : Nat :=
  match group.indices with
  | [only] => only - 1
  | several => several.getD i 0 - 1

end Target

/-- The number of instructions that groups give: the least length above one, or
one. -/
def broadcastCount (groups : List Target) : Nat :=
  ((groups.map fun group => group.indices.length).filter (1 < ·)).min?.getD 1

/-- Count the reported target from one. -/
def CircuitError.countFromOne : CircuitError → CircuitError
  | .invalidTarget target fault operation =>
      .invalidTarget (target + 1) fault operation
  | other => other

/-- The instruction number `i` of an operation on groups. -/
def broadcastAt (op : Operation) (groups : List Target) (i : Nat) :
    Except CircuitError Instruction :=
  let picked := groups.map (Target.pick i)
  let rest := picked.drop op.arity.qubits
  (Instruction.make op (picked.take op.arity.qubits) (rest.take op.arity.bits)
    (rest.drop op.arity.bits)).mapError CircuitError.countFromOne

/-- The instructions of an operation on groups.  The number of groups is checked
first, then each group, then each instruction. -/
def broadcast (op : Operation) (groups : List Target) :
    Except CircuitError (List Instruction) :=
  if groups.length ≠ op.arity.total then
    .error (.arityMismatch op.name op.arity.total groups.length)
  else
    match groups.findSome? Target.fault? with
    | some (index, fault) => .error (.invalidTarget index fault op.name)
    | none => (List.range (broadcastCount groups)).mapM (broadcastAt op groups)

namespace Circuit

/-- Add an operation at the end. -/
def push (c : Circuit) (op : Operation) (groups : List Target) :
    Except CircuitError Circuit := do
  return c.extend (← broadcast op groups)

/-- Add an operation at a position. -/
def insert (c : Circuit) (position : Nat) (op : Operation) (groups : List Target) :
    Except CircuitError Circuit :=
  if c.length < position then .error (.invalidPosition position c.length)
  else do
    let added ← broadcast op groups
    return { c with
      instructions :=
        c.instructions.take position ++ added ++ c.instructions.drop position }

/-- Add a barrier over single qubits. -/
def pushBarrier (c : Circuit) (qubits : List Nat) : Except CircuitError Circuit :=
  c.push (.barrier qubits.length) (qubits.map .index)

end Circuit

end GateAlgebra
