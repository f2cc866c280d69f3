import GateAlgebra.Instruction
/-!
Circuits: named lists of instructions, what can be read off them, and the
transformations that work instruction by instruction.
-/

namespace GateAlgebra

/-- A named sequence of instructions in order of application. -/
structure Circuit where
  name : String
  instructions : List Instruction
deriving Inhabited, BEq

namespace Circuit

def empty (name : String) : Circuit :=
  ⟨name, []⟩

def length (c : Circuit) : Nat :=
  c.instructions.length

def get? (c : Circuit) (position : Nat) : Option Instruction :=
  c.instructions[position]?

/-- Add instructions at the end. -/
def extend (c : Circuit) (added : List Instruction) : Circuit :=
  { c with instructions := c.instructions ++ added }

/-- Add the instructions of another circuit at the end. -/
def append (c other : Circuit) : Circuit :=
  c.extend other.instructions

/-- Take out the instruction at a position. -/
def remove (c : Circuit) (position : Nat) :
    Except CircuitError (Instruction × Circuit) :=
  match c.get? position with
  | some inst => .ok (inst, { c with instructions := c.instructions.eraseIdx position })
  | none => .error (.invalidPosition position c.length)

/-- One more than the greatest index, or zero. -/
def extent (indices : List Nat) : Nat :=
  indices.foldl (fun bound index => max bound (index + 1)) 0

/-- One more than the greatest qubit index, or zero. -/
def numQubits (c : Circuit) : Nat :=
  extent (c.instructions.flatMap Instruction.qubits)

/-- One more than the greatest bit index, or zero. -/
def numBits (c : Circuit) : Nat :=
  extent (c.instructions.flatMap Instruction.bits)

/-- One more than the greatest z-register index, or zero. -/
def numZvars (c : Circuit) : Nat :=
  extent (c.instructions.flatMap Instruction.zvars)

/-- The parameters of all instructions in order. -/
def parameters (c : Circuit) : List Scalar :=
  c.instructions.flatMap fun inst => inst.operation.parameters

/-- Whether a parameter has no value yet. -/
def isSymbolic (c : Circuit) : Bool :=
  c.instructions.any fun inst => inst.operation.isSymbolic

/-- The free symbols, each once, in order. -/
def symbols (c : Circuit) : List String :=
  sortedNames (c.parameters.flatMap Scalar.symbols)

/-- Count one more occurrence of a name. -/
def countName (name : String) : List (String × Nat) → List (String × Nat)
  | [] => [(name, 1)]
  | (known, count) :: rest =>
      if known == name then (known, count + 1) :: rest
      else (known, count) :: countName name rest

/-- How often each operation name occurs, by first occurrence. -/
def counts (c : Circuit) : List (String × Nat) :=
  c.instructions.foldl (fun counts inst => countName inst.operation.name counts) []

/-- The inverse circuit: every instruction inverted, in reverse order. -/
def inverse (c : Circuit) : Except CircuitError Circuit := do
  return { c with instructions := ← c.instructions.reverse.mapM Instruction.inverse }

/-- Replace bound symbols in every instruction. -/
def substitute (bindings : Bindings) (c : Circuit) : Except CircuitError Circuit := do
  return { c with
    instructions := ← c.instructions.mapM (Instruction.substitute bindings) }

/-- One line for each instruction. -/
def text (c : Circuit) : String :=
  String.join (c.instructions.map fun inst => inst.text ++ "\n")

@[simp] theorem instructions_extend (c : Circuit) (added : List Instruction) :
    (c.extend added).instructions = c.instructions ++ added := rfl

@[simp] theorem name_extend (c : Circuit) (added : List Instruction) :
    (c.extend added).name = c.name := rfl

end Circuit

end GateAlgebra
