import GateAlgebra.Circuit.Basic
/-!
The depth of a circuit: the number of layers when every instruction is placed
directly after the last one that shares a qubit or a bit with it.  A barrier
lifts its qubits to a common level without a layer of its own.  There is a
counter for every index up to the greatest one, so the program stops where an
array of as many counters cannot be.
-/

namespace GateAlgebra

/-- The level reached on each wire and the greatest level so far. -/
structure Levels where
  qubits : Array Nat
  bits : Array Nat
  deepest : Nat

namespace Levels

def start (qubits bits : Nat) : Levels :=
  ⟨.replicate qubits 0, .replicate bits 0, 0⟩

/-- The level of a wire that has a counter. -/
def level? (levels : Levels) : Wire → Option Nat
  | .qubit q => levels.qubits[q]?
  | .bit b => levels.bits[b]?

def highest? (levels : Levels) (wires : List Wire) : Option Nat :=
  wires.foldlM (fun top wire => max top <$> levels.level? wire) 0

/-- Lift a wire that has a counter. -/
def set? (height : Nat) (levels : Levels) : Wire → Option Levels
  | .qubit q =>
      if h : q < levels.qubits.size then
        some { levels with qubits := levels.qubits.set q height h }
      else none
  | .bit b =>
      if h : b < levels.bits.size then
        some { levels with bits := levels.bits.set b height h }
      else none

/-- Lift wires to a level. -/
def lift? (levels : Levels) (wires : List Wire) (height : Nat) : Option Levels := do
  let lifted ← wires.foldlM (set? height) levels
  return { lifted with deepest := max levels.deepest height }

/-- Place an instruction above everything on its wires. -/
def place? (levels : Levels) (inst : Instruction) : Option Levels := do
  let top ← levels.highest? inst.wires
  levels.lift? inst.wires (if inst.isBarrier then top else top + 1)

end Levels

/-- The greatest number of counters of 64 bits that an array can hold. -/
def maxCounters : Nat := 0x0fffffffffffffff

/-- The length of an array with a counter for every index below a bound, if there can be one. -/
def Counting.counters (counting : Counting) (bound : Nat) : Option Nat := do
  let length ← counting.count bound
  if counting = .exact ∨ length ≤ maxCounters then some length else none

/-- The number of layers, unless the program stops. -/
def Circuit.depthIn (counting : Counting) (c : Circuit) : Option Nat := do
  let qubits ← counting.counters c.numQubits
  let bits ← counting.counters c.numBits
  let levels ← c.instructions.foldlM Levels.place? (.start qubits bits)
  return levels.deepest

end GateAlgebra
