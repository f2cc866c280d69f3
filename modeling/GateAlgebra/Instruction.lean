import Std.Data.HashSet
import GateAlgebra.Operation.Modifier
/-!
Instructions: an operation bound to qubits, classical bits and z-registers,
counted from zero.  The lists match the arity of the operation and no index
occurs twice within one list.
-/

namespace GateAlgebra

/-- The first index that occurs earlier in the list or in `seen`. -/
def firstRepeat (seen : Std.HashSet Nat) : List Nat → Option Nat
  | [] => none
  | index :: rest =>
      if seen.contains index then some index
      else firstRepeat (seen.insert index) rest

/-- Without a repeat the list has no duplicates and avoids what was seen. -/
theorem firstRepeat_eq_none_iff (seen : Std.HashSet Nat) (indices : List Nat) :
    firstRepeat seen indices = none ↔
      indices.Nodup ∧ ∀ i ∈ indices, i ∉ seen := by
  induction indices generalizing seen with
  | nil => simp [firstRepeat]
  | cons head tail ih =>
      by_cases hseen : head ∈ seen
      · simp [firstRepeat, Std.HashSet.contains_iff_mem, hseen]
      · simp only [firstRepeat, Std.HashSet.contains_iff_mem, hseen, ↓reduceIte,
          ih, List.nodup_cons, Std.HashSet.mem_insert, List.mem_cons]
        constructor
        · intro h
          obtain ⟨htail, hnot⟩ := h
          refine ⟨⟨fun hmem => ?_, htail⟩, ?_⟩
          · exact hnot head hmem (Or.inl (by simp))
          · intro i hi
            rcases hi with rfl | hi
            · exact hseen
            · exact fun hold => hnot i hi (Or.inr hold)
        · intro h
          obtain ⟨⟨hhead, htail⟩, hnot⟩ := h
          refine ⟨htail, fun i hi hins => ?_⟩
          rcases hins with heq | hold
          · exact hhead (by simpa [eq_of_beq heq] using hi)
          · exact hnot i (Or.inr hi) hold

/-- An operation on its targets. -/
structure Instruction where
  operation : Operation
  qubits : List Nat
  bits : List Nat
  zvars : List Nat
deriving Inhabited, BEq

/-- A qubit or a classical bit, as something an instruction occupies. -/
inductive Wire where
  | qubit (index : Nat)
  | bit (index : Nat)
deriving DecidableEq, Hashable, Inhabited, Repr

namespace Instruction

/-- Fails at the first index that a list holds twice. -/
def checkDistinct (op : Operation) (indices : List Nat) : Except CircuitError Unit :=
  match firstRepeat ∅ indices with
  | some index => .error (.invalidTarget index .repeatedInList op.name)
  | none => .ok ()

/-- Bind an operation to targets.  A pure operator is refused first, then lists
of the wrong length, then a repeated index, qubits before bits before
z-registers. -/
def make (op : Operation) (qubits bits zvars : List Nat) :
    Except CircuitError Instruction :=
  match op with
  | .observable o => .error (.nonGateOperator o.name)
  | op =>
      let arity := op.arity
      if qubits.length = arity.qubits ∧ bits.length = arity.bits ∧
          zvars.length = arity.zvars then do
        checkDistinct op qubits
        checkDistinct op bits
        checkDistinct op zvars
        return ⟨op, qubits, bits, zvars⟩
      else
        .error (.arityMismatch op.name arity.total
          (qubits.length + bits.length + zvars.length))

/-- Bind an operation to qubits alone. -/
def onQubits (op : Operation) (qubits : List Nat) : Except CircuitError Instruction :=
  make op qubits [] []

/-- The inverse on the same targets. -/
def inverse (inst : Instruction) : Except CircuitError Instruction := do
  return { inst with operation := ← inst.operation.inverse }

/-- The same targets with bound symbols replaced. -/
def substitute (bindings : Bindings) (inst : Instruction) :
    Except CircuitError Instruction := do
  return { inst with operation := ← inst.operation.substitute bindings }

def isMeasure (inst : Instruction) : Bool :=
  inst.operation.kind == .measure

def isBarrier (inst : Instruction) : Bool :=
  inst.operation.isBarrier

def isChannel (inst : Instruction) : Bool :=
  inst.operation.kind == .channel

/-- Whether the instruction is a gate. -/
def isUnitary (inst : Instruction) : Bool :=
  inst.operation.isUnitary

/-- The qubits and bits an instruction occupies. -/
def wires (inst : Instruction) : List Wire :=
  inst.qubits.map .qubit ++ inst.bits.map .bit

/-- A target as printed, counted from one. -/
def targetText (mark : String) (index : Nat) : String :=
  mark ++ toString (index + 1)

/-- The operation and its targets, counted from one: `cx @ q1, q3`. -/
def text (inst : Instruction) : String :=
  let targets := inst.qubits.map (targetText "q") ++
    inst.bits.map (targetText "c") ++ inst.zvars.map (targetText "z")
  inst.operation.text ++ " @ " ++ ", ".intercalate targets

end Instruction

end GateAlgebra
