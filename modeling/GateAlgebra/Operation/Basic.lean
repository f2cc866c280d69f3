import GateAlgebra.Channel
import GateAlgebra.CustomGate
import GateAlgebra.Exponent
import GateAlgebra.Observable
/-!
Operations: gates, custom gates, everything a circuit can hold besides, and four
modifiers that wrap another operation.  This module has the type and what can be
read off it: name, arity, parameters, whether it is unitary.
-/

namespace GateAlgebra

/-- How many qubits, classical bits and z-registers an operation acts on. -/
structure Arity where
  qubits : Nat
  bits : Nat
  zvars : Nat
deriving DecidableEq, Inhabited, Repr

namespace Arity

def onQubits (n : Nat) : Arity :=
  ⟨n, 0, 0⟩

/-- The number of targets of all kinds. -/
def total (arity : Arity) : Nat :=
  arity.qubits + arity.bits + arity.zvars

end Arity

/-- An operation with a fixed arity. -/
inductive Operation where
  /-- A primitive gate. -/
  | gate (gate : Gate)
  /-- A gate given by its matrix. -/
  | custom (gate : CustomGate)
  /-- The wrapped operation under a number of control qubits in front. -/
  | controlled (controls : Nat) (wrapped : Operation)
  /-- The wrapped operation raised to a power. -/
  | powered (exponent : Exponent) (wrapped : Operation)
  /-- The adjoint of the wrapped operation. -/
  | inverted (wrapped : Operation)
  /-- Copies of the wrapped operation on consecutive blocks of qubits. -/
  | repeated (repeats : Nat) (wrapped : Operation)
  /-- Measurement of a qubit into a classical bit. -/
  | measure
  /-- Reset of a qubit to zero. -/
  | reset
  /-- A barrier over a number of qubits. -/
  | barrier (width : Nat)
  /-- Single-qubit noise. -/
  | channel (channel : Channel)
  /-- A pure operator, which no circuit holds. -/
  | observable (observable : Observable)
  /-- The expectation value of an operator, written to a z-register. -/
  | expectation (observable : Observable)
deriving Inhabited, BEq

/-- The form of an operation. -/
inductive OperationKind where
  | gate | custom | controlled | powered | inverted | repeated
  | measure | reset | barrier | channel | observable | expectation
deriving DecidableEq, Inhabited, Repr

namespace Operation

/-- The form of an operation. -/
def kind : Operation → OperationKind
  | gate _ => .gate
  | custom _ => .custom
  | controlled _ _ => .controlled
  | powered _ _ => .powered
  | inverted _ => .inverted
  | repeated _ _ => .repeated
  | measure => .measure
  | reset => .reset
  | barrier _ => .barrier
  | channel _ => .channel
  | observable _ => .observable
  | expectation _ => .expectation

/-- The mark of a number of controls: `c`, `cc`, `c3` and so on. -/
def controlMark : Nat → String
  | 1 => "c"
  | 2 => "cc"
  | n => "c" ++ toString n

/-- The conventional name, such as `cx`, `c3x`, `sdg` or `h^1/2`. -/
def name : Operation → String
  | gate g => g.name
  | custom g => g.name
  | controlled n w => controlMark n ++ w.name
  | powered e w => w.name ++ "^" ++ e.text
  | inverted (gate g) => g.name ++ "dg"
  | inverted w => "inv(" ++ w.name ++ ")"
  | repeated n w => "parallel" ++ toString n ++ "(" ++ w.name ++ ")"
  | measure => "measure"
  | reset => "reset"
  | barrier _ => "barrier"
  | channel c => c.name
  | observable o => o.name
  | expectation o => "expval(" ++ o.name ++ ")"

/-- The targets an operation needs. -/
def arity : Operation → Arity
  | gate g => .onQubits g.numQubits
  | custom g => .onQubits g.numQubits
  | controlled n w => { w.arity with qubits := n + w.arity.qubits }
  | powered _ w => w.arity
  | inverted w => w.arity
  | repeated n w => .onQubits (n * w.arity.qubits)
  | measure => ⟨1, 1, 0⟩
  | reset => .onQubits 1
  | barrier width => .onQubits width
  | channel _ => .onQubits 1
  | observable o => .onQubits o.numQubits
  | expectation o => ⟨o.numQubits, 0, 1⟩

def numQubits (op : Operation) : Nat :=
  op.arity.qubits

/-- The parameters.  A modifier has those of what it wraps; an exponent is not a
parameter. -/
def parameters : Operation → List Scalar
  | gate g => g.parameters
  | custom g => g.params
  | controlled _ w | powered _ w | inverted w | repeated _ w => w.parameters
  | channel c => [c.parameter]
  | measure | reset | barrier _ | observable _ | expectation _ => []

/-- Whether the operation is a gate: primitive, custom, or a modified one. -/
def isUnitary : Operation → Bool
  | gate _ | custom _ => true
  | controlled _ w | powered _ w | inverted w | repeated _ w => w.isUnitary
  | measure | reset | barrier _ | channel _ | observable _ | expectation _ => false

/-- What a modifier wraps directly. -/
def wrapped? : Operation → Option Operation
  | controlled _ w | powered _ w | inverted w | repeated _ w => some w
  | _ => none

def isModifier (op : Operation) : Bool :=
  op.wrapped?.isSome

/-- What is left when every modifier is taken off. -/
def innermost : Operation → Operation
  | controlled _ w | powered _ w | inverted w | repeated _ w => w.innermost
  | op => op

/-- Whether a parameter has no value yet. -/
def isSymbolic (op : Operation) : Bool :=
  op.parameters.any Scalar.isSymbolic

/-- The name, followed by the parameters in parentheses if there are any. -/
def text (op : Operation) : String :=
  match op.parameters with
  | [] => op.name
  | params => op.name ++ "(" ++ ", ".intercalate (params.map Scalar.text) ++ ")"

def isBarrier : Operation → Bool
  | barrier _ => true
  | _ => false

/-! Named operations: gates under one or two controls, and adjoints of gates. -/

def controlledGate (controls : Nat) (g : Gate) : Operation :=
  controlled controls (gate g)

def invertedGate (g : Gate) : Operation :=
  inverted (gate g)

def cx : Operation := controlledGate 1 .x
def cy : Operation := controlledGate 1 .y
def cz : Operation := controlledGate 1 .z
def ch : Operation := controlledGate 1 .h
def cp (angle : Scalar) : Operation := controlledGate 1 (.p angle)
def crx (angle : Scalar) : Operation := controlledGate 1 (.rx angle)
def cry (angle : Scalar) : Operation := controlledGate 1 (.ry angle)
def crz (angle : Scalar) : Operation := controlledGate 1 (.rz angle)
def ccx : Operation := controlledGate 2 .x
def cswap : Operation := controlledGate 1 .swap

def sdg : Operation := invertedGate .s
def tdg : Operation := invertedGate .t
def sxdg : Operation := invertedGate .sx

/-- A unitary operation acts on qubits alone. -/
theorem arity_of_isUnitary {op : Operation} (h : op.isUnitary = true) :
    op.arity = .onQubits op.numQubits := by
  unfold numQubits
  induction op with
  | gate _ => rfl
  | custom _ => rfl
  | controlled n w ih =>
      have hw := ih h
      simp only [arity]
      rw [hw]
      rfl
  | powered _ w ih => exact ih h
  | inverted w ih => exact ih h
  | repeated _ _ => rfl
  | measure | reset | barrier | channel | observable | expectation =>
      exact absurd h (by simp [isUnitary])

end Operation

end GateAlgebra
