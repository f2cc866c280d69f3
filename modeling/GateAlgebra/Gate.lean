import GateAlgebra.Scalar
/-!
The primitive gates.  Controlled and inverted gates are not among them; they
are written with the modifiers of the operation algebra.
-/

namespace GateAlgebra

/-- A primitive gate with known meaning. -/
inductive Gate where
  /-- The identity. -/
  | i
  /-- Pauli X. -/
  | x
  /-- Pauli Y. -/
  | y
  /-- Pauli Z. -/
  | z
  /-- Hadamard. -/
  | h
  /-- The square root of Z. -/
  | s
  /-- The fourth root of Z. -/
  | t
  /-- The square root of X. -/
  | sx
  /-- Rotation about X. -/
  | rx (angle : Scalar)
  /-- Rotation about Y. -/
  | ry (angle : Scalar)
  /-- Rotation about Z. -/
  | rz (angle : Scalar)
  /-- Phase. -/
  | p (angle : Scalar)
  /-- The general single-qubit gate. -/
  | u (theta phi lambda : Scalar)
  /-- Exchange of two qubits. -/
  | swap
  /-- Exchange with a phase. -/
  | iswap
  /-- Two-qubit rotation about XX. -/
  | rxx (angle : Scalar)
  /-- Two-qubit rotation about YY. -/
  | ryy (angle : Scalar)
  /-- Two-qubit rotation about ZZ. -/
  | rzz (angle : Scalar)
deriving Inhabited, BEq

namespace Gate

def name : Gate → String
  | i => "id"
  | x => "x"
  | y => "y"
  | z => "z"
  | h => "h"
  | s => "s"
  | t => "t"
  | sx => "sx"
  | rx _ => "rx"
  | ry _ => "ry"
  | rz _ => "rz"
  | p _ => "p"
  | u _ _ _ => "u"
  | swap => "swap"
  | iswap => "iswap"
  | rxx _ => "rxx"
  | ryy _ => "ryy"
  | rzz _ => "rzz"

def numQubits : Gate → Nat
  | swap | iswap | rxx _ | ryy _ | rzz _ => 2
  | i | x | y | z | h | s | t | sx | rx _ | ry _ | rz _ | p _ | u _ _ _ => 1

def parameters : Gate → List Scalar
  | rx angle | ry angle | rz angle | p angle
  | rxx angle | ryy angle | rzz angle => [angle]
  | u theta phi lambda => [theta, phi, lambda]
  | i | x | y | z | h | s | t | sx | swap | iswap => []

/-- Whether a parameter has no value yet. -/
def isSymbolic (g : Gate) : Bool :=
  g.parameters.any Scalar.isSymbolic

/-- The same gate with every parameter changed by `f`. -/
def mapParameters (f : Scalar → Scalar) : Gate → Gate
  | rx angle => rx (f angle)
  | ry angle => ry (f angle)
  | rz angle => rz (f angle)
  | p angle => p (f angle)
  | rxx angle => rxx (f angle)
  | ryy angle => ryy (f angle)
  | rzz angle => rzz (f angle)
  | u theta phi lambda => u (f theta) (f phi) (f lambda)
  | g => g

def substitute (bindings : Bindings) (g : Gate) : Gate :=
  g.mapParameters (Scalar.substitute bindings)

@[simp] theorem parameters_mapParameters (f : Scalar → Scalar) (g : Gate) :
    (g.mapParameters f).parameters = g.parameters.map f := by
  cases g <;> rfl

@[simp] theorem numQubits_mapParameters (f : Scalar → Scalar) (g : Gate) :
    (g.mapParameters f).numQubits = g.numQubits := by
  cases g <;> rfl

@[simp] theorem name_mapParameters (f : Scalar → Scalar) (g : Gate) :
    (g.mapParameters f).name = g.name := by
  cases g <;> rfl

end Gate

end GateAlgebra
