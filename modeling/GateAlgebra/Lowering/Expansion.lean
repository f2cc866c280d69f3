import GateAlgebra.BranchCut
import GateAlgebra.Instruction
/-!
Rules for primitive gates: what a gate expands to, and which power of a gate
is a gate again.  Every rule is exact, the global phase included.
-/

namespace GateAlgebra

/-- The angle of a quarter turn backwards. -/
def backQuarter : Scalar :=
  .real (-(Scalar.piValue / 2))

/-- Instructions on qubits, or the first error among them. -/
def instructions (steps : List (Operation × List Nat)) :
    Except CircuitError (List Instruction) :=
  steps.mapM fun step => Instruction.onQubits step.1 step.2

namespace Gate

/-- The simpler operations of a gate and their qubits, if there is a rule for it.
The qubits are those of the gate, the first two called `a` and `b`. -/
def expansionSteps (qubits : List Nat) (g : Gate) : Option (List (Operation × List Nat)) :=
  let a := qubits.getD 0 0
  let b := qubits.getD 1 0
  match g with
  | swap => some [(.cx, [a, b]), (.cx, [b, a]), (.cx, [a, b])]
  | iswap => some [(.gate (rxx backQuarter), qubits), (.gate (ryy backQuarter), qubits)]
  | rzz angle => some [(.cx, [a, b]), (.gate (rz angle), [b]), (.cx, [a, b])]
  | rxx angle => some [
      (.gate h, [a]), (.gate h, [b]), (.gate (rzz angle), [a, b]),
      (.gate h, [a]), (.gate h, [b])]
  | ryy angle => some [
      (.sdg, [a]), (.sdg, [b]), (.gate h, [a]), (.gate h, [b]),
      (.gate (rzz angle), [a, b]),
      (.gate h, [a]), (.gate h, [b]), (.gate s, [a]), (.gate s, [b])]
  | u theta phi lambda => some [
      (.gate (p lambda), qubits), (.gate (ry theta), qubits), (.gate (p phi), qubits)]
  | i | x | y | z | h | s | t | sx | rx _ | ry _ | rz _ | p _ => none

/-- The instructions that a gate expands to, if there is a rule for it. -/
def expansion (g : Gate) (qubits : List Nat) :
    Except CircuitError (Option (List Instruction)) :=
  match g.expansionSteps qubits with
  | none => .ok none
  | some steps => some <$> instructions steps

/-- A share of an angle that the branch cut admits. -/
def scaledAngle {ρ : Type} [Mul ρ] (admits : ρ → Bool) (exponent angle : ρ) : Option ρ :=
  if admits angle then some (exponent * angle) else none

end Gate

/-- A power of a gate that is a gate again: one without an angle, or one of a family at an
angle. -/
inductive KnownRoot (ρ : Type) where
  | plain (gate : Gate)
  | turned (family : Scalar → Gate) (angle : ρ)

/-- The gate, its angle in doubles. -/
def KnownRoot.toGate : KnownRoot Float → Gate
  | plain g => g
  | turned family angle => family (.real angle)

namespace Gate

/-- The power of a gate that is known to be a gate, given how the angles of rotations and of
phases are scaled. -/
def rootBy {ρ : Type} (rotation phase : Scalar → Option ρ) (exponent : Exponent) (g : Gate) :
    Option (KnownRoot ρ) :=
  let isHalf := exponent.ratio? == some (mkRat 1 2)
  let isQuarter := exponent.ratio? == some (mkRat 1 4)
  match g with
  | i => some (.plain i)
  | x => if isHalf then some (.plain sx) else none
  | z => if isHalf then some (.plain s) else if isQuarter then some (.plain t) else none
  | s => if isHalf then some (.plain t) else none
  | rx angle => (rotation angle).map (.turned rx)
  | ry angle => (rotation angle).map (.turned ry)
  | rz angle => (rotation angle).map (.turned rz)
  | rxx angle => (rotation angle).map (.turned rxx)
  | ryy angle => (rotation angle).map (.turned ryy)
  | rzz angle => (rotation angle).map (.turned rzz)
  | p angle => (phase angle).map (.turned p)
  | y | h | t | sx | u _ _ _ | swap | iswap => none

/-- The gate that is a power of a gate, if one is known. -/
def root? (g : Gate) (exponent : Exponent) : Option Gate :=
  let scaled (admits : Float → Bool) (angle : Scalar) : Option Float := do
    scaledAngle admits exponent.toFloat (← angle.real?)
  let root := g.rootBy (scaled BranchCut.double.admitsRotation)
    (scaled BranchCut.double.admitsPhase) exponent
  root.map KnownRoot.toGate

end Gate

end GateAlgebra
