import GateAlgebra.Scalar
/-!
The branch cut of complex powers.  The principal argument of a number lies above
`-π` and not above `π`; an argument within a tolerance of `-π` counts as `π`.
The comparisons are written over any ordered numbers.
-/

namespace GateAlgebra

/-- Where the cut lies and how wide the band above it is. -/
structure BranchCut (ρ : Type) where
  pi : ρ
  tolerance : ρ

namespace BranchCut

variable {ρ : Type} [Neg ρ] [Add ρ] [Sub ρ]

/-- Take an argument within the tolerance of `-π` for `π`. -/
def principal [LT ρ] [DecidableLT ρ] (cut : BranchCut ρ) (argument : ρ) : ρ :=
  let distance := argument + cut.pi
  if -cut.tolerance < distance ∧ distance < cut.tolerance then cut.pi else argument

/-- Whether half of a rotation angle stays clear of the band on either side, so
that powers of the rotation scale its angle. -/
def admitsRotation [LT ρ] [DecidableLT ρ] (cut : BranchCut ρ) (angle : ρ) : Bool :=
  let half := cut.pi - cut.tolerance
  let bound := half + half
  decide (-bound < angle) && decide (angle < bound)

/-- Whether an angle is a principal argument clear of the band, so that powers of
the phase scale it. -/
def admitsPhase [LT ρ] [LE ρ] [DecidableLT ρ] [DecidableLE ρ] (cut : BranchCut ρ)
    (angle : ρ) : Bool :=
  decide (-cut.pi + cut.tolerance < angle) && decide (angle ≤ cut.pi)

end BranchCut

/-- The cut in doubles. -/
def BranchCut.double : BranchCut Float where
  pi := Scalar.piValue
  tolerance := 1e-9

/-- The principal power of a complex number. -/
def ComplexFloat.principalPower (a : ComplexFloat) (exponent : Float) : ComplexFloat :=
  let angle := BranchCut.double.principal a.argument
  ofPolar (Float.pow a.norm exponent) (angle * exponent)

end GateAlgebra
