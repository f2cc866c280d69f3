import GateAlgebra.Number.Text
import GateAlgebra.Number.Hypotenuse
/-!
Complex numbers with double parts.  Every operation rounds each elementary step
once and none are fused or reordered.
-/

namespace GateAlgebra

/-- Complex conjugation, as an operation of a number type. -/
class Conj (α : Type) where
  conj : α → α

/-- A complex number with double parts. -/
structure ComplexFloat where
  re : Float
  im : Float
deriving Inhabited, BEq

namespace ComplexFloat

instance : Zero ComplexFloat := ⟨⟨0, 0⟩⟩

instance : One ComplexFloat := ⟨⟨1, 0⟩⟩

def i : ComplexFloat := ⟨0, 1⟩

def ofReal (x : Float) : ComplexFloat := ⟨x, 0⟩

instance : Add ComplexFloat := ⟨fun a b => ⟨a.re + b.re, a.im + b.im⟩⟩

instance : Sub ComplexFloat := ⟨fun a b => ⟨a.re - b.re, a.im - b.im⟩⟩

/-- Negation turns both parts, so that minus a real number has the imaginary
part minus zero. -/
instance : Neg ComplexFloat := ⟨fun a => ⟨-a.re, -a.im⟩⟩

instance : Mul ComplexFloat :=
  ⟨fun a b => ⟨a.re * b.re - a.im * b.im, a.re * b.im + a.im * b.re⟩⟩

/-- Division multiplies by the conjugate and divides by the squared length. -/
instance : Div ComplexFloat where
  div a b :=
    let square := b.re * b.re + b.im * b.im
    ⟨(a.re * b.re + a.im * b.im) / square,
      (a.im * b.re - a.re * b.im) / square⟩

instance : Conj ComplexFloat := ⟨fun a => ⟨a.re, -a.im⟩⟩

/-- The distance from zero. -/
def norm (a : ComplexFloat) : Float :=
  hypotenuse a.re a.im

/-- Multiply both parts by a real factor. -/
def scale (a : ComplexFloat) (factor : Float) : ComplexFloat :=
  ⟨a.re * factor, a.im * factor⟩

/-- Divide both parts by a real number. -/
def unscale (a : ComplexFloat) (divisor : Float) : ComplexFloat :=
  ⟨a.re / divisor, a.im / divisor⟩

/-- The angle from the positive real axis. -/
def argument (a : ComplexFloat) : Float :=
  Float.atan2 a.im a.re

/-- The number of the given length and angle. -/
def ofPolar (length angle : Float) : ComplexFloat :=
  ⟨length * Float.cos angle, length * Float.sin angle⟩

/-- Imaginary parts smaller than this count as zero. -/
def realTolerance : Float := 1e-12

/-- Whether the imaginary part is negligible.  A NaN is not. -/
def isReal (a : ComplexFloat) : Bool :=
  a.im.abs < realTolerance

/-- A real number prints as such, any other number as `(a+bi)` with the sign of
the imaginary part between the two. -/
def text (a : ComplexFloat) : String :=
  if a.isReal then floatText a.re
  else "(" ++ floatText a.re ++ signedFloatText a.im ++ "i)"

end ComplexFloat

end GateAlgebra
