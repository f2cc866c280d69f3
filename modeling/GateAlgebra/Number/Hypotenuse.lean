/-!
The length of a plane vector of doubles.

The square root of the sum of squares is wrong by a few rounding errors.  One step
of Newton's method takes most of this away: the error of the square is computed
from the difference of the root and one side, where the leading digits cancel.
Sides that are very long or very short are scaled while this is done, and beside a
much longer side the shorter one hardly counts.
-/

namespace GateAlgebra

/-- The square of a root less the squares of both sides. -/
def squareExcess (root long short : Float) : Float :=
  if root ≤ 2 * short then
    let rest := root - short
    long * (2 * rest - long) + (rest - 2 * (long - short)) * rest
  else
    let rest := root - long
    2 * rest * (long - 2 * short) + ((4 * rest - short) * short + rest * rest)

/-- The length for sides whose squares neither overflow nor underflow. -/
def correctedRoot (long short : Float) : Float :=
  let root := (long * long + short * short).sqrt
  root - squareExcess root long short / (2 * root)

/-- A power of two whose exponent is that of a normal number, by its bits. -/
def powerOfTwo (exponent : Int) : Float :=
  Float.ofBits (UInt64.ofNat ((exponent + 1023).toNat <<< 52))

/-- Sides above this are scaled down. -/
def longestSide : Float := powerOfTwo 511

/-- Sides below this are scaled up. -/
def shortestSide : Float := powerOfTwo (-459)

/-- The factor of all scaling. -/
def sideScale : Float := powerOfTwo (-600)

/-- A side that is shorter than this part of the other one is added to it. -/
def negligiblePart : Float := powerOfTwo (-54)

/-- The length for finite sides that are not negative. -/
def finiteHypotenuse (long short : Float) : Float :=
  if longestSide < long then
    if short ≤ long * negligiblePart then long + short
    else correctedRoot (long * sideScale) (short * sideScale) / sideScale
  else if short < shortestSide then
    if short / negligiblePart ≤ long then long + short
    else correctedRoot (long / sideScale) (short / sideScale) * sideScale
  else if short ≤ long * negligiblePart then long + short
  else correctedRoot long short

/-- The length of the vector `(x, y)`.  An infinite side makes it infinite even
beside a NaN. -/
def hypotenuse (x y : Float) : Float :=
  if x.isInf then x.abs
  else if y.isInf then y.abs
  else if x.isNaN || y.isNaN then x + y
  else if x.abs < y.abs then finiteHypotenuse y.abs x.abs
  else finiteHypotenuse x.abs y.abs

end GateAlgebra
