import GateAlgebra.Number.Fixed
/-!
Products and sums of doubles that are rounded once.

The exact value of a finite double is a whole number times a power of two, and so
are products and sums of such values.  One rounding to the nearest double, the even
one of two, ends the computation.
-/

namespace GateAlgebra

namespace Double

/-- The lowest exponent of a double. -/
def lowestExponent : Int := -1074

/-- The double nearest to `magnitude * 2 ^ exponent`, the even one of two.  At most
53 binary digits remain, and fewer next to zero. -/
def nearest (magnitude : Nat) (exponent : Int) : Float :=
  let excess := max ((magnitude.log2 : Int) - 52) (lowestExponent - exponent)
  if excess ≤ 0 then Float.scaleB (Float.ofNat magnitude) exponent
  else
    let kept := roundHalfEven magnitude (1 <<< excess.toNat)
    Float.scaleB (Float.ofNat kept) (exponent + excess)

/-- The double nearest to a whole number times a power of two. -/
def nearestSigned (value : Int) (exponent : Int) : Float :=
  if value < 0 then -nearest value.natAbs exponent else nearest value.natAbs exponent

/-- A significand with the sign that belongs to it. -/
def signed (negative : Bool) (significand : Nat) : Int :=
  if negative then -(significand : Int) else significand

/-- A whole number in units of a lower power of two. -/
def align (value : Int) (exponent lower : Int) : Int :=
  value * ((1 <<< (exponent - lower).toNat : Nat) : Int)

end Double

/-- The double nearest to `a * b + c`, found with whole numbers.  A product of finite
factors is exact, also where it is too long for a double. -/
def exactMultiplyAdd (a b c : Float) : Float :=
  match Double.ofFloat a, Double.ofFloat b, Double.ofFloat c with
  | .finite p m i, .finite q n j, .finite r k l =>
      let lower := min (i + j) l
      Double.nearestSigned
        (Double.align (Double.signed (p != q) (m * n)) (i + j) lower +
          Double.align (Double.signed r k) l lower)
        lower
  | .finite _ _ _, .finite _ _ _, _ => c
  | _, _, _ => a * b + c

/-- A double with the rest that is missing to an exact value. -/
structure WithRest where
  value : Float
  rest : Float

/-- A sum and the rounding error in it. -/
def exactSum (a b : Float) : WithRest :=
  let sum := a + b
  let part := sum - a
  ⟨sum, (a - (sum - part)) + (b - part)⟩

/-- The leading 26 binary digits and the others. -/
def splitDigits (a : Float) : WithRest :=
  let scaled := 134217729 * a
  let high := scaled - (scaled - a)
  ⟨high, a - high⟩

/-- A product and the rounding error in it. -/
def exactProduct (a b : Float) : WithRest :=
  let product := a * b
  let left := splitDigits a
  let right := splitDigits b
  ⟨product, ((left.value * right.value - product) + left.value * right.rest +
    left.rest * right.value) + left.rest * right.rest⟩

/-- A sum that is odd in its last binary digit if it is not exact, so that rounding it
once more gives what rounding the exact sum would give. -/
def oddSum (a b : Float) : Float :=
  let sum := exactSum a b
  if sum.rest == 0 || sum.value.toBits % 2 == 1 then sum.value
  else if (0 < sum.value) == (0 < sum.rest) then Float.ofBits (sum.value.toBits + 1)
  else Float.ofBits (sum.value.toBits - 1)

/-- The double nearest to `a * b + c`, for numbers whose rounding errors are doubles. -/
def tameMultiplyAdd (a b c : Float) : Float :=
  let product := exactProduct a b
  let low := exactSum c product.rest
  let high := exactSum product.value low.value
  high.value + oddSum low.rest high.rest

/-- Whether the size of a number lies between `2 ^ -400` and `2 ^ 400`. -/
def isTame (a : Float) : Bool :=
  Float.scaleB 1 (-400) ≤ a.abs && a.abs ≤ Float.scaleB 1 400

/-- The double nearest to `a * b + c`.  The product of a zero needs no rounding. -/
def fusedMultiplyAdd (a b c : Float) : Float :=
  if a == 0 || b == 0 then a * b + c
  else if isTame a && isTame b && (isTame c || c == 0) then tameMultiplyAdd a b c
  else exactMultiplyAdd a b c

end GateAlgebra
