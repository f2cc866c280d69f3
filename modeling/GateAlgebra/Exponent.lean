import GateAlgebra.CircuitError
import GateAlgebra.Number.Double
import GateAlgebra.Word
/-!
Exponents of powers.  A rational exponent is a non-negative fraction in lowest
terms whose parts fit in a signed 64-bit word; it multiplies exactly as long as
the unreduced product fits too.  Any other exponent is a double.
-/

namespace GateAlgebra

/-- The exponent of a power. -/
inductive Exponent where
  | rational (ratio : Rat)
  | real (value : Float)
deriving BEq

instance : Inhabited Exponent := ⟨.rational 1⟩

/-- The quotient of the parts, each rounded to a double first. -/
def ratioToFloat (ratio : Rat) : Float :=
  Float.ofInt ratio.num / Float.ofNat ratio.den

namespace Exponent

def ofNat (n : Nat) : Exponent :=
  rational n

def half : Exponent :=
  rational (mkRat 1 2)

/-- The positive infinite double, reported for a zero denominator. -/
def infinity : Float := 1.0 / 0.0

/-- The fraction `numer / denom`, which must not be negative and whose reduced
parts must fit. -/
def ofFraction (numer denom : Int) : Except CircuitError Exponent :=
  if denom = 0 then .error (.invalidExponent infinity)
  else
    let ratio := Rat.divInt numer denom
    if ratio.num < 0 then .error (.invalidExponent (ratioToFloat ratio))
    else if fitsWord ratio.num && fitsWord ratio.den then .ok (rational ratio)
    else .error (.invalidExponent (ratioToFloat ratio))

/-- A double that is finite and not below zero. -/
def ofFloat (value : Float) : Except CircuitError Exponent :=
  if !value.isFinite || value < 0 then .error (.invalidExponent value)
  else .ok (real value)

def toFloat : Exponent → Float
  | rational ratio => ratioToFloat ratio
  | real value => value

/-- The largest exponent that counts as a whole number of repetitions. -/
def maxRepetitions : Nat := 0xffffffff

/-- The exponent as a number of repetitions, if it is whole and at most
`maxRepetitions`. -/
def natural? : Exponent → Option Nat
  | rational ratio =>
      if ratio.den = 1 ∧ 0 ≤ ratio.num ∧ ratio.num ≤ maxRepetitions then
        some ratio.num.toNat
      else none
  | real value =>
      (Double.ofFloat value).natural?.filter fun n => decide (n ≤ maxRepetitions)

/-- The exponent as a fraction, if it is rational. -/
def ratio? : Exponent → Option Rat
  | rational ratio => some ratio
  | real _ => none

def isOne : Exponent → Bool
  | rational ratio => ratio == 1
  | real value => value == 1

/-- The product: exact if both factors are rational and the products of their
parts fit, and otherwise a product of doubles. -/
def mul : Exponent → Exponent → Exponent
  | rational a, rational b =>
      if fitsWord (a.num * b.num) && fitsWord (a.den * b.den) then rational (a * b)
      else real (ratioToFloat a * ratioToFloat b)
  | a, b => real (a.toFloat * b.toFloat)

instance : Mul Exponent := ⟨mul⟩

/-- A whole number, a fraction `n/d`, or the shortest text of a double. -/
def text : Exponent → String
  | rational ratio =>
      if ratio.den = 1 then toString ratio.num
      else toString ratio.num ++ "/" ++ toString ratio.den
  | real value => floatText value

end Exponent

end GateAlgebra
