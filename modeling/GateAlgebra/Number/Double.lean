/-!
A double seen exactly.  A finite double is a sign and a whole number times a
power of two, so questions about its decimal text, or about a sum that is rounded
once, become questions about natural numbers.
-/

namespace GateAlgebra

/-- The value of a double.  A finite one is `significand * 2 ^ exponent`, with
the sign kept apart so that the two zeros differ. -/
inductive Double where
  | nan
  | infinite (negative : Bool)
  | finite (negative : Bool) (significand : Nat) (exponent : Int)
deriving DecidableEq, Repr

namespace Double

/-- The weight of the leading bit of a normal significand; 52 bits follow it. -/
def leadingBit : Nat := 0x10000000000000

/-- Read sign, exponent field and fraction field.  The all-ones exponent holds
infinity and NaN, the zero exponent the subnormal numbers, and every other
exponent an implied leading bit. -/
def ofBits (bits : Nat) : Double :=
  let negative := bits.testBit 63
  let exponent : Nat := bits / leadingBit % 2048
  let fraction : Nat := bits % leadingBit
  if exponent = 2047 then
    if fraction = 0 then .infinite negative else .nan
  else if exponent = 0 then .finite negative fraction (-1074)
  else .finite negative (leadingBit + fraction) ((exponent : Int) - 1075)

/-- The exact value of a double. -/
def ofFloat (x : Float) : Double :=
  ofBits x.toBits.toNat

end Double

/-- A quotient of natural numbers, the exact size of a finite double. -/
structure Fraction where
  numer : Nat
  denom : Nat
deriving DecidableEq, Repr

namespace Fraction

/-- `factor * 2 ^ exponent` as a quotient whose denominator is a power of two. -/
def scaled (factor : Nat) (exponent : Int) : Fraction where
  numer := factor <<< exponent.toNat
  denom := 1 <<< (-exponent).toNat

/-- `value * 10 ^ places`, again as a quotient. -/
def shiftDecimal (value : Fraction) (places : Int) : Fraction where
  numer := value.numer * Nat.pow 10 places.toNat
  denom := value.denom * Nat.pow 10 (-places).toNat

/-- The greatest whole number that is not above the quotient. -/
def floor (value : Fraction) : Nat :=
  value.numer / value.denom

theorem denom_scaled_pos (factor : Nat) (exponent : Int) :
    0 < (scaled factor exponent).denom := by
  simp only [scaled, Nat.one_shiftLeft]
  exact Nat.pow_pos (by decide)

theorem denom_shiftDecimal_pos {value : Fraction} (h : 0 < value.denom)
    (places : Int) : 0 < (value.shiftDecimal places).denom :=
  Nat.mul_pos h (Nat.pow_pos (by decide))

end Fraction

namespace Double

/-- A whole double as a natural number.  What lies below zero counts as zero. -/
def natural? : Double → Option Nat
  | finite negative significand exponent =>
      let size := Fraction.scaled significand exponent
      if size.numer % size.denom = 0 then some (if negative then 0 else size.floor)
      else none
  | nan | infinite _ => none

end Double

end GateAlgebra
