import GateAlgebra.Number.Shortest
import GateAlgebra.Number.Fixed
/-!
The decimal text of a double: shortest digits written positionally, or a fixed
number of places.
-/

namespace GateAlgebra

/-- What a text writes for the values that have no digits. -/
structure SpecialTexts where
  nan : String
  infinity : String

/-- Special values are `NaN`, `inf` and `-inf`. -/
def specialTexts : SpecialTexts where
  nan := "NaN"
  infinity := "inf"

/-- A minus for a negative value, zero included, and otherwise nothing. -/
def signText (negative : Bool) : String :=
  if negative then "-" else ""

/-- Digits padded on the left with zeros up to a width. -/
def paddedDigits (width number : Nat) : List Char :=
  let digits := Nat.toDigits 10 number
  List.replicate (width - digits.length) '0' ++ digits

/-- A decimal number without an exponent.  A whole number has no point; any
other has at least one digit before it. -/
def DecimalNumber.positional (number : DecimalNumber) : String :=
  if 0 ≤ number.exponent then
    String.ofList (Nat.toDigits 10 number.coefficient ++
      (if number.coefficient = 0 then []
       else List.replicate number.exponent.toNat '0'))
  else
    let places := (-number.exponent).toNat
    let digits := paddedDigits (places + 1) number.coefficient
    let whole := digits.length - places
    String.ofList (digits.take whole ++ '.' :: digits.drop whole)

/-- The shortest text that reads back as the double, with a sign only where the
value is negative.  Negative zero keeps its sign. -/
def Double.text : Double → String
  | .nan => specialTexts.nan
  | .infinite negative => signText negative ++ specialTexts.infinity
  | .finite negative 0 _ => signText negative ++ "0"
  | .finite negative significand exponent =>
      signText negative ++ (DecimalNumber.shortest significand exponent).positional

/-- The same text with an explicit plus; NaN has no sign. -/
def Double.signedText : Double → String
  | .nan => specialTexts.nan
  | .infinite false => "+" ++ (Double.infinite false).text
  | .finite false significand exponent =>
      "+" ++ (Double.finite false significand exponent).text
  | value => value.text

/-- A fixed number of places, a half going to the even neighbour.  A value that
rounds to zero has no sign. -/
def Double.fixedText (places : Nat) : Double → String
  | .nan => specialTexts.nan
  | .infinite negative => signText negative ++ specialTexts.infinity
  | .finite negative significand exponent =>
      let units := (Fraction.scaled significand exponent).toPlaces places
      signText (negative && units != 0) ++
        DecimalNumber.positional ⟨units, -(places : Int)⟩

/-- The shortest text of a double. -/
def floatText (x : Float) : String :=
  (Double.ofFloat x).text

/-- The shortest text of a double, with a sign. -/
def signedFloatText (x : Float) : String :=
  (Double.ofFloat x).signedText

/-- The text of a double with a fixed number of places. -/
def fixedFloatText (places : Nat) (x : Float) : String :=
  (Double.ofFloat x).fixedText places

end GateAlgebra
