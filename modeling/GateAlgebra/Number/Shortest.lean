import GateAlgebra.Number.Double
/-!
The fewest decimal digits that read back as a given double.

The real numbers that round to a double form an interval around it.  For one
digit, two digits and so on, the two multiples of the matching power of ten
next to the double are tested against that interval.  The first grid with a
hit wins; of two hits the nearer one is taken, and a tie goes to the larger.
-/

namespace GateAlgebra

/-- The numbers that read back as one double, as multiples of `1 / denom`.  The
ends belong to it exactly when `closed` holds. -/
structure ReadBack where
  lower : Nat
  middle : Nat
  upper : Nat
  denom : Nat
  closed : Bool
deriving Repr

/-- A decimal number `coefficient * 10 ^ exponent`. -/
structure DecimalNumber where
  coefficient : Nat
  exponent : Int
deriving DecidableEq, Repr

namespace ReadBack

/-- Half a unit lies between a double and each end, except that below a power of
two the neighbour is only half as far away.  Ends belong to an even significand
because a tie in reading goes to the even neighbour. -/
def ofFinite (significand : Nat) (exponent : Int) : ReadBack :=
  let unit := Fraction.scaled 1 (exponent - 2)
  let below := if significand = Double.leadingBit ∧ -1074 < exponent then 1 else 2
  { lower := (4 * significand - below) * unit.numer
    middle := 4 * significand * unit.numer
    upper := (4 * significand + 2) * unit.numer
    denom := unit.denom
    closed := significand % 2 == 0 }

/-- Whether a decimal number lies in the interval. -/
def holds (interval : ReadBack) (number : DecimalNumber) : Bool :=
  let value := number.coefficient * Nat.pow 10 number.exponent.toNat * interval.denom
  let scale := Nat.pow 10 (-number.exponent).toNat
  if interval.closed then
    interval.lower * scale ≤ value && value ≤ interval.upper * scale
  else
    interval.lower * scale < value && value < interval.upper * scale

/-- The multiples of `10 ^ exponent` next to the middle: the one not above it
and its successor, each kept only if it lies in the interval.  Of two, the
nearer remains, and the larger if both are as near. -/
def onGrid (interval : ReadBack) (exponent : Int) : Option DecimalNumber :=
  let middle := Fraction.shiftDecimal ⟨interval.middle, interval.denom⟩ (-exponent)
  let below : DecimalNumber := ⟨middle.floor, exponent⟩
  let above : DecimalNumber := ⟨middle.floor + 1, exponent⟩
  let remainder := middle.numer % middle.denom
  match interval.holds below, interval.holds above with
  | false, false => none
  | true, false => some below
  | false, true => some above
  | true, true =>
      if 2 * remainder < middle.denom then some below else some above

/-- Search the grids from coarse to fine, `steps` of them, below `10 ^ top`. -/
def search (interval : ReadBack) (top : Int) : Nat → Option DecimalNumber
  | 0 => none
  | steps + 1 =>
      match interval.onGrid (top - 1) with
      | some number => some number
      | none => search interval (top - 1) steps

end ReadBack

/-- Divide out the zeros at the end, at most `steps` of them. -/
def DecimalNumber.trim (number : DecimalNumber) : Nat → DecimalNumber
  | 0 => number
  | steps + 1 =>
      if number.coefficient % 10 = 0 then
        DecimalNumber.trim ⟨number.coefficient / 10, number.exponent + 1⟩ steps
      else number

/-- The number of decimal digits before the point; negative when zeros follow
the point.  Every positive double times `10 ^ 324` is at least one. -/
def decimalMagnitude (value : Fraction) : Int :=
  ((Nat.toDigits 10 (value.shiftDecimal 324).floor).length : Int) - 324

/-- The shortest decimal number that reads back as the positive double
`significand * 2 ^ exponent`.  Seventeen digits always suffice. -/
def DecimalNumber.shortest (significand : Nat) (exponent : Int) : DecimalNumber :=
  let top := decimalMagnitude (Fraction.scaled significand exponent)
  match (ReadBack.ofFinite significand exponent).search top 17 with
  | some number => number.trim 17
  | none => ⟨significand <<< exponent.toNat, 0⟩

end GateAlgebra
