/-!
Whole numbers that fit in 64 bits.  The parts of a fraction are signed, and
indices and counts are not.  What becomes of a count that does not fit depends on
how the program is compiled.
-/

namespace GateAlgebra

/-- Whether a whole number fits in a signed 64-bit word. -/
def fitsWord (n : Int) : Bool :=
  -0x8000000000000000 ≤ n && n ≤ 0x7fffffffffffffff

/-- The largest index, and the largest count. -/
def maxIndex : Nat := 0xffffffffffffffff

/-- Whether a whole number is an index. -/
def fitsIndex (n : Int) : Bool :=
  0 ≤ n && n ≤ maxIndex

/-- How counts are added up and multiplied. -/
inductive Counting where
  /-- As natural numbers. -/
  | exact
  /-- In 64 bits, and the program stops where a result does not fit. -/
  | stops
  /-- In 64 bits, and the bits that do not fit are lost. -/
  | wraps
deriving DecidableEq, Inhabited, Repr

/-- The result that is counted, unless the program stops. -/
def Counting.count (counting : Counting) (n : Nat) : Option Nat :=
  match counting with
  | exact => some n
  | stops => if n ≤ maxIndex then some n else none
  | wraps => some (n % (maxIndex + 1))

theorem fitsWord_natCast (n : Nat) : fitsWord n ↔ n ≤ 0x7fffffffffffffff := by
  simp only [fitsWord, Bool.and_eq_true, decide_eq_true_eq]
  omega

theorem fitsIndex_natCast (n : Nat) : fitsIndex n ↔ n ≤ maxIndex := by
  simp only [fitsIndex, Bool.and_eq_true, decide_eq_true_eq]
  omega

end GateAlgebra
