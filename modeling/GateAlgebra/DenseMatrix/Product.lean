import GateAlgebra.DenseMatrix.Basic
import GateAlgebra.Number.Fused
/-!
The product of complex matrices of doubles.

An entry is a sum of products to which every term adds two real products for each
part, one after the other and each rounded once with its addition.  The sum is
multiplied by the complex number one when it is stored.  This changes no finite entry,
but a part beside an infinite one becomes NaN.
-/

namespace GateAlgebra

/-- A complex matrix of doubles. -/
abbrev FloatMatrix := DenseMatrix ComplexFloat

namespace ComplexFloat

/-- The value of `a * b + c`.  The products with the real part of `a` go first. -/
def multiplyAdd (a b c : ComplexFloat) : ComplexFloat where
  re := fusedMultiplyAdd (-a.im) b.im (fusedMultiplyAdd a.re b.re c.re)
  im := fusedMultiplyAdd a.im b.re (fusedMultiplyAdd a.re b.im c.im)

/-- The sum of the first `n` products of two sequences. -/
def dot (left right : Nat → ComplexFloat) : Nat → ComplexFloat
  | 0 => 0
  | n + 1 => (left n).multiplyAdd (right n) (dot left right n)

end ComplexFloat

/-- The product of two matrices. -/
def DenseMatrix.product (a b : FloatMatrix) : FloatMatrix :=
  .ofFn a.rows b.cols fun i j =>
    1 * ComplexFloat.dot (a.entry i) (fun k => b.entry k j) a.cols

end GateAlgebra
