import GateAlgebra.Number.Double
/-!
Rounding an exact quotient to a fixed number of decimal places, a half going to
the even neighbour.
-/

namespace GateAlgebra

/-- The whole number nearest to `numer / denom`, the even one of two. -/
def roundHalfEven (numer denom : Nat) : Nat :=
  let quotient := numer / denom
  let rest := 2 * (numer % denom)
  if rest < denom then quotient
  else if denom < rest then quotient + 1
  else quotient + quotient % 2

/-- A result is at most half a unit away. -/
theorem roundHalfEven_near {numer denom : Nat} (h : 0 < denom) :
    2 * numer ≤ 2 * (roundHalfEven numer denom * denom) + denom ∧
      2 * (roundHalfEven numer denom * denom) ≤ 2 * numer + denom := by
  have hdiv := Nat.div_add_mod numer denom
  have hmod := Nat.mod_lt numer h
  have hmul : numer / denom * denom = denom * (numer / denom) := Nat.mul_comm ..
  have hone : (numer / denom + 1) * denom = denom * (numer / denom) + denom := by
    rw [Nat.add_mul, Nat.one_mul, hmul]
  rcases Nat.mod_two_eq_zero_or_one (numer / denom) with heven | hodd
  · simp only [roundHalfEven, heven, Nat.add_zero]
    split
    · rw [hmul]; omega
    · split
      · rw [hone]; omega
      · rw [hmul]; omega
  · simp only [roundHalfEven, hodd]
    split
    · rw [hmul]; omega
    · split <;> (rw [hone]; omega)

/-- A tie goes to the even neighbour. -/
theorem roundHalfEven_tie {numer denom : Nat}
    (h : 2 * (numer % denom) = denom) : roundHalfEven numer denom % 2 = 0 := by
  simp only [roundHalfEven, h, Nat.lt_irrefl, ↓reduceIte]
  omega

/-- The value in units of `10 ^ -places`. -/
def Fraction.toPlaces (value : Fraction) (places : Nat) : Nat :=
  roundHalfEven (value.numer * Nat.pow 10 places) value.denom

end GateAlgebra
