import GateAlgebra.Proofs.MatrixProduct
/-!
Whole powers of matrices over a semiring.  Repeated squaring takes the digits of the exponent one
by one, and in the end it has multiplied as many equal factors as the exponent says.
-/

namespace GateAlgebra

namespace DenseMatrix

variable {R : Type} [Semiring R] {m base result : DenseMatrix R}

/-- The product of `n` equal factors, and the identity if there are none. -/
def plainPower (m : DenseMatrix R) : Nat → DenseMatrix R
  | 0 => identity m.rows
  | n + 1 => plainPower m n * m

theorem plainPower_succ (m : DenseMatrix R) (n : Nat) :
    m.plainPower (n + 1) = m.plainPower n * m := rfl

@[simp] theorem rows_plainPower (m : DenseMatrix R) (n : Nat) :
    (m.plainPower n).rows = m.rows := by
  induction n with
  | zero => rfl
  | succ n ih => exact ih

theorem plainPower_one (m : DenseMatrix R) : m.plainPower 1 = m :=
  identity_mul m

theorem mul_identity (m : DenseMatrix R) : m * identity m.cols = m := by
  refine ext_entry rfl rfl fun i j hi hj => ?_
  have hi : i < m.rows := hi
  have hj : j < m.cols := hj
  rw [entry_mul m (identity m.cols) hi hj, Finset.sum_eq_single_of_mem j (Finset.mem_range.2 hj)]
  · rw [entry_identity hj hj, if_pos rfl, mul_one]
  · intro k hk hne
    rw [entry_identity (Finset.mem_range.1 hk) hj, if_neg hne, mul_zero]

namespace IsSquare

theorem cols_plainPower (h : m.IsSquare) (n : Nat) : (m.plainPower n).cols = m.rows := by
  cases n with
  | zero => rfl
  | succ n => exact h.symm

theorem plainPower (h : m.IsSquare) (n : Nat) : (m.plainPower n).IsSquare :=
  (rows_plainPower m n).trans (h.cols_plainPower n).symm

theorem plainPower_add (h : m.IsSquare) (i j : Nat) :
    m.plainPower (i + j) = m.plainPower i * m.plainPower j := by
  induction j with
  | zero =>
      have hwidth := h.cols_plainPower i
      rw [DenseMatrix.plainPower, ← hwidth, mul_identity, Nat.add_zero]
  | succ j ih =>
      rw [← Nat.add_assoc, plainPower_succ, ih, plainPower_succ]
      refine DenseMatrix.mul_assoc ?_
      rw [h.cols_plainPower, rows_plainPower]

theorem plainPower_mul_self (h : m.IsSquare) (n : Nat) :
    (m * m).plainPower n = m.plainPower (2 * n) := by
  induction n with
  | zero => rfl
  | succ n ih =>
      rw [plainPower_succ, ih, Nat.mul_succ, h.plainPower_add, plainPower_succ m 1,
        plainPower_one]

end IsSquare

/-- The loop multiplies the result by a power of the base.  It squares the base for each further
digit, but not after the last one. -/
theorem squarePower_eq (hbase : base.IsSquare) (hsides : result.cols = base.rows) (n : Nat) :
    squarePower (· * ·) result base n = result * base.plainPower n := by
  induction n using Nat.strong_induction_on generalizing result base with
  | h n ih =>
      have hdigit : (if n % 2 = 1 then result * base else result) =
          result * base.plainPower (n % 2) := by
        rcases Nat.mod_two_eq_zero_or_one n with hn | hn
        · rw [hn, if_neg Nat.zero_ne_one, plainPower, ← hsides, mul_identity]
        · rw [hn, if_pos rfl, plainPower_one]
      unfold squarePower
      dsimp only
      rw [hdigit]
      split
      · rename_i hn
        rw [hn, plainPower, ← hsides, mul_identity]
      · rename_i hn
        split
        · rename_i hhalf
          have hlast : n % 2 = n := by omega
          rw [hlast]
        · have hsquare : (base * base).IsSquare := hbase
          have hnext : (result * base.plainPower (n % 2)).cols = (base * base).rows :=
            hbase.cols_plainPower (n % 2)
          have hinner : result.cols = (base.plainPower (n % 2)).rows := by
            rw [hsides, rows_plainPower]
          rw [ih (n / 2) (by omega) hsquare hnext, hbase.plainPower_mul_self,
            DenseMatrix.mul_assoc hinner, ← hbase.plainPower_add, Nat.mod_add_div]

/-- Repeated squaring is plain multiplication. -/
theorem IsSquare.integerPower_eq (h : m.IsSquare) (n : Nat) :
    m.integerPower (· * ·) n = m.plainPower n := by
  have hstart : (identity m.rows : DenseMatrix R).cols = m.rows := rfl
  have hproduct := identity_mul (m.plainPower n)
  rw [rows_plainPower] at hproduct
  exact (squarePower_eq h hstart n).trans hproduct

end DenseMatrix

end GateAlgebra
