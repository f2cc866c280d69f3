/-!
The number of basis states of a register.
-/

namespace GateAlgebra

/-- The dimension of the states of `n` qubits, which doubles with every qubit. -/
def dimension (n : Nat) : Nat :=
  Nat.pow 2 n

theorem dimension_zero : dimension 0 = 1 :=
  rfl

theorem dimension_succ (n : Nat) : dimension (n + 1) = dimension n * 2 :=
  rfl

theorem dimension_pos (n : Nat) : 0 < dimension n :=
  Nat.pow_pos (by decide)

/-- The states of two registers side by side are the pairs of their states. -/
theorem dimension_add (m n : Nat) : dimension (m + n) = dimension m * dimension n :=
  Nat.pow_add 2 m n

end GateAlgebra
