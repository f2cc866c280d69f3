/-!
Settings of the lowering passes.
-/

namespace GateAlgebra

/-- Qubits that multi-controlled gates may borrow, counted from zero, and the
greatest number of passes. -/
structure LoweringConfig where
  ancillae : List Nat := []
  maxPasses : Nat := 16
deriving DecidableEq, Inhabited, Repr

namespace LoweringConfig

/-- Set the qubits that may be borrowed, each once and in ascending order. -/
def withAncillae (config : LoweringConfig) (ancillae : List Nat) : LoweringConfig :=
  { config with ancillae := (ancillae.mergeSort fun a b => decide (a ≤ b)).eraseReps }

/-- Set the number of passes, at least one. -/
def withMaxPasses (config : LoweringConfig) (maxPasses : Nat) : LoweringConfig :=
  { config with maxPasses := max maxPasses 1 }

end LoweringConfig

end GateAlgebra
