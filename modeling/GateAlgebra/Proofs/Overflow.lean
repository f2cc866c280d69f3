import GateAlgebra.Proofs.Alike
import GateAlgebra.Proofs.Returns
/-!
Exponents that outgrow the finite numbers.  A modifier between two powers keeps their exponents
apart until lowering takes it away and multiplies them.  A product of two finite exponents may
be infinite, and a turn by zero raised that high is a turn by no number.
-/

namespace GateAlgebra

/-- A power of a turn by zero. -/
def turnPower (e : Exponent) : Operation :=
  .powered e (.gate (.rx (.real 0)))

/-- The turn that such a power is. -/
def turnRoot (e : Exponent) : Operation :=
  .gate (.rx (.real (e.toFloat * 0)))

/-- A high power of a high power of a turn, kept apart by a copy and a control. -/
def stretchedTurn : Operation :=
  .powered (.real 1e308) (.repeated 1 (.controlled 1 (turnPower (.real 1e308))))

section Turns

variable {free : List Nat} {e : Exponent} {a b c : Nat}

theorem raise_turnPower {p : Exponent} (he : e.isOne = false) (hproduct : (p * e).isOne = false) :
    (turnPower p).raise e = turnPower (p * e) := by
  rw [turnPower, Operation.raise_powered he]
  exact Operation.raise_eq_powered hproduct (by simp [Operation.kind])

theorem raise_turnRoot {p : Exponent} (hp : p.isOne = false) :
    (turnRoot e).raise p = .powered p (turnRoot e) :=
  Operation.raise_eq_powered hp (by simp [Operation.kind, turnRoot])

/-- A high power of a turn by zero is known to be a turn. -/
theorem lowers_turnPower (hnone : e.natural? = none) :
    Lowers free ((turnPower e).on [a]) [(turnRoot e).on [a]] := by
  have hvalid : ((turnRoot e).on [a]).Valid :=
    Instruction.valid_of_isUnitary rfl rfl (List.nodup_singleton a)
  have hgate : Lowers free ((turnRoot e).on [a]) [(turnRoot e).on [a]] := lowers_gate rfl
  exact Lowers.root hnone rfl hvalid hgate

theorem lowers_controlled_turnPower (hnodup : [a, b, c].Nodup) (hnone : e.natural? = none) :
    Lowers free ((Operation.controlled 2 (turnPower e)).on [a, b, c])
      [(Operation.controlled 2 (turnRoot e)).on [a, b, c]] := by
  have hcontrol : Lowers free ((Operation.controlled 2 (turnPower e)).on [a, b, c])
      [((turnRoot e).addControls 2).on [a, b, c]] :=
    .control Nat.two_pos rfl (Instruction.valid_of_isUnitary rfl rfl hnodup)
      (Instruction.valid_of_isUnitary rfl rfl (List.nodup_singleton c))
      (lowers_turnPower hnone) (by simp) rfl
  exact hcontrol

/-- The two powers become one under the control. -/
theorem lowers_stretchedTurn (hne : a ≠ b) :
    Lowers free (stretchedTurn.on [a, b])
      [(Operation.controlled 1 (turnPower overflowed)).on [a, b]] := by
  have hnodup : [a, b].Nodup := by simpa using hne
  have hvalid : ∀ op : Operation, op.isUnitary = true → op.numQubits = 2 →
      (op.on [a, b]).Valid := fun op hunitary hwidth =>
    Instruction.valid_of_isUnitary hunitary hwidth.symm hnodup
  have hinner := hvalid (.controlled 1 (turnPower (.real 1e308))) rfl rfl
  have houter := hvalid (.controlled 1 (turnPower overflowed)) rfl rfl
  have hcopy : Lowers free
      ((Operation.repeated 1 (.controlled 1 (turnPower (.real 1e308)))).on [a, b])
      [(Operation.controlled 1 (turnPower (.real 1e308))).on [a, b]] :=
    (lowers_single rfl hinner).copy (by decide) (hvalid (.repeated 1 _) rfl rfl) hinner
  obtain ⟨⟨hlarge, hnone⟩, ⟨hproduct, -⟩, -⟩ := by simpa using neither_one_nor_whole
  have hraise : (Operation.controlled 1 (turnPower (.real 1e308))).raise (.real 1e308) =
      .controlled 1 (turnPower overflowed) := by
    rw [Operation.raise_controlled hlarge, raise_turnPower hlarge hproduct]
    rfl
  have hpowered : (Operation.controlled 1 (turnPower (.real 1e308))).power (.real 1e308) =
      .ok (.controlled 1 (turnPower overflowed)) :=
    Operation.power_eq_ok_iff.2 ⟨rfl, hraise.symm⟩
  exact LowerStep.lowers (hvalid stretchedTurn rfl rfl) (.powerOf rfl
    (hvalid (.repeated 1 _) rfl rfl) hcopy hpowered houter (lowers_single rfl houter)
    hnone rfl rfl)

/-- Under one more control. -/
theorem lowers_controlled_stretchedTurn (hnodup : [a, b, c].Nodup) :
    Lowers free ((Operation.controlled 1 stretchedTurn).on [a, b, c])
      [(Operation.controlled 2 (turnPower overflowed)).on [a, b, c]] := by
  have hinner : [b, c].Nodup := hnodup.of_cons
  have hne : b ≠ c := by simpa using hinner
  have hcontrol : Lowers free ((Operation.controlled 1 stretchedTurn).on [a, b, c])
      [((Operation.controlled 1 (turnPower overflowed)).addControls 1).on [a, b, c]] :=
    .control Nat.one_pos rfl (Instruction.valid_of_isUnitary rfl rfl hnodup)
      (Instruction.valid_of_isUnitary rfl rfl hinner) (lowers_stretchedTurn hne)
      (by decide) rfl
  exact hcontrol

/-- An infinite power of a turn by zero is a turn by no number, and so is its square root. -/
theorem turnRoot_differs : (turnRoot overflowed == turnRoot overflowed) = false ∧
    (turnRoot (overflowed * .half) == turnRoot (overflowed * .half)) = false := by
  decide +kernel

end Turns

end GateAlgebra
