import Mathlib.Data.Real.Basic
import Mathlib.LinearAlgebra.UnitaryGroup
import GateAlgebra.Proofs.ControlledRoot
import GateAlgebra.Proofs.Exact
import GateAlgebra.Proofs.LowerStep
import GateAlgebra.Proofs.TensorPower
/-!
Exact meanings of operations.  Modifiers act on matrices the way their names say, a power
is a function of a unitary matrix and a number, and the rules for gates hold as
equations.
-/

namespace GateAlgebra

section Unitary

variable {R : Type*} [CommRing R] [StarRing R]

open Matrix

theorem blockControl_conjTranspose (n : Nat) {k : Nat} (A : BitMatrix R k) :
    (blockControl n A)ᴴ = blockControl n Aᴴ := by
  funext a b
  have hone : star (if b = a then (1 : R) else 0) = if a = b then 1 else 0 := by
    by_cases hab : a = b
    · simp [hab]
    · simp [hab, Ne.symm hab]
  rw [conjTranspose_apply, blockControl, blockControl, apply_ite star, hone]
  exact if_congr and_comm rfl rfl

theorem blockControl_mem_unitary (n : Nat) {k : Nat} {A : BitMatrix R k}
    (hA : A ∈ unitaryGroup (Bits k) R) :
    blockControl n A ∈ unitaryGroup (Bits (n + k)) R := by
  rw [mem_unitaryGroup_iff, star_eq_conjTranspose] at hA ⊢
  rw [blockControl_conjTranspose, blockControl_mul, hA, blockControl_one]

theorem tensorPower_conjTranspose (n : Nat) {k : Nat} (A : BitMatrix R k) :
    (tensorPower n A)ᴴ = tensorPower n Aᴴ := by
  funext a b
  simp [tensorPower]

theorem tensorPower_mem_unitary (n : Nat) {k : Nat} {A : BitMatrix R k}
    (hA : A ∈ unitaryGroup (Bits k) R) :
    tensorPower n A ∈ unitaryGroup (Bits (n * k)) R := by
  rw [mem_unitaryGroup_iff, star_eq_conjTranspose] at hA ⊢
  rw [tensorPower_conjTranspose, tensorPower_mul, hA, tensorPower_one]

end Unitary

/-- The angle of a gate, if it has one, is an exact multiple of that of another gate. -/
def Gate.ScalesExactly (angle : Scalar → ℝ) (e : Exponent) (g root : Gate) : Prop :=
  ∀ a ∈ g.parameters, ∀ b ∈ root.parameters, angle b = e.number * angle a

/-- A semantics in which every rule of lowering is an equation. -/
structure ExactSemantics (R : Type*) [CommRing R] [StarRing R] extends Semantics R where
  /-- The number that an angle stands for. -/
  angle : Scalar → ℝ
  /-- The power of a matrix. -/
  power : {k : Nat} → BitMatrix R k → Rat → BitMatrix R k
  den_inverted : ∀ w, den (.inverted w) = (den w).conjTranspose
  den_repeated : ∀ n w, den (.repeated n w) = tensorPower n (den w)
  den_powered : ∀ e w, den (.powered e w) = power (den w) e.number
  gate_mem : ∀ g, den (.gate g) ∈ Matrix.unitaryGroup (Bits (Operation.gate g).numQubits) R
  custom_mem : ∀ g,
    den (.custom g) ∈ Matrix.unitaryGroup (Bits (Operation.custom g).numQubits) R
  power_mem : ∀ {k : Nat} {A : BitMatrix R k} {p : Rat}, A ∈ Matrix.unitaryGroup (Bits k) R →
    0 ≤ p → power A p ∈ Matrix.unitaryGroup (Bits k) R
  power_zero : ∀ {k : Nat} {A : BitMatrix R k}, A ∈ Matrix.unitaryGroup (Bits k) R → power A 0 = 1
  power_one : ∀ {k : Nat} {A : BitMatrix R k}, A ∈ Matrix.unitaryGroup (Bits k) R → power A 1 = A
  power_add : ∀ {k : Nat} {A : BitMatrix R k} {p q : Rat}, A ∈ Matrix.unitaryGroup (Bits k) R →
    0 ≤ p → 0 ≤ q → power A p * power A q = power A (p + q)
  /-- A gate is what it expands to. -/
  expansion_eq : ∀ (g : Gate) (qubits : List Nat) (steps : List (Operation × List Nat)),
    qubits.length = g.numQubits → qubits.Nodup → g.expansionSteps qubits = some steps →
    toSemantics.operator (.gate g) qubits =
      toSemantics.run (steps.map fun step => step.1.on step.2)
  /-- A power of a gate is the gate that is known to be one, unless its angle is rounded. -/
  root_eq : ∀ (g root : Gate) (e : Exponent) (qubits : List Nat),
    qubits.length = g.numQubits → qubits.Nodup → g.root? e = some root →
    g.ScalesExactly angle e root →
    toSemantics.operator (.gate root) qubits = toSemantics.operator (.powered e (.gate g)) qubits

namespace ExactSemantics

variable {R : Type*} [CommRing R] [StarRing R] (S : ExactSemantics R)

open Matrix

/-- Gates denote unitary matrices. -/
theorem den_mem {op : Operation} (h : op.isUnitary = true) :
    S.den op ∈ unitaryGroup (Bits op.numQubits) R := by
  induction op with
  | gate g => exact S.gate_mem g
  | custom g => exact S.custom_mem g
  | controlled n w ih =>
      rw [S.den_controlled]
      exact blockControl_mem_unitary n (ih h)
  | powered e w ih =>
      rw [S.den_powered]
      exact S.power_mem (ih h) e.number_nonneg
  | inverted w ih =>
      rw [S.den_inverted]
      exact Unitary.star_mem (ih h)
  | repeated n w ih =>
      rw [S.den_repeated]
      exact tensorPower_mem_unitary n (ih h)
  | _ => simp [Operation.isUnitary] at h

/-- A whole power is a product. -/
theorem power_natCast {k : Nat} {A : BitMatrix R k} (hA : A ∈ unitaryGroup (Bits k) R) (n : Nat) :
    S.power A n = A ^ n := by
  induction n with
  | zero => rw [Nat.cast_zero, S.power_zero hA, pow_zero]
  | succ n ih =>
      rw [Nat.cast_succ, ← S.power_add hA n.cast_nonneg zero_le_one, ih, S.power_one hA, pow_succ]

/-- The adjoint of an operation on target qubits. -/
noncomputable def adjoint (op : Operation) (qubits : List Nat) : Operator R :=
  place qubits (S.den op)ᴴ

/-- A power of the base of an operation, on target qubits. -/
noncomputable def basePower (base : Operation) (p : Rat) (qubits : List Nat) : Operator R :=
  place qubits (S.power (S.den base) p)

theorem operator_inverted (w : Operation) (qubits : List Nat) :
    S.operator (.inverted w) qubits = S.adjoint w qubits := by
  rw [Semantics.operator, S.den_inverted]
  rfl

theorem operator_repeated (n : Nat) (w : Operation) (qubits : List Nat) :
    S.operator (.repeated n w) qubits = place qubits (tensorPower n (S.den w)) := by
  rw [Semantics.operator, S.den_repeated]
  rfl

theorem operator_powered (e : Exponent) (w : Operation) (qubits : List Nat) :
    S.operator (.powered e w) qubits = S.basePower w e.number qubits := by
  rw [Semantics.operator, S.den_powered]
  rfl

variable {op : Operation} {qubits : List Nat}

theorem adjoint_mul_operator (hunitary : op.isUnitary = true)
    (hlength : qubits.length = op.numQubits) (hnodup : qubits.Nodup) :
    S.adjoint op qubits * S.operator op qubits = 1 := by
  have hmem := mem_unitaryGroup_iff'.1 (S.den_mem hunitary)
  rw [star_eq_conjTranspose] at hmem
  rw [adjoint, Semantics.operator, ← place_mul hlength hnodup, hmem, place_one hlength hnodup]

theorem operator_mul_adjoint (hunitary : op.isUnitary = true)
    (hlength : qubits.length = op.numQubits) (hnodup : qubits.Nodup) :
    S.operator op qubits * S.adjoint op qubits = 1 := by
  have hmem := mem_unitaryGroup_iff.1 (S.den_mem hunitary)
  rw [star_eq_conjTranspose] at hmem
  rw [adjoint, Semantics.operator, ← place_mul hlength hnodup, hmem, place_one hlength hnodup]

/-- The same matrix under two names of its size. -/
theorem place_power_congr {k l : Nat} {A : BitMatrix R k} {B : BitMatrix R l} {p : Rat}
    (hk : qubits.length = k) (hl : qubits.length = l) (hnodup : qubits.Nodup)
    (h : place qubits A = place qubits B) :
    place qubits (S.power A p) = place qubits (S.power B p) := by
  subst hk
  subst hl
  rw [place_injective rfl hnodup h]

theorem adjoint_inverted (w : Operation) (qubits : List Nat) :
    S.adjoint (.inverted w) qubits = S.operator w qubits := by
  have hden : (S.den (.inverted w))ᴴ = S.den w :=
    (congrArg conjTranspose (S.den_inverted w)).trans (conjTranspose_conjTranspose (S.den w))
  exact congrArg (place qubits) hden

theorem adjoint_controlled {n : Nat} {w : Operation} (hlength : qubits.length = n + w.numQubits)
    (hnodup : qubits.Nodup) :
    S.adjoint (.controlled n w) qubits =
      ctrl (qubits.take n) (S.adjoint w (qubits.drop n)) := by
  have hden : (S.den (.controlled n w))ᴴ = blockControl n (S.den w)ᴴ :=
    (congrArg conjTranspose (S.den_controlled n w)).trans
      (blockControl_conjTranspose n (S.den w))
  exact (congrArg (place qubits) hden).trans (place_blockControl hlength hnodup _)

theorem adjoint_repeated (n : Nat) (w : Operation) (qubits : List Nat) :
    S.adjoint (.repeated n w) qubits = place qubits (tensorPower n (S.den w)ᴴ) := by
  have hden : (S.den (.repeated n w))ᴴ = tensorPower n (S.den w)ᴴ :=
    (congrArg conjTranspose (S.den_repeated n w)).trans
      (tensorPower_conjTranspose n (S.den w))
  exact congrArg (place qubits) hden

/-- The inverse denotes the adjoint, also where it moves inside. -/
theorem operator_invert (hlength : qubits.length = op.numQubits) (hnodup : qubits.Nodup) :
    S.operator op.invert qubits = S.adjoint op qubits := by
  induction op generalizing qubits with
  | inverted w _ => exact (S.adjoint_inverted w qubits).symm
  | controlled n w ih =>
      have hcount : qubits.length = n + w.numQubits := hlength
      have hdrop : (qubits.drop n).length = w.numQubits := by
        rw [List.length_drop, hcount, Nat.add_sub_cancel_left]
      have hcount' : qubits.length = n + w.invert.numQubits := by
        rw [hcount, Operation.numQubits_invert]
      rw [Operation.invert, S.operator_controlled hcount' hnodup,
        S.adjoint_controlled hcount hnodup, ih hdrop (hnodup.sublist (List.drop_sublist n qubits))]
  | repeated n w ih =>
      have hwidth : (List.range w.invert.numQubits).length = w.numQubits := by simp
      rw [Operation.invert, S.operator_repeated, S.adjoint_repeated]
      exact place_tensorPower_congr (Operation.numQubits_invert w) (ih hwidth List.nodup_range)
  | _ =>
      rw [Operation.invert_eq_inverted (by simp [Operation.kind]), S.operator_inverted]

section Roots

theorem operator_eq_basePower (hunitary : op.isUnitary = true) (qubits : List Nat) :
    S.operator op qubits = S.basePower op.base op.exponent.number qubits := by
  by_cases hpowered : op.kind = .powered
  · cases op with
    | powered e w => exact S.operator_powered e w qubits
    | _ => cases hpowered
  · obtain ⟨hexponent, hbase⟩ := Operation.exponent_base_of_not_powered hpowered
    have hone : (Exponent.ofNat 1).number = 1 := rfl
    rw [hexponent, hbase, hone, basePower, S.power_one (S.den_mem hunitary)]
    rfl

/-- Exponents of one base add. -/
theorem basePower_mul_self {base : Operation} (hunitary : base.isUnitary = true)
    (hlength : qubits.length = base.numQubits) (hnodup : qubits.Nodup) {p : Rat} (hp : 0 ≤ p) :
    S.basePower base p qubits * S.basePower base p qubits = S.basePower base (p + p) qubits := by
  rw [basePower, ← place_mul hlength hnodup, S.power_add (S.den_mem hunitary) hp hp]
  rfl

/-- A square root that has exactly half the exponent is one. -/
theorem operator_root_mul_self (hexact : op.Exact 2) (hcore : op.IsCore)
    (hqubit : op.numQubits = 1) (hlength : qubits.length = op.numQubits)
    (hnodup : qubits.Nodup) :
    S.operator (op.raise .half) qubits * S.operator (op.raise .half) qubits =
      S.operator op qubits := by
  have hroot : (op.raise .half).isUnitary = true := by simpa using hexact.unitary
  obtain ⟨hexponent, hbase, -⟩ := Operation.raise_half_of_core hexact.canonical hcore
  have hhalf : op.exponent.root.number = op.exponent.number / 2 :=
    hexact.roots.halves hexact.unitary hqubit 0 Nat.one_lt_two
  have hwidth : qubits.length = op.base.numQubits := by
    rw [hlength, Operation.numQubits_base]
  have hbaseUnitary := Operation.isUnitary_base.trans hexact.unitary
  rw [S.operator_eq_basePower hroot, S.operator_eq_basePower hexact.unitary, hexponent, hbase,
    S.basePower_mul_self hbaseUnitary hwidth hnodup op.exponent.root.number_nonneg, hhalf,
    add_halves]

theorem qubitMatrix_invert_mul (hunitary : op.isUnitary = true) (hqubit : op.numQubits = 1) :
    S.qubitMatrix op.invert * S.qubitMatrix op = 1 := by
  have hwidth : [0].length = op.numQubits := hqubit.symm
  have hnodup : [0].Nodup := List.nodup_singleton 0
  have hinverse := S.adjoint_mul_operator hunitary hwidth hnodup
  rw [← S.operator_invert hwidth hnodup, S.operator_qubit (by simpa using hqubit),
    S.operator_qubit hqubit, select_mul (fun _ _ => rfl), ← select_one] at hinverse
  exact select_const_injective hinverse

/-- On one qubit a square root of the operator is one of the matrix. -/
theorem qubitMatrix_mul_self {root : Operation} (hroot : root.numQubits = 1)
    (hop : op.numQubits = 1) (h : S.operator root [0] * S.operator root [0] = S.operator op [0]) :
    S.qubitMatrix root * S.qubitMatrix root = S.qubitMatrix op := by
  rw [S.operator_qubit hroot, S.operator_qubit hop, select_mul (fun _ _ => rfl)] at h
  exact select_const_injective h

/-- Square roots are there as long as exponents halve. -/
theorem hasRoots {n : Nat} (hexact : op.Exact (n + 1)) (hcore : op.IsCore)
    (hqubit : op.numQubits = 1) : S.HasRoots op n := by
  induction n generalizing op with
  | zero => exact fun k hk => absurd hk (Nat.not_lt_zero k)
  | succ n ih =>
      have hroot : (op.raise .half).isUnitary = true := by simpa using hexact.unitary
      have hrootQubit : (op.raise .half).numQubits = 1 := by simp [hqubit]
      have hwidth : [0].length = op.numQubits := hqubit.symm
      have hsquare := S.operator_root_mul_self (hexact.mono (by omega)) hcore hqubit hwidth
        (List.nodup_singleton 0)
      have hnext := ih (hexact.root hcore)
        (Operation.raise_half_of_core hexact.canonical hcore).2.2 hrootQubit
      exact .cons ⟨S.qubitMatrix_mul_self hrootQubit hqubit hsquare,
        S.qubitMatrix_invert_mul hroot hrootQubit⟩ hnext

end Roots

end ExactSemantics

end GateAlgebra
