import GateAlgebra.Proofs.Alike
import GateAlgebra.Proofs.HandedOut
import GateAlgebra.Proofs.Repeats
/-!
Gates on qubits apart from those that may be borrowed.  Every gate that lowering calls itself
on is placed like this if the first one is, and has each property that calls keep.
-/

namespace GateAlgebra

open Emission

/-- A valid gate with a property, and qubits to borrow that it does not act on. -/
structure Instruction.PlacedWith (P : Operation → Prop) (free : List Nat) (inst : Instruction) :
    Prop where
  valid : inst.Valid
  unitary : inst.operation.isUnitary = true
  operation : P inst.operation
  free_disjoint : ∀ q ∈ free, q ∉ inst.qubits

section Steps

variable {qubits : List Nat}

theorem valid_of_expansionSteps {g : Gate} {steps : List (Operation × List Nat)}
    (hlength : qubits.length = g.numQubits) (hnodup : qubits.Nodup)
    (h : g.expansionSteps qubits = some steps) : ∀ step ∈ steps, (step.1.on step.2).Valid := by
  have hall : ∀ step ∈ steps, step.2.length = step.1.numQubits ∧ step.2.Nodup := by
    cases g <;> simp only [Gate.expansionSteps, reduceCtorEq, Option.some.injEq] at h
    case u =>
      subst h
      simp_all [Operation.numQubits, Operation.arity, Arity.onQubits, Gate.numQubits]
    all_goals
      obtain ⟨a, b, rfl⟩ := List.length_eq_two.1 hlength
      subst h
      simp_all [Operation.numQubits, Operation.arity, Arity.onQubits, Gate.numQubits,
        Operation.cx, Operation.sdg, Operation.controlledGate, Operation.invertedGate, eq_comm]
  intro step hstep
  obtain ⟨hwidth, hdistinct⟩ := hall step hstep
  exact Instruction.valid_of_isUnitary
    ((isStep_of_expansionSteps h).2 step hstep).1.isUnitary hwidth hdistinct

theorem length_of_mem_blocks {k n : Nat} {block : List Nat} (hk : 0 < k)
    (hlength : qubits.length = n * k) (hblock : block ∈ blocks k qubits qubits.length) :
    block.length = k ∧ block.Sublist qubits := by
  have hcount : n ≤ qubits.length := by
    rw [hlength]
    exact Nat.le_mul_of_pos_right n hk
  rw [blocks_eq_ofFn hk hlength hcount, List.mem_ofFn] at hblock
  obtain ⟨i, rfl⟩ := hblock
  constructor
  · have hend : k * i + k ≤ n * k := by
      rw [← Nat.mul_succ, Nat.mul_comm n]
      exact Nat.mul_le_mul_left k i.isLt
    rw [List.length_take, List.length_drop, hlength]
    omega
  · exact (List.take_sublist _ _).trans (List.drop_sublist _ _)

end Steps

namespace Instruction.PlacedWith

variable {E : Exponent → Prop} {P : Operation → Prop} {free : List Nat}
  {inst other : Instruction} {w : Operation}

theorem on (h : inst.PlacedWith P free) {op : Operation} {qubits : List Nat}
    (hunitary : op.isUnitary = true) (hop : P op) (hlength : qubits.length = op.numQubits)
    (hsub : qubits.Sublist inst.qubits) : (op.on qubits).PlacedWith P free :=
  ⟨Instruction.valid_of_isUnitary hunitary hlength (h.valid.qubits_nodup.sublist hsub), hunitary,
    hop, fun q hq hmem => h.free_disjoint q hq (hsub.subset hmem)⟩

/-- The controls and the target of a controlled operation on one qubit. -/
theorem split_controlled (h : inst.PlacedWith P free) {n : Nat}
    (hop : inst.operation = .controlled n w) (hqubit : w.numQubits = 1) :
    ∃ target, inst.qubits.drop n = [target] ∧ (inst.qubits.take n ++ [target]).Nodup ∧
      ∀ q ∈ free, q ∉ inst.qubits.take n ++ [target] := by
  obtain ⟨target, -, hdrop⟩ := h.valid.drop_eq_singleton hop hqubit
  have hsplit := List.take_append_drop n inst.qubits
  rw [hdrop] at hsplit
  refine ⟨target, hdrop, ?_⟩
  rw [hsplit]
  exact ⟨h.valid.qubits_nodup, h.free_disjoint⟩

variable (hP : Operation.CallClosed E P)

include hP

theorem step (h : inst.PlacedWith P free) {g : Gate} (hop : inst.operation = .gate g)
    {steps : List (Operation × List Nat)} (hsteps : g.expansionSteps inst.qubits = some steps)
    {step : Operation × List Nat} (hstep : step ∈ steps) :
    (step.1.on step.2).PlacedWith P free := by
  have hlength : inst.qubits.length = g.numQubits := by
    rw [h.valid.qubits_length, hop]
    rfl
  have hkind := ((isStep_of_expansionSteps hsteps).2 step hstep).1
  refine ⟨valid_of_expansionSteps hlength h.valid.qubits_nodup hsteps step hstep,
    hkind.isUnitary, hP.step hkind, fun q hq hmem => ?_⟩
  exact h.free_disjoint q hq (subset_of_expansionSteps hlength hsteps step hstep hmem)

theorem wrapped (h : inst.PlacedWith P free) {e : Exponent}
    (hop : inst.operation = .inverted w ∨ inst.operation = .powered e w) :
    (w.on inst.qubits).PlacedWith P free := by
  have hwrapped : inst.operation.wrapped? = some w := by
    rcases hop with hop | hop <;> rw [hop] <;> rfl
  have hlength : inst.qubits.length = w.numQubits := by
    rw [h.valid.qubits_length]
    rcases hop with hop | hop <;> rw [hop] <;> rfl
  obtain ⟨hunitary, hw⟩ := hP.wrapped hwrapped h.operation
  exact h.on hunitary hw hlength (List.Sublist.refl _)

theorem block (h : inst.PlacedWith P free) {n : Nat} (hop : inst.operation = .repeated n w)
    (hwidth : w.numQubits ≠ 0) {block : List Nat}
    (hblock : block ∈ blocks w.numQubits inst.qubits inst.qubits.length) :
    (w.on block).PlacedWith P free := by
  have hwhole : P (.repeated n w) := hop ▸ h.operation
  obtain ⟨hunitary, hw⟩ := hP.wrapped rfl hwhole
  have hlength : inst.qubits.length = n * w.numQubits := by
    rw [h.valid.qubits_length, hop]
    rfl
  obtain ⟨hcount, hsub⟩ := length_of_mem_blocks (Nat.pos_of_ne_zero hwidth) hlength hblock
  exact h.on hunitary hw hcount hsub

theorem targets (h : inst.PlacedWith P free) {n : Nat} (hop : inst.operation = .controlled n w) :
    (w.on (inst.qubits.drop n)).PlacedWith P free := by
  have hwhole : P (.controlled n w) := hop ▸ h.operation
  obtain ⟨hunitary, hw⟩ := hP.wrapped rfl hwhole
  have hlength : inst.qubits.length = n + w.numQubits := by
    rw [h.valid.qubits_length, hop]
    rfl
  refine h.on hunitary hw ?_ (List.drop_sublist n _)
  rw [List.length_drop]
  omega

theorem root (h : inst.PlacedWith P free) {e : Exponent} {root : Gate}
    (hop : inst.operation = .powered e w) (hroot : w.root? e = some root) :
    ((Operation.gate root).on inst.qubits).PlacedWith P free := by
  have hlength := h.valid.qubits_length
  rw [hop] at hlength
  cases w with
  | gate g =>
      have hsame : root.numQubits = g.numQubits := Gate.numQubits_of_root? hroot
      exact h.on rfl (hP.gate root) (hlength.trans hsame.symm) (List.Sublist.refl _)
  | _ => cases hroot

/-- The power of the only instruction that what is under the power is lowered to. -/
theorem powerOf (h : inst.PlacedWith P free) {e : Exponent} {only : Instruction}
    (hop : inst.operation = .powered e w) (hsub : Lowers free (w.on inst.qubits) [only]) :
    only.operation.power e = .ok (only.operation.raise e) ∧
      ((only.operation.raise e).on only.qubits).PlacedWith P free := by
  have hw := h.wrapped hP (Or.inr hop)
  have he : E e := hP.exponent (hop ▸ h.operation)
  obtain ⟨other, rfl⟩ := hsub.only_on hw.valid
  have hunitary := (hsub.yields hw.valid _ List.mem_cons_self).unitary hw.unitary
  obtain ⟨depth, hdepth⟩ := hsub
  have hparts := handsOut_lowerWithin hP free depth ⟨hw.valid, hw.operation⟩
  rw [hdepth] at hparts
  have honly := hparts _ List.mem_cons_self
  refine ⟨Operation.power_eq_ok_iff.2 ⟨hunitary, rfl⟩, ?_⟩
  refine h.on (by simpa using hunitary) (hP.raise he hunitary honly.operation) ?_
    (List.Sublist.refl _)
  rw [Operation.operation_on, Operation.numQubits_raise]
  exact honly.valid.qubits_length

theorem calls (h : inst.PlacedWith P free) (hcalls : Calls free inst other) :
    other.PlacedWith P free := by
  cases hcalls with
  | step hop hsteps => exact h.step hP hop hsteps (by simp)
  | inverted hop => exact h.wrapped (e := .half) hP (Or.inl hop)
  | block hop hwidth hblocks => exact h.block hP hop hwidth (by simp [hblocks])
  | times hop => exact h.wrapped hP (Or.inr hop)
  | root hop hnone hroot => exact h.root hP hop hroot
  | powered hop => exact h.wrapped hP (Or.inr hop)
  | powerOf hop hnone hroot hvalid hlowers hchanged hpowered =>
      obtain ⟨hpower, hplaced⟩ := h.powerOf hP hop hlowers
      obtain rfl := Except.ok.inj (hpower.symm.trans hpowered)
      exact hplaced
  | controlled hop => exact h.targets hP hop

end Instruction.PlacedWith

end GateAlgebra
