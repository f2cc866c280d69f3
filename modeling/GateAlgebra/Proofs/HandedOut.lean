import GateAlgebra.Proofs.Parts
/-!
What lowering hands out, whether or not it comes to an end.  Every instruction is valid, and
its operation has any property that gates have and that modifiers keep, if the operation that
is lowered has it.
-/

namespace GateAlgebra

open Emission Operation

section Lowering

variable {E : Exponent → Prop} {P : Operation → Prop} {free : List Nat} {inst : Instruction}

section Wrapped

variable {lower : Instruction → Emission}
  (hlower : ∀ part, part.ValidWith P → (lower part).HandsOut (Instruction.ValidWith P))

include hlower

theorem handsOut_lowerOn {op : Operation} (hop : P op) (qubits : List Nat) :
    (lowerOn lower op qubits).HandsOut (Instruction.ValidWith P) := by
  refine handsOut_build fun part hpart => ?_
  obtain ⟨rfl, hvalid⟩ := Instruction.onQubits_eq_ok_iff.1 hpart
  exact hlower _ ⟨hvalid, hop⟩

theorem handsOut_lowerRepeated {w : Operation} (hw : P w) (qubits : List Nat) :
    (lowerRepeated lower w qubits).HandsOut (Instruction.ValidWith P) := by
  unfold lowerRepeated
  split
  · exact handsOut_failure _
  · refine handsOut_sequence fun emission hemission => ?_
    obtain ⟨block, -, rfl⟩ := List.mem_map.1 hemission
    exact handsOut_lowerOn hlower hw block

end Wrapped

variable (hP : CallClosed E P)

include hP

theorem handsOut_controlledX (controls : List Nat) (target : Nat) (free : List Nat) :
    (controlledX controls target free).HandsOut (Instruction.ValidWith P) :=
  (controlledX_handsOut (List.Subset.refl _)).mono fun _ h =>
    ⟨h.valid, hP.rung h.rung (hP.gate .x) rfl⟩

/-- Roots of what is no gate cannot be controlled, so then nothing is handed out. -/
theorem handsOut_controlledRoot {op : Operation} (hop : P op) (controls : List Nat)
    (target : Nat) (free : List Nat) :
    (controlledRoot op controls target free).HandsOut (Instruction.ValidWith P) := by
  by_cases hsome : controls = []
  · rw [hsome]
    exact handsOut_apply fun hvalid => ⟨hvalid, hop⟩
  · -- The rungs of a gate are gates; what is no gate fails at its first root or control.
    by_cases hunitary : op.isUnitary = true
    · exact (controlledRoot_handsOut hsome (List.Subset.refl _)).mono fun _ h =>
        ⟨h.valid, hP.rung h.rung hop hunitary⟩
    · unfold controlledRoot
      rcases hcontrols : controls.reverse with _ | ⟨last, _ | ⟨second, rest⟩⟩
      · exact absurd (List.reverse_eq_nil_iff.1 hcontrols) hsome
      · refine handsOut_build fun controlled hcontrolled => ?_
        exact absurd (control_eq_ok_iff.1 hcontrolled).2.1 hunitary
      · refine handsOut_build fun root hroot => ?_
        exact absurd (power_eq_ok_iff.1 hroot).1 hunitary

variable {lower : Instruction → Emission}
  (hlower : ∀ part, part.ValidWith P → (lower part).HandsOut (Instruction.ValidWith P))

include hlower

theorem handsOut_lowerGate (hinst : inst.ValidWith P) (g : Gate) :
    (lowerGate lower inst g).HandsOut (Instruction.ValidWith P) := by
  refine handsOut_build fun expansion hexpansion => ?_
  rcases expansion_eq_ok_iff.1 hexpansion with ⟨-, rfl⟩ | ⟨steps, hsteps, hvalid, rfl⟩
  · exact handsOut_done_singleton hinst
  · refine handsOut_sequence fun emission hemission => ?_
    obtain ⟨part, hpart, rfl⟩ := List.mem_map.1 hemission
    obtain ⟨step, hstep, rfl⟩ := List.mem_map.1 hpart
    have hkind := ((isStep_of_expansionSteps hsteps).2 step hstep).1
    exact hlower _ ⟨hvalid step hstep, hP.step hkind⟩

theorem handsOut_lowerInverted {w : Operation} (hw : P w) (qubits : List Nat) :
    (lowerInverted lower w qubits).HandsOut (Instruction.ValidWith P) := by
  -- Nothing is handed out before the whole lowering is known, and then in reverse.
  refine handsOut_whole (handsOut_lowerOn hlower hw qubits) fun lowered hlowered => ?_
  refine handsOut_sequence fun emission hemission => ?_
  obtain ⟨part, hpart, rfl⟩ := List.mem_map.1 hemission
  have hpart := hlowered part (List.mem_reverse.1 hpart)
  refine handsOut_bind fun inverse hinverse => handsOut_done_singleton ?_
  rcases inverse_unitary_cases (mapError_eq_ok_iff.1 hinverse) with rfl | ⟨hunitary, rfl⟩
  · exact hpart
  · exact ⟨hpart.valid.invert hunitary, hP.invert hunitary hpart.operation⟩

theorem handsOut_lowerPowered (hinst : inst.ValidWith P) {e : Exponent} (he : E e)
    {w : Operation} (hw : P w) :
    (lowerPowered lower inst e w).HandsOut (Instruction.ValidWith P) := by
  have hwrapped := handsOut_lowerOn hlower hw inst.qubits
  rw [lowerPowered_eq]
  split
  · exact handsOut_done_nil
  · exact handsOut_times hwrapped _
  · split
    · exact handsOut_lowerOn hlower (hP.gate _) inst.qubits
    · refine handsOut_whole hwrapped fun lowered hlowered => ?_
      split
      · rename_i only
        have honly := hlowered only List.mem_cons_self
        split
        · exact handsOut_done_singleton hinst
        · refine handsOut_bind fun powered hpowered => ?_
          obtain ⟨hunitary, rfl⟩ := power_eq_ok_iff.1 (mapError_eq_ok_iff.1 hpowered)
          exact handsOut_lowerOn hlower (hP.raise he hunitary honly.operation) only.qubits
      · exact handsOut_done_singleton hinst

theorem handsOut_lowerControlled (hinst : inst.ValidWith P) (n : Nat) {w : Operation}
    (hw : P w) : (lowerControlled lower free inst n w).HandsOut (Instruction.ValidWith P) := by
  unfold lowerControlled
  dsimp only
  split
  · exact handsOut_done_singleton hinst
  · refine handsOut_whole (handsOut_lowerOn hlower hw _) fun lowered hlowered => ?_
    split
    · unfold lowerControlledLeaf
      split
      · exact handsOut_done_singleton hinst
      · dsimp only
        split
        · exact handsOut_controlledX hP _ _ free
        · exact handsOut_controlledRoot hP hw _ _ free
    · refine handsOut_sequence fun emission hemission => ?_
      obtain ⟨part, hpart, rfl⟩ := List.mem_map.1 hemission
      refine handsOut_bind fun controlled hcontrolled => handsOut_apply fun hvalid => ?_
      obtain ⟨hn, hunitary, rfl⟩ :=
        control_eq_ok_iff.1 (mapError_eq_ok_iff.1 hcontrolled)
      exact ⟨hvalid, hP.addControls hn hunitary (hlowered part hpart).operation⟩

/-- One level of lowering. -/
theorem handsOut_lowerStep (hinst : inst.ValidWith P) :
    (lowerStep lower free inst).HandsOut (Instruction.ValidWith P) := by
  have hwrapped : ∀ {w}, inst.operation.wrapped? = some w → P w := fun hw =>
    (hP.wrapped hw hinst.operation).2
  unfold lowerStep
  split
  · rename_i g hop
    exact handsOut_lowerGate hP hlower hinst g
  · rename_i w hop
    exact handsOut_lowerInverted hP hlower (hwrapped (by rw [hop]; rfl)) inst.qubits
  · rename_i n w hop
    exact handsOut_lowerRepeated hlower (hwrapped (by rw [hop]; rfl)) inst.qubits
  · rename_i e w hop
    have he : E e := hP.exponent (hop ▸ hinst.operation)
    exact handsOut_lowerPowered hP hlower hinst he (hwrapped (by rw [hop]; rfl))
  · rename_i n w hop
    exact handsOut_lowerControlled hP hlower hinst n (hwrapped (by rw [hop]; rfl))
  · exact handsOut_done_singleton hinst

end Lowering

section Run

variable {E : Exponent → Prop} {P : Operation → Prop} (hP : CallClosed E P)

include hP

theorem handsOut_lowerWithin (free : List Nat) (depth : Nat) {inst : Instruction}
    (hinst : inst.ValidWith P) :
    (lowerWithin free depth inst).HandsOut (Instruction.ValidWith P) := by
  induction depth generalizing inst with
  | zero => exact List.forall_mem_nil _
  | succ depth ih => exact handsOut_lowerStep hP (fun part hpart => ih hpart) hinst

theorem handsOut_lower {inst : Instruction} (hinst : inst.ValidWith P) (ancillae : List Nat) :
    (inst.lower ancillae).HandsOut (Instruction.ValidWith P) :=
  handsOut_lowerWithin hP _ _ hinst

/-- Targets that the operation does not take are refused before anything is handed out. -/
theorem handsOut_lower_targets {op : Operation} (hop : P op)
    (qubits bits zvars ancillae : List Nat) :
    (op.lower qubits bits zvars ancillae).HandsOut (Instruction.ValidWith P) := by
  refine handsOut_build fun inst hinst => ?_
  obtain ⟨rfl, hvalid⟩ := Instruction.make_eq_ok_iff.1 hinst
  exact handsOut_lower hP ⟨hvalid, hop⟩ ancillae

end Run

theorem handsOut_operation_lower {P : Operation → Prop} (hP : ModifierClosed P) {op : Operation}
    (hop : P op) (qubits bits zvars ancillae : List Nat) :
    (op.lower qubits bits zvars ancillae).HandsOut (Instruction.ValidWith P) :=
  handsOut_lower_targets hP.callClosed hop qubits bits zvars ancillae

/-- Whatever is constructed is simplified if no count in it is zero, and only counts that lose
bits can be zero.  Everything that lowering makes of a simplified operation is simplified, even if
it fails. -/
theorem constructed_and_lowered_are_simplified (counting : Counting) :
    (∀ op : Operation, op.Constructed counting →
      (op.Simplified ↔ op.EachCount (0 < ·)) ∧ (counting ≠ .wraps → op.Simplified)) ∧
    ∀ (op : Operation) (qubits bits zvars ancillae : List Nat), op.Simplified →
      ∀ part ∈ (op.lower qubits bits zvars ancillae).emitted, part.operation.Simplified := by
  refine ⟨fun op hop => ?_, fun op qubits bits zvars ancillae hop part hpart => ?_⟩
  · have hsimplified := simplified_of_constructed hop
    refine ⟨hsimplified.iff_eachCount, fun hcounting => ?_⟩
    rwa [Counting.allows_eq hcounting] at hsimplified
  · exact (handsOut_operation_lower modifierClosed_simplified hop qubits bits zvars ancillae
      part hpart).operation

theorem constructed_and_lowered_are_simplified_root_y :
    controlledRootY.Simplified ∧
    ∀ part ∈ (controlledRootY.lower [0, 1, 2] [] [] []).emitted, part.operation.Simplified := by
  obtain ⟨hconstructed, hlowered⟩ := constructed_and_lowered_are_simplified .stops
  have hsimplified := (hconstructed _ constructed_controlledRootY).2 nofun
  exact ⟨hsimplified, hlowered _ [0, 1, 2] [] [] [] hsimplified⟩

/-- X under as many controls as there can be and one more, where bits are lost, is under no
control. -/
theorem lost_controls_leave_a_bare_modifier :
    (controlled 0 (gate .x)).Constructed .wraps ∧ ¬(controlled 0 (gate .x)).Simplified := by
  have hmost : Constructed .wraps (controlled maxIndex (gate .x)) :=
    .modify (.leaf rfl) (.control controlIn_maxIndex)
  exact ⟨.modify hmost (.control controlIn_lost), fun h => Nat.lt_irrefl 0 h.canonical.1⟩

end GateAlgebra
