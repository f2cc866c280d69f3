import GateAlgebra.Proofs.Placement
/-!
Lowering never fails.  On well-formed gates every instruction that is built on the way is
accepted, whatever its numbers are, unless a qubit may be borrowed twice.  So lowering stops
for want of depth only.
-/

namespace GateAlgebra

open Emission

/-- Lowering stopped, if it did, because no depth was left. -/
abbrev Emission.LacksDepth (emission : Emission) : Prop :=
  emission.StopsOnly fun stop => stop = .unfinished

/-- Lowering stopped, if it did, because no depth was left or a qubit may be borrowed twice. -/
abbrev Emission.FailsAtRepeats (free : List Nat) (emission : Emission) : Prop :=
  emission.StopsOnly fun stop => stop = .unfinished ∨ stop.RepeatsIn free

section Parts

variable {Q : Stop → Prop} {lowered : List Instruction}

/-- Gates have inverses. -/
theorem inverses_stopsOnly (hunitary : ∀ part ∈ lowered, part.operation.isUnitary = true) :
    (sequence (lowered.reverse.map fun inst =>
      bind (inst.inverse.mapError .ofRefusal) fun inverse => done [inverse])).StopsOnly Q := by
  refine stopsOnly_sequence fun emission hemission => ?_
  obtain ⟨part, hpart, rfl⟩ := List.mem_map.1 hemission
  rw [(Instruction.inverse_eq_ok_iff (hunitary part (List.mem_reverse.1 hpart))).2 rfl]
  exact stopsOnly_done

variable {E : Exponent → Prop} {P : Operation → Prop} {free : List Nat} {inst : Instruction}
  {n : Nat} {w : Operation}

/-- Gates that are handed out for the targets can be controlled. -/
theorem controlEach_stopsOnly (hinst : inst.PlacedWith P free)
    (hop : inst.operation = .controlled n w) (hn : 0 < n) (hunitary : w.isUnitary = true)
    (hyields : ∀ part ∈ lowered, (w.on (inst.qubits.drop n)).Yields free part) :
    (sequence (lowered.map (controlInstruction (inst.qubits.take n)))).StopsOnly Q := by
  refine stopsOnly_sequence fun emission hemission => ?_
  obtain ⟨part, hmem, rfl⟩ := List.mem_map.1 hemission
  have hpart := hyields part hmem
  have hunitary := hpart.unitary hunitary
  have hpositive : 0 < (inst.qubits.take n).length := by
    rw [hinst.valid.length_take hop]
    exact hn
  rw [controlInstruction, Operation.control_eq_ok hpositive hunitary]
  refine stopsOnly_apply (by simpa using hunitary) ?_ ?_
  · rw [Operation.numQubits_addControls, List.length_append, hpart.valid.qubits_length]
    rfl
  · have hsplit := List.take_append_drop n inst.qubits
    have hdistinct := hinst.valid.qubits_nodup
    have hdisjoint := hinst.free_disjoint
    have hsubset := hpart.qubits_subset
    have hpartNodup := hpart.valid.qubits_nodup
    rw [Operation.qubits_on] at hsubset
    rw [← hsplit] at hdistinct hdisjoint
    grind

theorem lowerControlledLeaf_failsAtRepeats (hinst : inst.PlacedWith P free)
    (hop : inst.operation = .controlled n w) (hunitary : w.isUnitary = true) :
    (lowerControlledLeaf free inst (inst.qubits.take n) w (inst.qubits.drop n)).FailsAtRepeats
      free := by
  unfold lowerControlledLeaf
  split
  · exact stopsOnly_done
  · rename_i hleaf
    have hqubit : w.numQubits = 1 := by
      by_contra hne
      exact hleaf (Or.inl hne)
    obtain ⟨target, hdrop, hnodup, hdisjoint⟩ := hinst.split_controlled hop hqubit
    rw [hdrop, List.headD_cons]
    dsimp only
    split
    · exact (controlledX_stops hnodup hdisjoint).mono fun _ => Or.inr
    · exact (controlledRoot_stops hnodup hdisjoint hunitary hqubit).mono fun _ => Or.inr

/-- A power has what its calls have, if what is done has it and repeating and going on from
the whole of an emission keep it. -/
theorem lowerPowered_of_calls {R : Emission → Prop} {depth : Nat} {e : Exponent}
    (hdone : ∀ lowered, R (done lowered))
    (htimes : ∀ {emission} n, R emission → R (emission.times n))
    (hwhole : ∀ {emission next}, R emission →
      (∀ lowered, emission = done lowered → R (next lowered)) → R (emission.whole next))
    (hP : Operation.CallClosed E P) (hinst : inst.PlacedWith P free)
    (hcalls : ∀ other, Calls free inst other → R (lowerWithin free depth other))
    (hop : inst.operation = .powered e w) : R (lowerPowered (lowerWithin free depth) inst e w) := by
  have hw := hinst.wrapped hP (Or.inr hop)
  rw [lowerPowered_eq]
  split
  · exact hdone []
  · rename_i n hpositive hn
    obtain ⟨m, rfl⟩ := Nat.exists_eq_succ_of_ne_zero hpositive
    rw [lowerOn_eq hw.valid]
    exact htimes _ (hcalls _ (.times hop hn hw.valid))
  · rename_i hnone
    split
    · rename_i root hroot
      have hplaced := hinst.root hP hop hroot
      rw [lowerOn_eq hplaced.valid]
      exact hcalls _ (.root hop hnone hroot hplaced.valid)
    · rename_i hroot
      rw [lowerOn_eq hw.valid]
      refine hwhole (hcalls _ (.powered hop hnone hroot hw.valid)) fun lowered hlowered => ?_
      split
      · rename_i only
        split
        · exact hdone _
        · rename_i hchanged
          have hsub : Lowers free (w.on inst.qubits) [only] := ⟨depth, hlowered⟩
          obtain ⟨hpowered, hplaced⟩ := hinst.powerOf hP hop hsub
          rw [hpowered, Except.mapError, bind_ok, lowerOn_eq hplaced.valid]
          exact hcalls _ (.powerOf hop hnone hroot hw.valid hsub (by simpa using hchanged)
            hpowered hplaced.valid)
      · exact hdone _

end Parts

section Step

variable {E : Exponent → Prop} {P : Operation → Prop} {free : List Nat} {depth : Nat}
  {inst : Instruction} {w : Operation} (hP : Operation.CallClosed E P)
  (hinst : inst.PlacedWith P free)
  (hcalls : ∀ other, Calls free inst other → (lowerWithin free depth other).FailsAtRepeats free)

include hP hinst hcalls

theorem failsAtRepeats_lowerGate {g : Gate} (hop : inst.operation = .gate g) :
    (lowerGate (lowerWithin free depth) inst g).FailsAtRepeats free := by
  unfold lowerGate
  cases hsteps : g.expansionSteps inst.qubits with
  | none =>
      rw [expansion_eq_ok_iff.2 (Or.inl ⟨hsteps, rfl⟩), build_ok]
      exact stopsOnly_done
  | some steps =>
      have hvalid : ∀ step ∈ steps, (step.1.on step.2).Valid :=
        fun step hstep => (hinst.step hP hop hsteps hstep).valid
      rw [expansion_eq_ok_iff.2 (Or.inr ⟨steps, hsteps, hvalid, rfl⟩), build_ok]
      dsimp only
      rw [List.map_map]
      refine stopsOnly_sequence_map fun before step after hsplit hbefore => ?_
      subst hsplit
      refine hcalls _ (.step hop hsteps hvalid fun other hother => ?_)
      obtain ⟨lowered, hlowered⟩ := hbefore other hother
      exact ⟨lowered, depth, hlowered⟩

theorem failsAtRepeats_lowerInverted (hop : inst.operation = .inverted w) :
    (lowerInverted (lowerWithin free depth) w inst.qubits).FailsAtRepeats free := by
  have hw : (w.on inst.qubits).PlacedWith P free := hinst.wrapped (e := .half) hP (Or.inl hop)
  rw [lowerInverted, lowerOn_eq hw.valid]
  refine stopsOnly_whole (hcalls _ (.inverted hop hw.valid)) fun lowered hlowered => ?_
  have hyields := Lowers.yields ⟨depth, hlowered⟩ hw.valid
  exact inverses_stopsOnly fun part hpart => (hyields part hpart).unitary hw.unitary

theorem failsAtRepeats_lowerRepeated {n : Nat} (hop : inst.operation = .repeated n w)
    (hwidth : w.numQubits ≠ 0) :
    (lowerRepeated (lowerWithin free depth) w inst.qubits).FailsAtRepeats free := by
  rw [lowerRepeated, if_neg hwidth]
  refine stopsOnly_sequence_map fun before block after hblocks hbefore => ?_
  have hmem : block ∈ blocks w.numQubits inst.qubits inst.qubits.length := by simp [hblocks]
  have hw := hinst.block hP hop hwidth hmem
  rw [lowerOn_eq hw.valid]
  refine hcalls _ (.block hop hwidth hblocks hw.valid fun other hother => ?_)
  obtain ⟨lowered, hlowered⟩ := hbefore other hother
  obtain ⟨hvalid, hdone⟩ := lowerOn_eq_done_iff.1 hlowered
  exact ⟨hvalid, lowered, depth, hdone⟩

theorem failsAtRepeats_lowerPowered {e : Exponent} (hop : inst.operation = .powered e w) :
    (lowerPowered (lowerWithin free depth) inst e w).FailsAtRepeats free :=
  lowerPowered_of_calls (fun _ => stopsOnly_done) (fun n h => stopsOnly_times h n)
    stopsOnly_whole hP hinst hcalls hop

theorem failsAtRepeats_lowerControlled {n : Nat} (hop : inst.operation = .controlled n w)
    (hn : 0 < n) :
    (lowerControlled (lowerWithin free depth) free inst n w).FailsAtRepeats free := by
  have hw := hinst.targets hP hop
  unfold lowerControlled
  dsimp only
  split
  · exact stopsOnly_done
  · rename_i hmany
    rw [lowerOn_eq hw.valid]
    refine stopsOnly_whole (hcalls _ (.controlled hop hmany hw.valid)) fun lowered hlowered => ?_
    split
    · exact lowerControlledLeaf_failsAtRepeats hinst hop hw.unitary
    · exact controlEach_stopsOnly hinst hop hn hw.unitary
        (Lowers.yields ⟨depth, hlowered⟩ hw.valid)

/-- One level fails at repeated qubits only if every call does and copies are of something. -/
theorem failsAtRepeats_lowerStep
    (hcontrols : ∀ n w, inst.operation = .controlled n w → 0 < n)
    (hcopies : ∀ n w, inst.operation = .repeated n w → w.numQubits ≠ 0) :
    (lowerWithin free (depth + 1) inst).FailsAtRepeats free := by
  rw [lowerWithin]
  unfold lowerStep
  split
  · rename_i g hop
    exact failsAtRepeats_lowerGate hP hinst hcalls hop
  · rename_i w hop
    exact failsAtRepeats_lowerInverted hP hinst hcalls hop
  · rename_i n w hop
    exact failsAtRepeats_lowerRepeated hP hinst hcalls hop (hcopies n w hop)
  · rename_i e w hop
    exact failsAtRepeats_lowerPowered hP hinst hcalls hop
  · rename_i n w hop
    exact failsAtRepeats_lowerControlled hP hinst hcalls hop (hcontrols n w hop)
  · exact stopsOnly_done

end Step

section Run

variable {free : List Nat} {inst : Instruction}

/-- Lowering of a well-formed gate fails only if a qubit may be borrowed twice. -/
theorem failsAtRepeats_lowerWithin (hinst : inst.PlacedWith Operation.WellFormed free)
    (depth : Nat) : (lowerWithin free depth inst).FailsAtRepeats free := by
  have hP := Operation.modifierClosed_wellFormed.callClosed
  induction depth generalizing inst with
  | zero =>
      rintro stop ⟨⟩
      exact Or.inl rfl
  | succ depth ih =>
      refine failsAtRepeats_lowerStep hP hinst (fun other hother => ih (hinst.calls hP hother))
        (fun n w hop => ?_) fun n w hop => ?_
      · have hwhole := hinst.operation
        rw [hop] at hwhole
        exact hwhole.1
      · have hwhole := hinst.operation
        rw [hop] at hwhole
        exact (hwhole.2.2.numQubits_pos hwhole.2.1).ne'

end Run

/-- A valid gate that is well-formed, with qubits to borrow that it does not act on. -/
structure Instruction.Placed (free : List Nat) (inst : Instruction) : Prop where
  valid : inst.Valid
  unitary : inst.operation.isUnitary = true
  wellFormed : inst.operation.WellFormed
  free_nodup : free.Nodup
  free_disjoint : ∀ q ∈ free, q ∉ inst.qubits

section Placed

variable {free : List Nat} {inst : Instruction} {w : Operation}

theorem Instruction.Placed.placedWith (h : inst.Placed free) :
    inst.PlacedWith Operation.WellFormed free :=
  ⟨h.valid, h.unitary, h.wellFormed, h.free_disjoint⟩

theorem Instruction.PlacedWith.placed (h : inst.PlacedWith Operation.WellFormed free)
    (hnodup : free.Nodup) : inst.Placed free :=
  ⟨h.valid, h.unitary, h.operation, hnodup, h.free_disjoint⟩

namespace Instruction.Placed

open Operation (modifierClosed_wellFormed)

theorem step (h : inst.Placed free) {g : Gate} (hop : inst.operation = .gate g)
    {steps : List (Operation × List Nat)} (hsteps : g.expansionSteps inst.qubits = some steps)
    {step : Operation × List Nat} (hstep : step ∈ steps) : (step.1.on step.2).Placed free :=
  (h.placedWith.step modifierClosed_wellFormed.callClosed hop hsteps hstep).placed h.free_nodup

theorem wrapped (h : inst.Placed free) {e : Exponent}
    (hop : inst.operation = .inverted w ∨ inst.operation = .powered e w) :
    (w.on inst.qubits).Placed free :=
  (h.placedWith.wrapped modifierClosed_wellFormed.callClosed hop).placed h.free_nodup

theorem numQubits_pos (h : inst.Placed free) : 0 < inst.operation.numQubits :=
  h.wellFormed.numQubits_pos h.unitary

theorem block (h : inst.Placed free) {n : Nat} (hop : inst.operation = .repeated n w)
    {block : List Nat} (hblock : block ∈ blocks w.numQubits inst.qubits inst.qubits.length) :
    (w.on block).Placed free := by
  have hwhole := h.wellFormed
  rw [hop] at hwhole
  have hwidth : w.numQubits ≠ 0 := (hwhole.2.2.numQubits_pos hwhole.2.1).ne'
  exact (h.placedWith.block modifierClosed_wellFormed.callClosed hop hwidth hblock).placed
    h.free_nodup

theorem targets (h : inst.Placed free) {n : Nat} (hop : inst.operation = .controlled n w) :
    (w.on (inst.qubits.drop n)).Placed free :=
  (h.placedWith.targets modifierClosed_wellFormed.callClosed hop).placed h.free_nodup

theorem root (h : inst.Placed free) {e : Exponent} {root : Gate}
    (hop : inst.operation = .powered e w) (hroot : w.root? e = some root) :
    ((Operation.gate root).on inst.qubits).Placed free :=
  (h.placedWith.root modifierClosed_wellFormed.callClosed hop hroot).placed h.free_nodup

/-- The power of the only instruction that what is under the power is lowered to. -/
theorem powerOf (h : inst.Placed free) {e : Exponent} {only : Instruction}
    (hop : inst.operation = .powered e w) (hsub : Lowers free (w.on inst.qubits) [only]) :
    only.operation.power e = .ok (only.operation.raise e) ∧
      ((only.operation.raise e).on only.qubits).Placed free := by
  obtain ⟨hpowered, hplaced⟩ :=
    h.placedWith.powerOf modifierClosed_wellFormed.callClosed hop hsub
  exact ⟨hpowered, hplaced.placed h.free_nodup⟩

end Instruction.Placed

/-- Lowering of a well-formed gate never fails. -/
theorem lacksDepth_lowerWithin (hinst : inst.Placed free) (depth : Nat) :
    (lowerWithin free depth inst).LacksDepth :=
  (failsAtRepeats_lowerWithin hinst.placedWith depth).mono fun _ hstop =>
    hstop.resolve_right (Stop.not_repeatsIn hinst.free_nodup)

end Placed

end GateAlgebra
