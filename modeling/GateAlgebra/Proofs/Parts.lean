import GateAlgebra.Proofs.Lowers
import GateAlgebra.Proofs.Rungs
import GateAlgebra.Proofs.WellFormed
/-!
What the instructions that lowering hands out have from the one that is lowered: they are
valid, gates if it is one, and stay on its qubits and those that may be borrowed.
-/

namespace GateAlgebra

open Emission

/-- An instruction on qubits of another, or borrowed ones, that is a gate and well-formed if
the other is. -/
structure Instruction.Yields (free : List Nat) (inst part : Instruction) : Prop where
  valid : part.Valid
  qubits_subset : part.qubits ⊆ inst.qubits ++ free
  unitary : inst.operation.isUnitary = true → part.operation.isUnitary = true
  wellFormed : inst.operation.isUnitary = true → inst.operation.WellFormed →
    part.operation.WellFormed

section Operations

variable {op other : Operation}

theorem Operation.isUnitary_rootAt (op : Operation) (k : Nat) :
    (op.rootAt k).isUnitary = op.isUnitary := by
  induction k with
  | zero => rfl
  | succ k ih => rw [rootAt, isUnitary_raise, ih]

namespace Operation.CallClosed

variable {E : Exponent → Prop} {P : Operation → Prop} (hP : CallClosed E P)

include hP

theorem controlledGate {n : Nat} (hn : 0 < n) (g : Gate) : P (controlledGate n g) :=
  hP.addControls hn rfl (hP.gate g)

theorem step (h : IsStep op) : P op := by
  cases h with
  | gate g => exact hP.gate g
  | sdg => exact hP.invert rfl (hP.gate .s)
  | cx => exact hP.controlledGate Nat.one_pos .x

theorem rootAt (hop : P op) (hunitary : op.isUnitary = true) (k : Nat) : P (op.rootAt k) := by
  induction k with
  | zero => exact hop
  | succ k ih => exact hP.raise hP.half (by rw [isUnitary_rootAt, hunitary]) ih

theorem rung (h : IsRung op other) (hop : P op) (hunitary : op.isUnitary = true) :
    P other := by
  have hroot : ∀ k, (op.rootAt k).isUnitary = true := fun k => by
    rw [isUnitary_rootAt, hunitary]
  cases h with
  | toggle hmem =>
      simp only [List.mem_cons, List.not_mem_nil, or_false] at hmem
      rcases hmem with rfl | rfl | rfl
      · exact hP.gate .x
      · exact hP.controlledGate Nat.one_pos .x
      · exact hP.controlledGate Nat.two_pos .x
  | root k => exact hP.addControls Nat.one_pos (hroot k) (hP.rootAt hop hunitary k)
  | unroot k =>
      refine hP.addControls Nat.one_pos ?_ (hP.invert (hroot k) (hP.rootAt hop hunitary k))
      rw [isUnitary_invert, hroot k]

end Operation.CallClosed

theorem IsStep.isUnitary (h : IsStep op) : op.isUnitary = true :=
  Operation.modifierClosed_isUnitary.callClosed.step h

theorem IsStep.wellFormed (h : IsStep op) : op.WellFormed :=
  Operation.modifierClosed_wellFormed.callClosed.step h

theorem IsRung.isUnitary (h : IsRung op other) (hop : op.isUnitary = true) :
    other.isUnitary = true :=
  Operation.modifierClosed_isUnitary.callClosed.rung h hop hop

theorem IsRung.wellFormed (h : IsRung op other) (hop : op.WellFormed)
    (hunitary : op.isUnitary = true) : other.WellFormed :=
  Operation.modifierClosed_wellFormed.callClosed.rung h hop hunitary

end Operations

section Inversion

variable {controls : List Nat} {inst part : Instruction}

theorem controlInstruction_cases (h : controlInstruction controls part = .done [inst]) :
    0 < controls.length ∧ part.operation.isUnitary = true ∧ inst.Valid ∧
      inst = (part.operation.addControls controls.length).on (controls ++ part.qubits) := by
  obtain ⟨controlled, hcontrolled, happly⟩ := bind_eq_done_iff.1 h
  obtain ⟨hn, hunitary, rfl⟩ :=
    Operation.control_eq_ok_iff.1 (mapError_eq_ok_iff.1 hcontrolled)
  obtain ⟨hsingle, hvalid⟩ := apply_eq_done_iff.1 happly
  obtain rfl := List.singleton_inj.1 hsingle
  exact ⟨hn, hunitary, hvalid, rfl⟩

/-- The inverse of a barrier is itself, and any other is that of a gate. -/
theorem inverse_unitary_cases (h : part.inverse = .ok inst) :
    inst = part ∨ part.operation.isUnitary = true ∧
      inst = { part with operation := part.operation.invert } := by
  by_cases hunitary : part.operation.isUnitary = true
  · exact Or.inr ⟨hunitary, (Instruction.inverse_eq_ok_iff hunitary).1 h⟩
  · by_cases hbarrier : part.operation.isBarrier = true
    · left
      simpa [Instruction.inverse, Operation.inverse, hbarrier, eq_comm] using h
    · simp [Instruction.inverse, Operation.inverse, hbarrier, hunitary] at h

theorem Instruction.Valid.invert (hvalid : part.Valid)
    (hunitary : part.operation.isUnitary = true) :
    ({ part with operation := part.operation.invert } : Instruction).Valid := by
  refine ⟨?_, ?_, ?_, ?_, hvalid.qubits_nodup, hvalid.bits_nodup, hvalid.zvars_nodup⟩
  · intro o ho
    have hinvert : part.operation.invert.isUnitary = true := by simp [hunitary]
    dsimp only at ho
    rw [ho] at hinvert
    cases hinvert
  · simpa using hvalid.qubits_length
  · simpa using hvalid.bits_length
  · simpa using hvalid.zvars_length

end Inversion

namespace Instruction.Yields

variable {free : List Nat} {inst other part : Instruction}

theorem refl (hvalid : inst.Valid) : inst.Yields free inst :=
  ⟨hvalid, List.subset_append_left _ _, id, fun _ => id⟩

theorem trans (h : inst.Yields free other) (hpart : other.Yields free part) :
    inst.Yields free part := by
  refine ⟨hpart.valid, ?_, fun hunitary => hpart.unitary (h.unitary hunitary),
    fun hunitary hop => hpart.wellFormed (h.unitary hunitary) (h.wellFormed hunitary hop)⟩
  have hother := h.qubits_subset
  have hsubset := hpart.qubits_subset
  grind

theorem inverse (h : inst.Yields free other) (hinverse : other.inverse = .ok part) :
    inst.Yields free part := by
  rcases inverse_unitary_cases hinverse with rfl | ⟨hunitary, rfl⟩
  · exact h
  · refine ⟨h.valid.invert hunitary, h.qubits_subset, ?_, ?_⟩
    · exact fun _ => by simpa using hunitary
    · exact fun hinst hop => (h.wellFormed hinst hop).invert hunitary

theorem wrapped {w : Operation} {e : Exponent}
    (hop : inst.operation = .inverted w ∨ inst.operation = .powered e w)
    (hvalid : (w.on inst.qubits).Valid) : inst.Yields free (w.on inst.qubits) := by
  refine ⟨hvalid, List.subset_append_left _ _, ?_, ?_⟩
  · rcases hop with hop | hop <;> rw [hop] <;> exact id
  · rcases hop with hop | hop <;> rw [hop] <;> exact fun _ h => h.2

theorem step {g : Gate} {steps : List (Operation × List Nat)} {step : Operation × List Nat}
    (hinst : inst.Valid) (hop : inst.operation = .gate g)
    (hsteps : g.expansionSteps inst.qubits = some steps) (hstep : step ∈ steps)
    (hvalid : (step.1.on step.2).Valid) : inst.Yields free (step.1.on step.2) := by
  have hlength : inst.qubits.length = g.numQubits := by
    rw [hinst.qubits_length, hop]
    rfl
  have hsubset := subset_of_expansionSteps hlength hsteps step hstep
  have hkind := ((isStep_of_expansionSteps hsteps).2 step hstep).1
  exact ⟨hvalid, List.subset_append_of_subset_left _ hsubset, fun _ => hkind.isUnitary,
    fun _ _ => hkind.wellFormed⟩

theorem block {n width count : Nat} {w : Operation} {block : List Nat}
    (hop : inst.operation = .repeated n w) (hblock : block ∈ blocks width inst.qubits count)
    (hvalid : (w.on block).Valid) : inst.Yields free (w.on block) := by
  refine ⟨hvalid, List.subset_append_of_subset_left _ (subset_of_mem_blocks hblock), ?_, ?_⟩
  · rw [hop]
    exact id
  · rw [hop]
    exact fun _ h => h.2.2

theorem gate {root : Gate} (hvalid : ((Operation.gate root).on inst.qubits).Valid) :
    inst.Yields free ((Operation.gate root).on inst.qubits) :=
  ⟨hvalid, List.subset_append_left _ _, fun _ => rfl, fun _ _ => trivial⟩

theorem power {e : Exponent} {powered : Operation} (h : inst.Yields free part)
    (hpowered : part.operation.power e = .ok powered)
    (hvalid : (powered.on part.qubits).Valid) : inst.Yields free (powered.on part.qubits) := by
  obtain ⟨hunitary, rfl⟩ := Operation.power_eq_ok_iff.1 hpowered
  refine ⟨hvalid, h.qubits_subset, fun _ => by simpa using hunitary, ?_⟩
  exact fun hinst hop => (h.wellFormed hinst hop).raise hunitary e

theorem control {n : Nat} {w : Operation} (hop : inst.operation = .controlled n w)
    (h : (w.on (inst.qubits.drop n)).Yields free part)
    (hcontrol : controlInstruction (inst.qubits.take n) part = .done [other]) :
    inst.Yields free other := by
  obtain ⟨hcontrols, hunitary, hvalid, rfl⟩ := controlInstruction_cases hcontrol
  refine ⟨hvalid, ?_, fun _ => by simpa using hunitary, ?_⟩
  · have hpart := h.qubits_subset
    have htake := List.take_subset n inst.qubits
    have hdrop := List.drop_subset n inst.qubits
    rw [Operation.qubits_on] at hpart ⊢
    grind
  · rw [hop]
    intro hw hwhole
    exact (h.wellFormed hw hwhole.2.2).addControls hunitary hcontrols

/-- A rung of a controlled operation on one qubit. -/
theorem rung {n : Nat} {w : Operation} {target : Nat}
    (hop : inst.operation = .controlled n w) (htarget : target ∈ inst.qubits)
    (h : part.IsRungOn w (inst.qubits.take n ++ target :: free)) : inst.Yields free part := by
  have hunitary : inst.operation.isUnitary = true → w.isUnitary = true := by
    rw [hop]
    exact id
  refine ⟨h.valid, ?_, fun hinst => h.rung.isUnitary (hunitary hinst), ?_⟩
  · have hsubset := h.qubits_subset
    have htake := List.take_subset n inst.qubits
    grind
  · rw [hop]
    exact fun _ hwhole => h.rung.wellFormed hwhole.2.2 hwhole.2.1

end Instruction.Yields

section Step

variable {free : List Nat} {inst : Instruction} {emitted : List Instruction}

/-- What becomes of X under controls. -/
theorem rungs_controlledX {n : Nat} (hinst : inst.Valid)
    (hop : inst.operation = .controlled n (.gate .x))
    (h : controlledX (inst.qubits.take n) ((inst.qubits.drop n).headD 0) free =
      .done emitted) :
    ∃ target ∈ inst.qubits, ∀ part ∈ emitted,
      part.IsRungOn (.gate .x) (inst.qubits.take n ++ target :: free) := by
  obtain ⟨target, htarget, hdrop⟩ := hinst.drop_eq_singleton hop rfl
  rw [hdrop, List.headD_cons] at h
  have hparts := controlledX_handsOut (List.Subset.refl (inst.qubits.take n ++ target :: free))
  rw [h] at hparts
  exact ⟨target, htarget, hparts⟩

/-- What becomes of another operation on one qubit.  Without a control it stays as it is. -/
theorem rungs_controlledRoot {n : Nat} {w : Operation} (hinst : inst.Valid)
    (hop : inst.operation = .controlled n w) (hqubit : w.numQubits = 1)
    (h : controlledRoot w (inst.qubits.take n) ((inst.qubits.drop n).headD 0) free =
      .done emitted) :
    ∃ target ∈ inst.qubits, n = 0 ∧ emitted = [w.on [target]] ∧ (w.on [target]).Valid ∨
      0 < n ∧ ∀ part ∈ emitted,
        part.IsRungOn w (inst.qubits.take n ++ target :: free) := by
  obtain ⟨target, htarget, hdrop⟩ := hinst.drop_eq_singleton hop hqubit
  rw [hdrop, List.headD_cons] at h
  refine ⟨target, htarget, ?_⟩
  rcases Nat.eq_zero_or_pos n with rfl | hn
  · obtain ⟨rfl, hvalid⟩ := apply_eq_done_iff.1 h
    exact Or.inl ⟨rfl, rfl, hvalid⟩
  · right
    have hsome : inst.qubits.take n ≠ [] := by
      rw [← List.length_pos_iff, hinst.length_take hop]
      exact hn
    have hparts : (controlledRoot w (inst.qubits.take n) target free).HandsOut
        (Instruction.IsRungOn w (inst.qubits.take n ++ target :: free)) :=
      controlledRoot_handsOut hsome (List.Subset.refl _)
    rw [h] at hparts
    exact ⟨hn, hparts⟩

theorem yields_controlledX {n : Nat} (hinst : inst.Valid)
    (hop : inst.operation = .controlled n (.gate .x))
    (h : controlledX (inst.qubits.take n) ((inst.qubits.drop n).headD 0) free =
      .done emitted) : ∀ part ∈ emitted, inst.Yields free part := by
  obtain ⟨target, htarget, hparts⟩ := rungs_controlledX hinst hop h
  exact fun part hpart => .rung hop htarget (hparts part hpart)

theorem yields_controlledRoot {n : Nat} {w : Operation} (hinst : inst.Valid)
    (hop : inst.operation = .controlled n w) (hqubit : w.numQubits = 1)
    (h : controlledRoot w (inst.qubits.take n) ((inst.qubits.drop n).headD 0) free =
      .done emitted) : ∀ part ∈ emitted, inst.Yields free part := by
  obtain ⟨target, htarget, ⟨-, rfl, hvalid⟩ | ⟨-, hparts⟩⟩ :=
    rungs_controlledRoot hinst hop hqubit h
  · refine List.forall_mem_singleton.2 ⟨hvalid, ?_, ?_, ?_⟩
    · simpa using Or.inl htarget
    · rw [hop]
      exact id
    · rw [hop]
      exact fun _ hwhole => hwhole.2.2
  · exact fun part hpart => .rung hop htarget (hparts part hpart)

/-- One level of lowering. -/
theorem yields_of_lowerStep {Sub : Instruction → List Instruction → Prop}
    (ih : ∀ part list, Sub part list → part.Valid → ∀ last ∈ list, part.Yields free last)
    (hinst : inst.Valid) (h : LowerStep Sub free inst emitted) :
    ∀ part ∈ emitted, inst.Yields free part := by
  cases h with
  | keep => exact List.forall_mem_singleton.2 (.refl hinst)
  | expand hop hsteps hlists =>
      refine forall_mem_flatten hlists fun step hstep list hlist part hpart => ?_
      exact (Instruction.Yields.step hinst hop hsteps hstep hlist.1).trans
        (ih _ _ hlist.2 hlist.1 part hpart)
  | invert hop hvalid hsub hinverses =>
      refine forall_mem_of_forall₂ hinverses fun part hpart inverse hinverse => ?_
      have hyields := ih _ _ hsub hvalid part (List.mem_reverse.1 hpart)
      exact ((Instruction.Yields.wrapped (e := .ofNat 1) (Or.inl hop) hvalid).trans
        hyields).inverse hinverse
  | blocks hop hwidth hlists =>
      refine forall_mem_flatten hlists fun block hblock list hlist part hpart => ?_
      exact (Instruction.Yields.block hop hblock hlist.1).trans
        (ih _ _ hlist.2 hlist.1 part hpart)
  | zeroth => simp
  | times hop hn hvalid hsub =>
      intro part hpart
      obtain ⟨list, hlist, hmem⟩ := List.mem_flatten.1 hpart
      rw [List.eq_of_mem_replicate hlist] at hmem
      exact (Instruction.Yields.wrapped (Or.inr hop) hvalid).trans (ih _ _ hsub hvalid part hmem)
  | root hop hroot hvalid hsub =>
      exact fun part hpart => (Instruction.Yields.gate hvalid).trans
        (ih _ _ hsub hvalid part hpart)
  | powerOf hop hvalid hsub hpowered hvalid' hsub' =>
      intro part hpart
      have honly := (Instruction.Yields.wrapped (Or.inr hop) hvalid).trans
        (ih _ _ hsub hvalid _ List.mem_cons_self)
      exact (honly.power hpowered hvalid').trans (ih _ _ hsub' hvalid' part hpart)
  | controlX hn hop hemitted => exact yields_controlledX hinst hop hemitted
  | controlRoot hn hop hqubit hvalid hsub hsame hemitted =>
      exact yields_controlledRoot hinst hop hqubit hemitted
  | controlEach hop hvalid hsub hcontrolled =>
      refine forall_mem_of_forall₂ hcontrolled fun part hpart other hother => ?_
      exact .control hop (ih _ _ hsub hvalid part hpart) hother

end Step

/-- Everything that an instruction is lowered to. -/
theorem Lowers.yields {free : List Nat} {inst : Instruction} {emitted : List Instruction}
    (h : Lowers free inst emitted) (hinst : inst.Valid) :
    ∀ part ∈ emitted, inst.Yields free part := by
  refine Lowers.induction (P := fun inst emitted => inst.Valid →
    ∀ part ∈ emitted, inst.Yields free part) (fun inst emitted hstep hinst => ?_) h hinst
  exact yields_of_lowerStep (fun part list hlist => hlist.2.2) hinst hstep

end GateAlgebra
