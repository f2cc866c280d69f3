import GateAlgebra.Proofs.LowerSingle
/-!
What multi-controlled gates are made of.  Whatever qubits are borrowed, and even if an
emission ends in a failure, all that it hands out are X gates with at most two controls and
roots under one control.
-/

namespace GateAlgebra

namespace Emission

/-- Every instruction that is handed out has a property, also those before a stop. -/
def HandsOut (P : Instruction → Prop) (emission : Emission) : Prop :=
  ∀ inst ∈ emission.emitted, P inst

section HandsOut

variable {P Q : Instruction → Prop} {first second emission : Emission}

theorem HandsOut.mono (hPQ : ∀ inst, P inst → Q inst) (h : emission.HandsOut P) :
    emission.HandsOut Q :=
  fun inst hinst => hPQ inst (h inst hinst)

theorem handsOut_failure (error : LoweringError) : (failure error).HandsOut P := by
  simp [HandsOut, failure]

theorem handsOut_done_nil : (done []).HandsOut P := by
  simp [HandsOut, done]

theorem handsOut_done_singleton {inst : Instruction} (h : P inst) : (done [inst]).HandsOut P :=
  List.forall_mem_singleton.2 h

theorem handsOut_andThen (hfirst : first.HandsOut P) (hsecond : second.HandsOut P) :
    (first.andThen second).HandsOut P := by
  obtain ⟨emitted, stop⟩ := first
  cases stop with
  | some stop => exact hfirst
  | none => exact List.forall_mem_append.2 ⟨hfirst, hsecond⟩

theorem handsOut_sequence {emissions : List Emission}
    (h : ∀ emission ∈ emissions, emission.HandsOut P) : (sequence emissions).HandsOut P := by
  induction emissions with
  | nil => exact handsOut_done_nil
  | cons emission emissions ih =>
      obtain ⟨hhead, htail⟩ := List.forall_mem_cons.1 h
      rw [sequence_cons]
      exact handsOut_andThen hhead (ih htail)

theorem handsOut_times (h : emission.HandsOut P) (n : Nat) : (emission.times n).HandsOut P := by
  induction n with
  | zero => exact handsOut_done_nil
  | succ n ih =>
      rw [times_succ]
      exact handsOut_andThen h ih

theorem handsOut_bind {α : Type} {value : Except LoweringError α} {next : α → Emission}
    (h : ∀ a, value = .ok a → (next a).HandsOut P) : (bind value next).HandsOut P := by
  cases value with
  | ok a => exact h a rfl
  | error error => exact handsOut_failure error

theorem handsOut_build {α : Type} {value : Except CircuitError α} {next : α → Emission}
    (h : ∀ a, value = .ok a → (next a).HandsOut P) : (build value next).HandsOut P :=
  handsOut_bind fun a ha => h a (mapError_eq_ok_iff.1 ha)

/-- What goes on has all instructions at once, so none are handed out before. -/
theorem handsOut_whole {next : List Instruction → Emission} (h : emission.HandsOut Q)
    (hnext : ∀ lowered, (∀ inst ∈ lowered, Q inst) → (next lowered).HandsOut P) :
    (emission.whole next).HandsOut P := by
  obtain ⟨emitted, stop⟩ := emission
  cases stop with
  | none => exact hnext emitted h
  | some stop => exact List.forall_mem_nil P

theorem handsOut_apply {op : Operation} {qubits : List Nat}
    (h : (op.on qubits).Valid → P (op.on qubits)) : (apply op qubits).HandsOut P := by
  refine handsOut_build fun inst hinst => ?_
  obtain ⟨rfl, hvalid⟩ := Instruction.onQubits_eq_ok_iff.1 hinst
  exact handsOut_done_singleton (h hvalid)

end HandsOut

end Emission

open Emission

section Toggles

variable {support : List Nat}

theorem apply_handsOut {op : Operation} {qubits : List Nat}
    (hop : op ∈ [Operation.gate .x, .cx, .ccx]) (hsub : qubits ⊆ support) :
    (apply op qubits).HandsOut (Instruction.IsToggle support) :=
  handsOut_apply fun hvalid => ⟨hop, hvalid, hsub⟩

theorem toffoliLadder_handsOut {controls borrowed : List Nat} {target : Nat}
    (hsub : controls ++ target :: borrowed ⊆ support) :
    (toffoliLadder controls target borrowed).HandsOut (Instruction.IsToggle support) := by
  unfold toffoliLadder
  split
  · rename_i first second controls carry borrowed
    have hrungs : ∀ rung ∈ ladderRungs carry controls (borrowed ++ [target]),
        rung.HandsOut (Instruction.IsToggle support) := by
      intro rung hrung
      rw [ladderRungs_eq_map] at hrung
      obtain ⟨triple, htriple, rfl⟩ := List.mem_map.1 hrung
      obtain ⟨hcontrol, hcarry, htarget⟩ := mem_rungs htriple
      exact apply_handsOut (by simp) (by grind)
    refine handsOut_times (handsOut_sequence fun rung hrung => ?_) 2
    rcases List.mem_append.1 hrung with hdown | hup
    · exact hrungs rung (List.mem_reverse.1 hdown)
    · rcases List.mem_cons.1 hup with rfl | hup
      · exact apply_handsOut (by simp) (by grind)
      · exact hrungs rung (List.dropLast_subset _ hup)
  · exact handsOut_done_nil

theorem directX_handsOut {controls free : List Nat} {target : Nat}
    (hsub : controls ++ target :: free ⊆ support) :
    (directX controls target free).HandsOut (Instruction.IsToggle support) := by
  unfold directX
  split
  · exact apply_handsOut (by simp) (by grind)
  · exact apply_handsOut (by simp) (by grind)
  · exact apply_handsOut (by simp) (by grind)
  · refine toffoliLadder_handsOut ?_
    have htake := List.take_subset (controls.length - 2) free
    grind

theorem halvedX_handsOut {controls rest : List Nat} {target borrowed : Nat}
    (hsub : controls ++ target :: borrowed :: rest ⊆ support) :
    (halvedX controls target borrowed rest).HandsOut (Instruction.IsToggle support) := by
  have htake := List.take_subset ((controls.length + 2 + rest.length) / 2) controls
  have hdrop := List.drop_subset ((controls.length + 2 + rest.length) / 2) controls
  refine handsOut_times (handsOut_andThen ?_ ?_) 2
  · exact directX_handsOut (by grind)
  · exact directX_handsOut (by grind)

theorem borrowingX_handsOut {controls rest : List Nat} {target borrowed : Nat}
    (hsub : controls ++ target :: borrowed :: rest ⊆ support) :
    (borrowingX controls target borrowed rest).HandsOut (Instruction.IsToggle support) := by
  unfold borrowingX
  split
  · exact directX_handsOut hsub
  · exact halvedX_handsOut hsub

end Toggles

section Roots

/-- What square roots under controls are made of: X with at most two controls, and an
iterated root or its inverse under one. -/
inductive IsRung (op : Operation) : Operation → Prop where
  | toggle {rung : Operation} (h : rung ∈ [Operation.gate .x, .cx, .ccx]) : IsRung op rung
  | root (k : Nat) : IsRung op ((op.rootAt k).addControls 1)
  | unroot (k : Nat) : IsRung op ((op.rootAt k).invert.addControls 1)

theorem IsRung.of_raise {op rung : Operation} (h : IsRung (op.raise .half) rung) :
    IsRung op rung := by
  cases h with
  | toggle h => exact .toggle h
  | root k =>
      rw [Operation.rootAt_raise]
      exact .root (k + 1)
  | unroot k =>
      rw [Operation.rootAt_raise]
      exact .unroot (k + 1)

/-- A valid rung on qubits of a list. -/
structure Instruction.IsRungOn (op : Operation) (support : List Nat) (inst : Instruction) :
    Prop where
  rung : IsRung op inst.operation
  valid : inst.Valid
  on_qubits : inst = inst.operation.on inst.qubits
  qubits_subset : inst.qubits ⊆ support

theorem handsOut_controlled {op rung : Operation} {control target : Nat} {support : List Nat}
    (hrung : IsRung op (rung.addControls 1)) (hsub : [control, target] ⊆ support) :
    (build (rung.control 1) fun controlled => apply controlled [control, target]).HandsOut
      (Instruction.IsRungOn op support) := by
  refine handsOut_build fun controlled hcontrolled => handsOut_apply fun hvalid => ?_
  obtain ⟨-, -, rfl⟩ := Operation.control_eq_ok_iff.1 hcontrolled
  exact ⟨hrung, hvalid, rfl, hsub⟩

theorem Instruction.IsToggle.isRungOn (op : Operation) {support : List Nat} {inst : Instruction}
    (h : inst.IsToggle support) : inst.IsRungOn op support := by
  have harity : inst.operation.arity.bits = 0 ∧ inst.operation.arity.zvars = 0 := by
    have hmem := h.operation_mem
    simp only [List.mem_cons, List.not_mem_nil, or_false] at hmem
    rcases hmem with heq | heq | heq <;> rw [heq] <;> exact ⟨rfl, rfl⟩
  exact ⟨.toggle h.operation_mem, h.valid, h.valid.eq_on rfl harity.1 harity.2,
    h.qubits_subset⟩

theorem rootLadder_handsOut {op : Operation} {controls free support : List Nat} {target : Nat}
    (hcontrols : controls ≠ []) (hsub : controls ++ target :: free ⊆ support) :
    (rootLadder op controls target free).HandsOut (Instruction.IsRungOn op support) := by
  induction controls generalizing op free with
  | nil => exact absurd rfl hcontrols
  | cons last rest ih =>
      cases hrest : rest with
      | nil => exact handsOut_controlled (.root 0) (by grind)
      | cons second others =>
          subst hrest
          refine handsOut_build fun root hroot => handsOut_build fun unroot hunroot => ?_
          obtain ⟨hunitary, rfl⟩ := Operation.power_eq_ok_iff.1 hroot
          have hflip : (borrowingX (second :: others).reverse last target free).HandsOut
              (Instruction.IsRungOn op support) :=
            (borrowingX_handsOut (by grind)).mono fun inst => Instruction.IsToggle.isRungOn op
          have hunitary' : (op.raise .half).isUnitary = true := by simp [hunitary]
          obtain rfl : (op.raise .half).invert = unroot :=
            Except.ok.inj ((Operation.inverse_eq_ok hunitary').symm.trans hunroot)
          refine handsOut_sequence ?_
          simp only [List.forall_mem_cons, List.not_mem_nil, false_imp_iff, implies_true,
            and_true]
          refine ⟨handsOut_controlled (.root 1) (by grind), hflip,
            handsOut_controlled (.unroot 1) (by grind), hflip, ?_⟩
          refine HandsOut.mono (fun inst hinst => ?_)
            (ih (List.cons_ne_nil second others) (by grind))
          exact ⟨hinst.rung.of_raise, hinst.valid, hinst.on_qubits, hinst.qubits_subset⟩

theorem controlledRoot_handsOut {op : Operation} {controls free support : List Nat}
    {target : Nat} (hcontrols : controls ≠ []) (hsub : controls ++ target :: free ⊆ support) :
    (controlledRoot op controls target free).HandsOut (Instruction.IsRungOn op support) :=
  rootLadder_handsOut (by simpa using hcontrols) (by grind)

theorem controlledX_handsOut {controls free support : List Nat} {target : Nat}
    (hsub : controls ++ target :: free ⊆ support) :
    (controlledX controls target free).HandsOut
      (Instruction.IsRungOn (.gate .x) support) := by
  unfold controlledX
  split
  · exact (directX_handsOut hsub).mono fun inst => Instruction.IsToggle.isRungOn (.gate .x)
  · rename_i hmany
    split
    · exact (halvedX_handsOut hsub).mono fun inst => Instruction.IsToggle.isRungOn (.gate .x)
    · refine controlledRoot_handsOut ?_ hsub
      rintro rfl
      exact hmany (Nat.zero_le _)

end Roots

end GateAlgebra
