import GateAlgebra.Proofs.Alike
import GateAlgebra.Proofs.Comparable
/-!
Operations that lowering leaves as they are, and how the modifiers act on them.  Whether one is
settled does not depend on where it acts.
-/

namespace GateAlgebra

open Emission

/-- Lowering leaves the operation as it is. -/
def Operation.Settled (op : Operation) : Prop :=
  ∃ free qubits, (op.on qubits).Valid ∧ Lowers free (op.on qubits) [op.on qubits]

section Places

variable {free qubits : List Nat} {op w : Operation} {n : Nat}

theorem Instruction.Valid.eq_on_qubits {inst : Instruction} (hvalid : inst.Valid)
    (hunitary : inst.operation.isUnitary = true) : inst = inst.operation.on inst.qubits := by
  have harity := Operation.arity_of_isUnitary hunitary
  refine hvalid.eq_on rfl ?_ ?_
  · rw [harity]
    rfl
  · rw [harity]
    rfl

theorem settled_of_lowers {inst : Instruction} (hvalid : inst.Valid)
    (hunitary : inst.operation.isUnitary = true) (h : Lowers free inst [inst]) :
    inst.operation.Settled := by
  have hinst := hvalid.eq_on_qubits hunitary
  rw [hinst] at hvalid h
  exact ⟨free, inst.qubits, hvalid, h⟩

/-- Wherever lowering of a settled operation comes to an end, it has changed nothing. -/
theorem Operation.Settled.eq_singleton (h : op.Settled) {lowered : List Instruction}
    (hvalid : (op.on qubits).Valid) (hlowers : Lowers free (op.on qubits) lowered) :
    lowered = [op.on qubits] := by
  obtain ⟨free', qubits', hvalid', hstable⟩ := h
  exact Lowers.stable_elsewhere hvalid' hstable hvalid hlowers

/-- There is room for controls in front of any list of qubits. -/
theorem exists_valid_controlled (hunitary : w.isUnitary = true) (hvalid : (w.on qubits).Valid)
    (n : Nat) : ∃ controls : List Nat, controls.length = n ∧
      ((Operation.controlled n w).on (controls ++ qubits)).Valid := by
  have hfresh : ∀ q ∈ qubits, q < qubits.sum + 1 :=
    fun q hq => Nat.lt_succ_of_le (List.le_sum_of_mem hq)
  refine ⟨List.range' (qubits.sum + 1) n, List.length_range', ?_⟩
  have hlength : qubits.length = w.numQubits := hvalid.qubits_length
  refine Instruction.valid_of_isUnitary hunitary ?_ ?_
  · rw [List.length_append, List.length_range', hlength]
    rfl
  · refine List.nodup_append.2 ⟨List.nodup_range', hvalid.qubits_nodup, ?_⟩
    rintro control hcontrol q hq rfl
    have hlow := (List.mem_range'_1.1 hcontrol).1
    have hhigh := hfresh control hq
    omega

end Places

section Modifiers

variable {free qubits : List Nat} {op w : Operation} {n : Nat}

/-- One control on one qubit. -/
theorem settled_single (hunitary : w.isUnitary = true) (hqubit : w.numQubits = 1) :
    (Operation.controlled 1 w).Settled := by
  have hvalid : ((Operation.controlled 1 w).on [0, 1]).Valid := by
    refine Instruction.valid_of_isUnitary hunitary ?_ (by decide)
    change 2 = 1 + w.numQubits
    rw [hqubit]
  exact ⟨[], [0, 1], hvalid, lowers_single hqubit hvalid⟩

/-- Controls on something settled that acts on several qubits. -/
theorem Operation.Settled.controlled (h : w.Settled) (hunitary : w.isUnitary = true)
    (hmany : w.numQubits ≠ 1) (hself : (w == w) = true) (n : Nat) :
    (Operation.controlled n w).Settled := by
  obtain ⟨free, qubits, hvalidW, hlowers⟩ := h
  obtain ⟨controls, hcount, hvalid⟩ := exists_valid_controlled hunitary hvalidW n
  have hdrop : (controls ++ qubits).drop n = qubits := List.drop_left' hcount
  have hkept : Kept (Lowers free) ((Operation.controlled n w).on (controls ++ qubits)) := by
    have hsame : isUnchanged [w.on qubits] w qubits = true := by rw [isUnchanged_on, hself]
    rw [← hdrop] at hvalidW hlowers hsame
    exact .controlled rfl (fun hone => hmany hone.1) hvalidW hlowers hsame (Or.inl hmany)
  exact ⟨free, controls ++ qubits, hvalid,
    LowerStep.lowers hvalid (.keep (by simp [Operation.kind]) (by simp [Operation.kind]) hkept)⟩

/-- The inverse of something settled, unless the inverse is taken inside or cancels. -/
theorem Operation.Settled.inverted (h : w.Settled) (hunitary : w.isUnitary = true)
    (hinvert : w.invert = .inverted w) : (Operation.inverted w).Settled := by
  obtain ⟨free, qubits, hvalid, hlowers⟩ := h
  have hinverse : (w.on qubits).inverse = .ok ((Operation.inverted w).on qubits) :=
    (Instruction.inverse_eq_ok_iff hunitary).2 (by rw [Operation.operation_on, hinvert]; rfl)
  have hvalid' : ((Operation.inverted w).on qubits).Valid :=
    Instruction.valid_of_isUnitary hunitary hvalid.qubits_length hvalid.qubits_nodup
  exact ⟨free, qubits, hvalid', hlowers.inverted hvalid hinverse⟩

end Modifiers

section Inverses

variable {op w : Operation} {n : Nat}

/-- X that is taken back under two controls, and controls in front of it.  What is left of
something settled by an inverse, if it is not settled. -/
inductive Operation.Tower : Operation → Prop where
  | base : Tower (.controlled 2 (.inverted (.gate .x)))
  | step (n : Nat) {w : Operation} (h : w.Tower) : Tower (.controlled n w)

namespace Operation.Tower

theorem isUnitary (h : op.Tower) : op.isUnitary = true := by
  induction h with
  | base => rfl
  | step n h ih => exact ih

theorem beq_self (h : op.Tower) : (op == op) = true := by
  induction h with
  | base => rfl
  | @step n w h ih => rw [controlled_beq, beq_self_eq_true, ih, Bool.and_self]

theorem two_lt_numQubits (h : op.Tower) : 2 < op.numQubits := by
  induction h with
  | base => decide
  | @step n w h ih => exact Nat.lt_of_lt_of_le ih (Nat.le_add_left _ n)

end Operation.Tower

theorem settled_gate {g : Gate} {qubits : List Nat} (hvalid : ((Operation.gate g).on qubits).Valid)
    (h : g.expansionSteps qubits = none) : (Operation.gate g).Settled :=
  ⟨[], qubits, hvalid, lowers_gate (expansion_eq_ok_iff.2 (Or.inl ⟨h, rfl⟩))⟩

theorem settled_x : (Operation.gate .x).Settled := by
  have hvalid : ((Operation.gate .x).on [0]).Valid :=
    Instruction.valid_of_isUnitary rfl rfl (List.nodup_singleton 0)
  exact settled_gate hvalid rfl

theorem settled_ccx : Operation.ccx.Settled := by
  have hvalid : (Operation.ccx.on [0, 1, 2]).Valid :=
    Instruction.valid_of_isUnitary rfl rfl (by decide)
  have hx : ((Operation.gate .x).on [2]).Valid :=
    Instruction.valid_of_isUnitary rfl rfl (List.nodup_singleton 2)
  have hemitted : controlledX [0, 1] 2 [] = .done [Operation.ccx.on [0, 1, 2]] :=
    apply_eq_done rfl rfl (by decide)
  have hlowers : Lowers [] ((Operation.gate .x).on [2]) [(Operation.gate .x).on [2]] :=
    lowers_gate rfl
  exact ⟨[], [0, 1, 2], hvalid,
    LowerStep.lowers hvalid (.controlX (by decide) rfl hemitted hx hlowers rfl)⟩

/-- What is under an inverse that is settled. -/
theorem Operation.Settled.of_inverted (h : (Operation.inverted w).Settled) : w.Settled := by
  obtain ⟨free, qubits, hvalid, hstable⟩ := h
  obtain ⟨hvalidW, hlowers, -⟩ := hstable.stable_inverted rfl
  exact ⟨free, qubits, hvalidW, hlowers⟩

theorem not_settled_repeated : ¬(Operation.repeated n w).Settled := by
  rintro ⟨free, qubits, hvalid, hstable⟩
  exact Lowers.not_stable_repeated rfl hstable

/-- What is under settled controls. -/
theorem Operation.Settled.of_controlled (h : (Operation.controlled n w).Settled)
    (hself : (w == w) = true) :
    w.numQubits = 1 ∧ (n = 1 ∨ n = 2 ∧ w = .gate .x) ∨ w.numQubits ≠ 1 ∧ w.Settled := by
  obtain ⟨free, qubits, hvalid, hstable⟩ := h
  rcases hstable.stable_controlled hvalid rfl hself with hsingle | ⟨hmany, hvalidW, hlowers⟩
  · exact Or.inl hsingle
  · exact Or.inr ⟨hmany, free, _, hvalidW, hlowers⟩

/-- No tower is settled. -/
theorem Operation.Tower.not_settled (h : op.Tower) : ¬op.Settled := by
  induction h with
  | base =>
      intro hsettled
      rcases hsettled.of_controlled rfl with ⟨-, hone | hx⟩ | ⟨hmany, -⟩
      · exact absurd hone (by decide)
      · cases hx.2
      · exact hmany rfl
  | step n h ih =>
      intro hsettled
      have hwide := h.two_lt_numQubits
      rcases hsettled.of_controlled h.beq_self with ⟨hone, -⟩ | ⟨-, hw⟩
      · omega
      · exact ih hw

/-- The inverse of a tower is settled. -/
theorem Operation.Tower.settled_invert (h : op.Tower) : op.invert.Settled := by
  induction h with
  | base => exact settled_ccx
  | @step n w h ih =>
      have hwide := h.two_lt_numQubits
      refine ih.controlled (by simpa using h.isUnitary) ?_ (beq_self_invert.2 h.beq_self) n
      rw [numQubits_invert]
      omega

/-- The inverse of something settled is settled too, or a tower. -/
theorem Operation.Settled.invert (h : op.Settled) (hunitary : op.isUnitary = true)
    (hself : (op == op) = true) : op.invert.Settled ∨ op.invert.Tower := by
  induction op with
  | controlled n w ih =>
      have hselfW := beq_self_of_controlled hself
      have hunitaryW : w.invert.isUnitary = true := by
        rw [isUnitary_invert]
        exact hunitary
      rcases h.of_controlled hselfW with ⟨hqubit, rfl | ⟨rfl, rfl⟩⟩ | ⟨hmany, hw⟩
      · exact Or.inl (settled_single hunitaryW (by simpa using hqubit))
      · exact Or.inr .base
      · rcases ih hw hunitary hselfW with hsettled | htower
        · left
          exact hsettled.controlled hunitaryW (by simpa using hmany)
            (beq_self_invert.2 hselfW) n
        · exact Or.inr (.step n htower)
  | inverted w ih => exact Or.inl h.of_inverted
  | repeated n w ih => exact absurd h not_settled_repeated
  | gate | custom | powered => exact Or.inl (h.inverted hunitary rfl)
  | measure | reset | barrier | channel | observable | expectation => cases hunitary

end Inverses

end GateAlgebra
