import GateAlgebra.Proofs.Borrowing
import GateAlgebra.Proofs.Total
/-!
What a failure leaves behind.  Where lowering fails does not depend on the qubits, so if one
block of a repeated operation is lowered then so are the others, and a failure comes before
anything is handed out.  The exception is a qubit that may be borrowed twice: the synthesis of
a multi-controlled gate is refused at the first Toffoli gate that holds it twice.
-/

namespace GateAlgebra

open Emission

/-- The operation is lowered to its end on some qubits. -/
def Operation.LoweredSomewhere (free : List Nat) (op : Operation) : Prop :=
  ∃ qubits lowered, (op.on qubits).Valid ∧ Lowers free (op.on qubits) lowered

/-- The operations that a gate expands to are the same on all qubits. -/
theorem operations_of_expansionSteps {g : Gate} {qubits : List Nat}
    {steps : List (Operation × List Nat)} (h : g.expansionSteps qubits = some steps)
    (qubits' : List Nat) :
    ∃ steps', g.expansionSteps qubits' = some steps' ∧
      steps'.map Prod.fst = steps.map Prod.fst := by
  cases g <;> simp only [Gate.expansionSteps, reduceCtorEq, Option.some.injEq] at h
  all_goals
    subst h
    exact ⟨_, rfl, rfl⟩

namespace Operation.LoweredSomewhere

variable {free qubits : List Nat} {w : Operation} {e : Exponent} {n : Nat}

theorem step {g : Gate} {steps : List (Operation × List Nat)} {step : Operation × List Nat}
    (h : (gate g).LoweredSomewhere free) (hsteps : g.expansionSteps qubits = some steps)
    (hstep : step ∈ steps) : step.1.LoweredSomewhere free := by
  obtain ⟨elsewhere, lowered, hvalid, hhere⟩ := h
  obtain ⟨steps', hsteps', hsame⟩ := operations_of_expansionSteps hsteps elsewhere
  rcases hhere.of_gate rfl with ⟨hnone, -⟩ | ⟨others, lists, hothers, hlists, -⟩
  · cases hnone.symm.trans hsteps'
  · obtain rfl := Option.some.inj (hothers.symm.trans hsteps')
    have hmem : step.1 ∈ others.map Prod.fst := hsame ▸ List.mem_map_of_mem hstep
    obtain ⟨step', hstep', heq⟩ := List.mem_map.1 hmem
    obtain ⟨list, hlist⟩ := exists_of_forall₂ hlists step' hstep'
    exact ⟨step'.2, list, heq ▸ hlist⟩

theorem inverted (h : (inverted w).LoweredSomewhere free) : w.LoweredSomewhere free := by
  obtain ⟨qubits, lowered, -, hhere⟩ := h
  obtain ⟨hvalid, list, hlist, -⟩ := hhere.of_inverted rfl
  exact ⟨qubits, list, hvalid, hlist⟩

theorem repeated (h : (repeated n w).LoweredSomewhere free) (hn : 0 < n) :
    w.numQubits ≠ 0 ∧ w.LoweredSomewhere free := by
  obtain ⟨qubits, lowered, hvalid, hhere⟩ := h
  obtain ⟨hwidth, lists, hlists, -⟩ := hhere.of_repeated rfl
  have hcount := length_blocks (Nat.pos_of_ne_zero hwidth) hvalid.qubits_length
  obtain ⟨block, hblock⟩ := List.exists_mem_of_length_pos (hcount.symm ▸ hn)
  obtain ⟨list, hlist⟩ := exists_of_forall₂ hlists block hblock
  exact ⟨hwidth, block, list, hlist⟩

theorem times (h : (powered e w).LoweredSomewhere free) (hn : e.natural? = some (n + 1)) :
    w.LoweredSomewhere free := by
  obtain ⟨qubits, lowered, -, hhere⟩ := h
  rcases hhere.of_powered rfl with ⟨hzero, -⟩ | ⟨m, list, -, hvalid, hlist, -⟩ | ⟨hnone, -⟩
  · cases hn.symm.trans hzero
  · exact ⟨qubits, list, hvalid, hlist⟩
  · cases hn.symm.trans hnone

theorem root (h : (powered e w).LoweredSomewhere free) (hnone : e.natural? = none) {root : Gate}
    (hroot : w.root? e = some root) : (gate root).LoweredSomewhere free := by
  obtain ⟨qubits, lowered, -, hhere⟩ := h
  rcases hhere.of_powered rfl with ⟨hzero, -⟩ | ⟨m, list, hn, -⟩ | ⟨-, hcases⟩
  · cases hnone.symm.trans hzero
  · cases hnone.symm.trans hn
  · rcases hcases with ⟨other, hother, hvalid, hlist⟩ | ⟨hopen, -⟩
    · obtain rfl := Option.some.inj (hroot.symm.trans hother)
      exact ⟨qubits, lowered, hvalid, hlist⟩
    · cases hroot.symm.trans hopen

theorem powered (h : (powered e w).LoweredSomewhere free) (hnone : e.natural? = none)
    (hroot : w.root? e = none) : w.LoweredSomewhere free := by
  obtain ⟨qubits, lowered, -, hhere⟩ := h
  obtain ⟨hvalid, list, hlist, -⟩ := hhere.of_open_power rfl hnone hroot
  exact ⟨qubits, list, hvalid, hlist⟩

/-- What is under the power becomes the same operation here and there. -/
theorem powerOf (h : (Operation.powered e w).LoweredSomewhere free) (hnone : e.natural? = none)
    (hroot : w.root? e = none) {only : Instruction} {powered : Operation}
    (hvalid : (w.on qubits).Valid) (hlowers : Lowers free (w.on qubits) [only])
    (hchanged : isUnchanged [only] w qubits = false)
    (hpowered : only.operation.power e = .ok powered) : powered.LoweredSomewhere free := by
  obtain ⟨elsewhere, lowered, -, hhere⟩ := h
  obtain ⟨hvalid', list, hlist, hkept⟩ := hhere.of_open_power rfl hnone hroot
  rw [Operation.qubits_on] at hvalid' hlist hkept
  rcases alikeWithin free free w hvalid' hvalid hlist hlowers with ⟨op, rfl, hsame⟩ | ⟨-, hmany⟩
  · obtain rfl := List.singleton_inj.1 hsame
    rw [isUnchanged_on] at hchanged
    rcases hkept with ⟨hstays, -⟩ | ⟨only', powered', hsingle, -, hpowered', hvalidP, hagain⟩
    · have hunchanged := hstays _ rfl
      rw [isUnchanged_on, hchanged] at hunchanged
      cases hunchanged
    · obtain rfl := List.singleton_inj.1 hsingle
      obtain rfl := Except.ok.inj (hpowered.symm.trans hpowered')
      exact ⟨_, lowered, hvalidP, hagain⟩
  · exact absurd rfl hmany

theorem controlled (h : (controlled n w).LoweredSomewhere free)
    (hmany : ¬(w.numQubits = 1 ∧ n = 1)) : w.LoweredSomewhere free := by
  obtain ⟨qubits, lowered, -, hhere⟩ := h
  rcases hhere.of_controlled rfl with ⟨hone, -⟩ | ⟨-, hvalid, list, hlist, -⟩
  · exact absurd hone hmany
  · exact ⟨_, list, hvalid, hlist⟩

end Operation.LoweredSomewhere

section Somewhere

variable {free : List Nat} {inst other : Instruction}

/-- What is called is lowered somewhere if the operation that calls it is. -/
theorem loweredSomewhere_of_calls (hmodifies : inst.operation.ModifiesGates)
    (h : inst.operation.LoweredSomewhere free) (hcalls : Calls free inst other) :
    other.operation.LoweredSomewhere free := by
  cases hcalls with
  | step hop hsteps =>
      rw [hop] at h
      exact h.step hsteps (by simp)
  | inverted hop =>
      rw [hop] at h
      exact h.inverted
  | block hop =>
      rw [hop] at h hmodifies
      exact (h.repeated hmodifies.1).2
  | times hop hn =>
      rw [hop] at h
      exact h.times hn
  | root hop hnone hroot =>
      rw [hop] at h
      exact h.root hnone hroot
  | powered hop hnone hroot =>
      rw [hop] at h
      exact h.powered hnone hroot
  | powerOf hop hnone hroot hvalid hlowers hchanged hpowered =>
      rw [hop] at h
      exact h.powerOf hnone hroot hvalid hlowers hchanged hpowered
  | controlled hop hmany =>
      rw [hop] at h
      exact h.controlled hmany

/-- What is lowered somewhere fails elsewhere only if a qubit may be borrowed twice. -/
theorem failsAtRepeats_of_loweredSomewhere (hinst : inst.PlacedWith Operation.ModifiesGates free)
    (h : inst.operation.LoweredSomewhere free) (depth : Nat) :
    (lowerWithin free depth inst).FailsAtRepeats free := by
  have hP := Operation.modifierClosed_modifiesGates.callClosed
  induction depth generalizing inst with
  | zero =>
      rintro stop ⟨⟩
      exact Or.inl rfl
  | succ depth ih =>
      have hmodifies := hinst.operation
      refine failsAtRepeats_lowerStep hP hinst (fun other hother => ih (hinst.calls hP hother)
        (loweredSomewhere_of_calls hmodifies h hother)) (fun n w hop => ?_) fun n w hop => ?_
      · rw [hop] at hmodifies
        exact hmodifies.1
      · rw [hop] at hmodifies h
        exact (h.repeated hmodifies.1).1

end Somewhere

/-- Nothing is handed out before a failure, unless a qubit may be borrowed twice. -/
def Emission.FailsClean (free : List Nat) (emission : Emission) : Prop :=
  ∀ error, emission.stop = some (.failed error) →
    emission.emitted = [] ∨ (Stop.failed error).RepeatsIn free

section Clean

variable {free : List Nat} {first second : Emission}

theorem failsClean_of_failsAtRepeats (h : first.FailsAtRepeats free) :
    first.FailsClean free := by
  intro error hstop
  rcases h _ hstop with hnever | hrepeats
  · cases hnever
  · exact Or.inr hrepeats

theorem failsClean_done (lowered : List Instruction) : (done lowered).FailsClean free :=
  fun _ hstop => by cases hstop

theorem failsClean_failure (error : LoweringError) : (failure error).FailsClean free :=
  fun _ _ => Or.inl rfl

/-- What goes on has all instructions at once, so none are handed out before. -/
theorem failsClean_whole {next : List Instruction → Emission}
    (hnext : ∀ lowered, first = done lowered → (next lowered).FailsClean free) :
    (first.whole next).FailsClean free := by
  obtain ⟨lowered, stop⟩ := first
  cases stop with
  | none => exact hnext lowered rfl
  | some stop => exact fun _ _ => Or.inl rfl

theorem failsClean_andThen (hfirst : first.FailsClean free)
    (hsecond : ∀ lowered, first = done lowered → second.FailsAtRepeats free) :
    (first.andThen second).FailsClean free := by
  obtain ⟨lowered, stop⟩ := first
  cases stop with
  | none => exact failsClean_of_failsAtRepeats (stopsOnly_andThen stopsOnly_done fun _ => hsecond _)
  | some stop => exact hfirst

theorem failsClean_times (h : first.FailsClean free) (n : Nat) :
    (first.times n).FailsClean free := by
  cases n with
  | zero => exact failsClean_done []
  | succ n =>
      rw [times_succ]
      refine failsClean_andThen h fun lowered hlowered => ?_
      rw [hlowered]
      exact stopsOnly_times stopsOnly_done n

end Clean

section Step

variable {free : List Nat} {depth : Nat} {inst : Instruction} {w : Operation}
  (hinst : inst.PlacedWith Operation.ModifiesGates free)
  (hcalls : ∀ other, Calls free inst other → (lowerWithin free depth other).FailsClean free)

include hinst hcalls

/-- Once the first block is lowered, the others are lowered as well. -/
theorem failsClean_lowerRepeated {n : Nat} (hop : inst.operation = .repeated n w) :
    (lowerRepeated (lowerWithin free depth) w inst.qubits).FailsClean free := by
  have hP := Operation.modifierClosed_modifiesGates.callClosed
  unfold lowerRepeated
  split
  · exact failsClean_failure _
  · rename_i hwidth
    have hplaced : ∀ block ∈ blocks w.numQubits inst.qubits inst.qubits.length,
        (w.on block).PlacedWith Operation.ModifiesGates free :=
      fun block hblock => hinst.block hP hop hwidth hblock
    cases hblocks : blocks w.numQubits inst.qubits inst.qubits.length with
    | nil => exact failsClean_done []
    | cons block others =>
        rw [hblocks] at hplaced
        have hw := hplaced block List.mem_cons_self
        have hfirst : blocks w.numQubits inst.qubits inst.qubits.length =
            [] ++ block :: others := hblocks
        rw [List.map_cons, sequence_cons, lowerOn_eq hw.valid]
        refine failsClean_andThen (hcalls _ (.block hop hwidth hfirst hw.valid (by simp)))
          fun lowered hlowered => ?_
        refine stopsOnly_sequence fun emission hemission => ?_
        obtain ⟨other, hother, rfl⟩ := List.mem_map.1 hemission
        have hw' := hplaced other (List.mem_cons_of_mem _ hother)
        rw [lowerOn_eq hw'.valid]
        exact failsAtRepeats_of_loweredSomewhere hw' ⟨block, lowered, hw.valid, depth, hlowered⟩ _

theorem failsClean_lowerPowered {e : Exponent} (hop : inst.operation = .powered e w) :
    (lowerPowered (lowerWithin free depth) inst e w).FailsClean free :=
  lowerPowered_of_calls failsClean_done (fun n h => failsClean_times h n)
    (fun _ => failsClean_whole) Operation.modifierClosed_modifiesGates.callClosed hinst hcalls hop

/-- One level fails clean if every call does. -/
theorem failsClean_lowerStep : (lowerWithin free (depth + 1) inst).FailsClean free := by
  have hP := Operation.modifierClosed_modifiesGates.callClosed
  cases hop : inst.operation with
  | gate g =>
      have hform : inst.operation.WellFormed := by
        rw [hop]
        trivial
      exact failsClean_of_failsAtRepeats (failsAtRepeats_lowerWithin
        ⟨hinst.valid, hinst.unitary, hform, hinst.free_disjoint⟩ _)
  | inverted w =>
      have hw : (w.on inst.qubits).PlacedWith Operation.ModifiesGates free :=
        hinst.wrapped (e := .half) hP (Or.inl hop)
      rw [lowerWithin]
      simp only [lowerStep, hop, lowerInverted, lowerOn_eq hw.valid]
      refine failsClean_whole fun lowered hlowered =>
        failsClean_of_failsAtRepeats ?_
      have hyields := Lowers.yields ⟨depth, hlowered⟩ hw.valid
      exact inverses_stopsOnly fun part hpart => (hyields part hpart).unitary hw.unitary
  | repeated n w =>
      rw [lowerWithin]
      simp only [lowerStep, hop]
      exact failsClean_lowerRepeated hinst hcalls hop
  | powered e w =>
      rw [lowerWithin]
      simp only [lowerStep, hop]
      exact failsClean_lowerPowered hinst hcalls hop
  | controlled n w =>
      have hw := hinst.targets hP hop
      have hn : 0 < n := (hop ▸ hinst.operation : Operation.ModifiesGates (.controlled n w)).1
      rw [lowerWithin]
      simp only [lowerStep, hop, lowerControlled, lowerOn_eq hw.valid]
      split
      · exact failsClean_done _
      · refine failsClean_whole fun lowered hlowered =>
        failsClean_of_failsAtRepeats ?_
        split
        · exact lowerControlledLeaf_failsAtRepeats hinst hop hw.unitary
        · exact controlEach_stopsOnly hinst hop hn hw.unitary
            (Lowers.yields ⟨depth, hlowered⟩ hw.valid)
  | _ =>
      rw [lowerWithin]
      simp only [lowerStep, hop]
      exact failsClean_done _

end Step

section Run

variable {free : List Nat} {inst : Instruction}

theorem failsClean_lowerWithin (hinst : inst.PlacedWith Operation.ModifiesGates free)
    (depth : Nat) : (lowerWithin free depth inst).FailsClean free := by
  have hP := Operation.modifierClosed_modifiesGates.callClosed
  induction depth generalizing inst with
  | zero =>
      rintro error ⟨⟩
  | succ depth ih =>
      exact failsClean_lowerStep hinst fun other hother => ih (hinst.calls hP hother)

theorem failsClean_lower (hvalid : inst.Valid) (hmodifies : inst.operation.ModifiesGates)
    (ancillae : List Nat) : (inst.lower ancillae).FailsClean (inst.free ancillae) := by
  cases hunitary : inst.operation.isUnitary with
  | false =>
      rw [lower_of_passed (hvalid.kind_of_not_isUnitary hmodifies hunitary)]
      exact failsClean_done _
  | true =>
      exact failsClean_lowerWithin
        ⟨hvalid, hunitary, hmodifies, fun q hq => (Instruction.mem_free_iff.1 hq).2⟩ _

/-- A qubit that may be borrowed twice is an ancilla that is listed twice. -/
theorem Instruction.duplicate_of_count_free {ancillae : List Nat} {q : Nat}
    (h : 2 ≤ (inst.free ancillae).count q) :
    q ∉ inst.qubits ∧ List.Duplicate q ancillae := by
  have hmem : q ∈ inst.free ancillae := List.count_pos_iff.1 (by omega)
  have hsub : (inst.free ancillae).Sublist ancillae := List.filter_sublist
  exact ⟨(Instruction.mem_free_iff.1 hmem).2,
    (List.duplicate_iff_two_le_count.2 h).mono_sublist hsub⟩

end Run

/-- A failure to lower an operation leaves the circuit as it was, whatever the targets and the
ancillae are, or it is the refusal of a Toffoli gate on an ancilla that is listed twice and is
no target.  So distinct ancillae, or none, are enough. -/
theorem failed_lowering_keeps_the_circuit {op : Operation} (hop : op.ModifiesGates)
    {qubits bits zvars ancillae : List Nat} {error : LoweringError}
    (hfailed : (op.lower qubits bits zvars ancillae).stop = some (.failed error)) (c : Circuit) :
    c.extend (op.lower qubits bits zvars ancillae).emitted = c ∨
    ∃ q, q ∉ qubits ∧ List.Duplicate q ancillae ∧
      error = .circuit (.invalidTarget q .repeatedInList "ccx") := by
  have hextend : ∀ {added : List Instruction}, added = [] → c.extend added = c := by
    rintro - rfl
    simp [Circuit.extend]
  unfold Operation.lower at hfailed ⊢
  cases hmade : Instruction.make op qubits bits zvars with
  | error e => exact Or.inl (hextend rfl)
  | ok inst =>
      obtain ⟨rfl, hvalid⟩ := Instruction.make_eq_ok_iff.1 hmade
      rw [hmade, build_ok] at hfailed
      rw [build_ok]
      rcases failsClean_lower hvalid hop ancillae error hfailed with hnone | ⟨q, hq, heq⟩
      · exact Or.inl (hextend hnone)
      · obtain ⟨hfree, hduplicate⟩ := Instruction.duplicate_of_count_free hq
        exact Or.inr ⟨q, hfree, hduplicate, Stop.failed.inj heq⟩

/-- A phase, as a gate on no qubits. -/
def phaseGate : CustomGate :=
  ⟨"phase", 0, [], #[1]⟩

/-- A copy of the phase under two controls. -/
def controlledPhaseCopy : Operation :=
  .controlled 2 (.repeated 1 (.custom phaseGate))

/-- Copies of what acts on no qubits have no rule.  An ancilla is listed twice, but the failure
is another one. -/
theorem failed_lowering_keeps_the_circuit_phase :
    (controlledPhaseCopy.lower [0, 1] [] [] [5, 5]).stop =
      some (.failed (.notDecomposable "phase")) ∧
    ∀ c : Circuit, c.extend (controlledPhaseCopy.lower [0, 1] [] [] [5, 5]).emitted = c := by
  have hvalid : (controlledPhaseCopy.on [0, 1]).Valid :=
    Instruction.valid_of_isUnitary rfl rfl (by decide)
  have hcopy : ((Operation.repeated 1 (.custom phaseGate)).on []).Valid :=
    Instruction.valid_of_isUnitary rfl rfl List.nodup_nil
  have hinner : lowerOn (lowerWithin [5, 5] 2) (.repeated 1 (.custom phaseGate)) [] =
      failure (.notDecomposable "phase") := by
    rw [lowerOn_eq hcopy]
    rfl
  have hlower : controlledPhaseCopy.lower [0, 1] [] [] [5, 5] =
      lowerControlled (lowerWithin [5, 5] 2) [5, 5] (controlledPhaseCopy.on [0, 1]) 2
        (.repeated 1 (.custom phaseGate)) := hvalid.lower_operation [5, 5]
  have hmany : ¬((Operation.repeated 1 (.custom phaseGate)).numQubits = 1 ∧ 2 = 1) := by simp
  have htargets : (controlledPhaseCopy.on [0, 1]).qubits.drop 2 = [] := rfl
  have hfailed : (controlledPhaseCopy.lower [0, 1] [] [] [5, 5]).stop =
      some (.failed (.notDecomposable "phase")) := by
    rw [hlower, lowerControlled, if_neg hmany, htargets, hinner]
    rfl
  have hmodifies : controlledPhaseCopy.ModifiesGates :=
    ⟨Nat.two_pos, rfl, Nat.one_pos, rfl, trivial⟩
  refine ⟨hfailed, fun c => ?_⟩
  rcases failed_lowering_keeps_the_circuit hmodifies hfailed c with hkept | ⟨q, -, -, hother⟩
  · exact hkept
  · cases hother

theorem toffoli_refused (a q : Nat) :
    toffoli a q q = failure (.circuit (.invalidTarget q .repeatedInList "ccx")) := by
  unfold toffoli apply
  cases hmade : Instruction.onQubits .ccx [a, q, q] with
  | ok inst =>
      obtain ⟨rfl, hvalid⟩ := Instruction.onQubits_eq_ok_iff.1 hmade
      exact absurd hvalid.qubits_nodup (by simp)
  | error e =>
      rcases make_eq_error ⟨rfl, rfl, rfl⟩ hmade with ⟨o, hop, -⟩ | ⟨part, hpart, x, hx, rfl⟩
      · cases hop
      · simp only [List.mem_cons, List.not_mem_nil, or_false] at hpart
        rcases hpart with rfl | rfl | rfl
        · have hrepeats := List.duplicate_iff_two_le_count.1 hx
          have hxq : x = q := by
            by_contra hother
            simp only [List.count_cons, List.count_nil] at hrepeats
            grind
          rw [hxq]
          rfl
        · cases hx
        · cases hx

/-- The ladder for four controls on one ancilla that is listed twice.  The Toffoli gate on the
target is there before the one on the ancillae is refused. -/
theorem repeated_ancilla_leaves_a_toffoli :
    ((controlledXOn [0, 1, 2, 3] 4).operation.lower [0, 1, 2, 3, 4] [] [] [5, 5]).stop =
      some (.failed (.circuit (.invalidTarget 5 .repeatedInList "ccx"))) ∧
    ∀ c : Circuit,
      c.extend ((controlledXOn [0, 1, 2, 3] 4).operation.lower [0, 1, 2, 3, 4] [] []
        [5, 5]).emitted = c.extend [Operation.ccx.on [3, 5, 4]] ∧
      c.extend [Operation.ccx.on [3, 5, 4]] ≠ c := by
  have hnodup : ([0, 1, 2, 3] ++ [4] : List Nat).Nodup := by decide
  have hladder : toffoliLadder [0, 1, 2, 3] 4 [5, 5] = ⟨[Operation.ccx.on [3, 5, 4]],
      some (.failed (.circuit (.invalidTarget 5 .repeatedInList "ccx")))⟩ := by
    have htarget : toffoli 3 5 4 = done [Operation.ccx.on [3, 5, 4]] :=
      apply_eq_done rfl rfl (by decide)
    rw [toffoliLadder_eq_times]
    simp only [roundRungs, rungs, List.cons_append, List.nil_append, List.reverse_cons,
      List.reverse_nil, List.map_cons, sequence_cons, htarget,
      toffoli_refused]
    rfl
  have hlower : (controlledXOn [0, 1, 2, 3] 4).operation.lower [0, 1, 2, 3, 4] [] [] [5, 5] =
      toffoliLadder [0, 1, 2, 3] 4 [5, 5] :=
    ((valid_controlledXOn hnodup).lower_operation _).trans (lower_controlledXOn hnodup [5, 5])
  rw [hlower, hladder]
  refine ⟨rfl, fun c => ⟨rfl, fun hsame => ?_⟩⟩
  have hlength := congrArg (fun d : Circuit => d.instructions.length) hsame
  simp at hlength

end GateAlgebra
