import GateAlgebra.Proofs.LowerExact
import GateAlgebra.Proofs.Rank
/-!
What lowers to a single instruction.  It is the instruction itself, or its operation
weighs less.
-/

namespace GateAlgebra

namespace Emission

/-- Nothing is twice one instruction. -/
theorem times_two_ne_singleton {emission : Emission} {only : Instruction} :
    emission.times 2 ≠ done [only] := by
  intro h
  obtain ⟨lowered, -, hflatten⟩ := times_eq_done_iff.1 h
  have hone := eq_one_of_flatten_replicate hflatten
  cases hone

theorem length_of_build_apply {value : Except CircuitError Operation} {qubits : List Nat}
    {emitted : List Instruction}
    (h : (build value fun op => apply op qubits) = done emitted) : emitted.length = 1 := by
  obtain ⟨op, -, happly⟩ := build_eq_done_iff.1 h
  obtain ⟨rfl, -⟩ := apply_eq_done_iff.1 happly
  rfl

end Emission

theorem rootLadder_ne_singleton {op : Operation} {controls free : List Nat} {target : Nat}
    {only : Instruction} (hmany : 2 ≤ controls.length) :
    rootLadder op controls target free ≠ .done [only] := by
  intro h
  cases controls with
  | nil => simp at hmany
  | cons last rest =>
      cases rest with
      | nil => simp at hmany
      | cons second others =>
          obtain ⟨root, -, hroot⟩ := Emission.build_eq_done_iff.1 h
          obtain ⟨unroot, -, hsequence⟩ := Emission.build_eq_done_iff.1 hroot
          simp only [Emission.sequence_cons, Emission.sequence_nil, Emission.done_andThen,
            Emission.andThen_eq_done_iff] at hsequence
          obtain ⟨first, _, hfirst, ⟨flip, _, _, ⟨middle, _, hmiddle, _, rfl⟩, rfl⟩, hall⟩ :=
            hsequence
          have hlength := congrArg List.length hall
          have hone := Emission.length_of_build_apply hfirst
          have hone' := Emission.length_of_build_apply hmiddle
          simp only [List.length_append, List.length_singleton] at hlength
          omega

/-- X under three controls or more takes several instructions. -/
theorem controlledX_ne_singleton {controls free : List Nat} {target : Nat} {only : Instruction}
    (hmany : 3 ≤ controls.length) : controlledX controls target free ≠ .done [only] := by
  unfold controlledX
  split
  · match controls, hmany with
    | first :: second :: third :: rest, _ =>
        change toffoliLadder (first :: second :: third :: rest) target _ ≠ _
        unfold toffoliLadder
        split
        · exact Emission.times_two_ne_singleton
        · exact fun h => List.cons_ne_nil only [] (Emission.done_inj.1 h).symm
  · split
    · exact Emission.times_two_ne_singleton
    · exact rootLadder_ne_singleton (by rw [List.length_reverse]; omega)

/-- The instruction itself, or one whose operation weighs less. -/
def Instruction.Dominates (inst other : Instruction) : Prop :=
  other = inst ∨ other.operation.rank < inst.operation.rank

theorem Instruction.Dominates.rank_le {inst other : Instruction} (h : inst.Dominates other) :
    other.operation.rank ≤ inst.operation.rank := by
  rcases h with rfl | hlt
  · exact Nat.le_refl _
  · exact Nat.le_of_lt hlt

/-- Instructions without bits and registers are operations on qubits alone. -/
theorem Instruction.Valid.eq_on {inst : Instruction} {op : Operation} (hvalid : inst.Valid)
    (hop : inst.operation = op) (hbits : op.arity.bits = 0) (hzvars : op.arity.zvars = 0) :
    inst = op.on inst.qubits := by
  have hnoBits := hvalid.bits_length
  have hnoZvars := hvalid.zvars_length
  rw [hop, hbits, List.length_eq_zero_iff] at hnoBits
  rw [hop, hzvars, List.length_eq_zero_iff] at hnoZvars
  obtain ⟨other, qubits, bits, zvars⟩ := inst
  simp only at hop hnoBits hnoZvars
  rw [hop, hnoBits, hnoZvars]
  rfl

theorem Instruction.Valid.arity_on {op : Operation} {qubits : List Nat}
    (hvalid : (op.on qubits).Valid) : op.arity.bits = 0 ∧ op.arity.zvars = 0 :=
  ⟨hvalid.bits_length.symm, hvalid.zvars_length.symm⟩

section Step

variable {inst only part : Instruction} {w : Operation}

theorem inverse_cases (h : part.inverse = .ok only) :
    only = part ∨ only = { part with operation := part.operation.invert } := by
  by_cases hbarrier : part.operation.isBarrier = true
  · left
    simpa [Instruction.inverse, Operation.inverse, hbarrier, eq_comm] using h
  · right
    by_cases hunitary : part.operation.isUnitary = true
    · exact (Instruction.inverse_eq_ok_iff hunitary).1 h
    · simp [Instruction.inverse, Operation.inverse, hbarrier, hunitary] at h

/-- The inverse of what the operation under an inverse is lowered to. -/
theorem dominates_inverse (hvalid : inst.Valid) (hop : inst.operation = .inverted w)
    (hvalidW : (w.on inst.qubits).Valid) (hpart : (w.on inst.qubits).Dominates part)
    (hinverse : part.inverse = .ok only) : inst.Dominates only := by
  have hpositive := w.rank_pos
  have hle := hpart.rank_le
  rw [Operation.operation_on] at hle
  rcases inverse_cases hinverse with rfl | rfl
  · right
    rw [hop]
    simp only [Operation.rank]
    omega
  · rcases hpart with rfl | hlt
    · rcases w.rank_invert_lt with heq | hless
      · left
        have harity := hvalidW.arity_on
        rw [hvalid.eq_on hop harity.1 harity.2, Operation.operation_on, heq]
        rfl
      · right
        rw [hop]
        exact hless
    · right
      have hinner := part.operation.rank_invert_le
      rw [hop]
      simp only [Operation.operation_on, Operation.rank] at hlt ⊢
      omega

/-- The power of what the operation under a power is lowered to. -/
theorem dominates_power {e : Exponent} {powered : Operation} (hvalid : inst.Valid)
    (hop : inst.operation = .powered e w) (hvalidW : (w.on inst.qubits).Valid)
    (hpart : (w.on inst.qubits).Dominates part)
    (hpowered : part.operation.power e = .ok powered) :
    inst.Dominates (powered.on part.qubits) := by
  obtain ⟨-, rfl⟩ := Operation.power_eq_ok_iff.1 hpowered
  rcases hpart with rfl | hlt
  · rcases w.rank_raise_lt e with heq | hless
    · left
      have harity := hvalidW.arity_on
      rw [Operation.operation_on, Operation.qubits_on, heq]
      exact (hvalid.eq_on hop harity.1 harity.2).symm
    · right
      rw [hop]
      exact hless
  · right
    have hle := part.operation.rank_raise_le e
    rw [hop]
    simp only [Operation.operation_on, Operation.rank] at hlt ⊢
    omega

/-- The controlled form of what the operation under controls is lowered to. -/
theorem dominates_control {n : Nat} (hvalid : inst.Valid) (hop : inst.operation = .controlled n w)
    (hvalidW : (w.on (inst.qubits.drop n)).Valid)
    (hpart : (w.on (inst.qubits.drop n)).Dominates part)
    (hcontrol : controlInstruction (inst.qubits.take n) part = .done [only]) :
    inst.Dominates only := by
  obtain ⟨controlled, hcontrolled, happly⟩ := Emission.bind_eq_done_iff.1 hcontrol
  obtain ⟨hsingle, -⟩ := Emission.apply_eq_done_iff.1 happly
  obtain rfl := List.singleton_inj.1 hsingle
  rw [hvalid.length_take hop] at hcontrolled
  obtain ⟨-, -, rfl⟩ :=
    Operation.control_eq_ok_iff.1 (Emission.mapError_eq_ok_iff.1 hcontrolled)
  rcases hpart with rfl | hlt
  · rcases w.rank_addControls_lt n with heq | hless
    · left
      have harity := hvalidW.arity_on
      have hinst := hvalid.eq_on hop harity.1 harity.2
      rw [hinst, Operation.operation_on, Operation.qubits_on, Operation.qubits_on, heq,
        List.take_append_drop]
      rfl
    · right
      rw [hop]
      exact hless
  · right
    have hle := part.operation.rank_addControls_le n
    rw [hop]
    simp only [Operation.operation_on, Operation.rank] at hlt ⊢
    omega

/-- An operation under controls weighs more than without them. -/
theorem dominates_apply {n : Nat} {qubits : List Nat} (hop : inst.operation = .controlled n w)
    (h : Emission.apply w qubits = .done [only]) : inst.Dominates only := by
  obtain ⟨hsingle, -⟩ := Emission.apply_eq_done_iff.1 h
  obtain rfl := List.singleton_inj.1 hsingle
  right
  rw [hop]
  exact Nat.lt_succ_self _

/-- X under no control, or under two. -/
theorem dominates_controlledX {n : Nat} {free : List Nat} (hvalid : inst.Valid) (hn : n ≠ 1)
    (hop : inst.operation = .controlled n (.gate .x))
    (h : controlledX (inst.qubits.take n) ((inst.qubits.drop n).headD 0) free = .done [only]) :
    inst.Dominates only := by
  have hcount := hvalid.length_take hop
  by_cases hmany : 3 ≤ n
  · exact absurd h (controlledX_ne_singleton (by omega))
  · by_cases hnone : n = 0
    · subst hnone
      exact dominates_apply hop h
    · left
      obtain rfl : n = 2 := by omega
      have hlength := hvalid.qubits_length
      have hinst := hvalid.eq_on hop rfl rfl
      rw [hop] at hlength
      obtain ⟨a, b, target, hqubits⟩ := List.length_eq_three.1 hlength
      rw [hqubits] at h hinst
      obtain ⟨hsingle, -⟩ := Emission.apply_eq_done_iff.1 h
      obtain rfl := List.singleton_inj.1 hsingle
      exact hinst.symm

theorem dominates_controlledRoot {n : Nat} {free : List Nat} (hvalid : inst.Valid) (hn : n ≠ 1)
    (hop : inst.operation = .controlled n w)
    (h : controlledRoot w (inst.qubits.take n) ((inst.qubits.drop n).headD 0) free =
      .done [only]) : inst.Dominates only := by
  have hcount := hvalid.length_take hop
  by_cases hnone : n = 0
  · subst hnone
    exact dominates_apply hop h
  · exact absurd h (rootLadder_ne_singleton (by rw [List.length_reverse]; omega))

variable {Sub : Instruction → List Instruction → Prop} {free : List Nat}

/-- One level of lowering. -/
theorem dominates_of_lowerStep
    (ih : ∀ part only, part.Valid → Sub part [only] → part.Dominates only)
    (hne : ∀ part list, IsStep part.operation → Sub part list → list ≠ [])
    (hvalid : inst.Valid) {emitted : List Instruction} (h : LowerStep Sub free inst emitted)
    (honly : emitted = [only]) : inst.Dominates only := by
  -- what is lowered within weighs less than the whole, and so does all that it leads to
  have hwithin : ∀ {op qubits}, (Operation.on op qubits).Dominates only →
      op.rank < inst.operation.rank → inst.Dominates only :=
    fun hpart hlt => Or.inr (Nat.lt_of_le_of_lt hpart.rank_le hlt)
  cases h with
  | keep =>
      obtain rfl := List.singleton_inj.1 honly
      exact Or.inl rfl
  | expand hop hsteps hlists =>
      obtain ⟨htwo, hkinds⟩ := isStep_of_expansionSteps hsteps
      have hlong := length_le_length_flatten hlists
        fun step hstep list hlist => hne _ _ (hkinds step hstep).1 hlist.2
      rw [honly, List.length_singleton] at hlong
      omega
  | invert hop hvalidW hsub hinverses =>
      subst honly
      obtain ⟨part, hsingle, hinverse⟩ := forall₂_singleton_right_iff.1 hinverses
      rw [List.reverse_eq_cons_iff, List.reverse_nil, List.nil_append] at hsingle
      rw [hsingle] at hsub
      exact dominates_inverse hvalid hop hvalidW (ih _ _ hvalidW hsub) hinverse
  | @blocks n w lists hop hwidth hlists =>
      have hmem := singleton_mem_of_flatten honly
      have hall := forall_mem_of_forall₂ (P := fun list => list = [only] → inst.Dominates only)
        hlists fun block hblock list hlist hsingle => by
          rw [hsingle] at hlist
          refine hwithin (ih _ _ hlist.1 hlist.2) ?_
          rw [hop]
          exact Nat.lt_succ_self _
      exact hall _ hmem rfl
  | zeroth => cases honly
  | @times e w n lowered hop hn hvalidW hsub =>
      have hone := eq_one_of_flatten_replicate honly
      rw [hone, List.replicate_one, List.flatten_singleton] at honly
      rw [honly] at hsub
      refine hwithin (ih _ _ hvalidW hsub) ?_
      have hpositive := w.rank_pos
      rw [hop]
      simp only [Operation.rank]
      omega
  | @root e g root lowered hop hroot hvalidR hsub =>
      subst honly
      refine hwithin (ih _ _ hvalidR hsub) ?_
      have hle := Gate.rank_of_root? hroot
      have hpositive := g.rank_pos
      rw [hop]
      simp only [Operation.rank]
      omega
  | powerOf hop hvalidW hsub hpowered hvalidP hsub' =>
      subst honly
      have hpower := dominates_power hvalid hop hvalidW (ih _ _ hvalidW hsub) hpowered
      have hlast := ih _ _ hvalidP hsub'
      rcases hpower with hsame | hlt
      · rwa [hsame] at hlast
      · exact hwithin hlast hlt
  | controlX hn hop hemitted =>
      rw [honly] at hemitted
      exact dominates_controlledX hvalid hn hop hemitted
  | controlRoot hn hop hqubit hvalidW hsub hsame hemitted =>
      rw [honly] at hemitted
      exact dominates_controlledRoot hvalid hn hop hemitted
  | controlEach hop hvalidW hsub hcontrolled =>
      subst honly
      obtain ⟨part, hsingle, hcontrol⟩ := forall₂_singleton_right_iff.1 hcontrolled
      rw [hsingle] at hsub
      exact dominates_control hvalid hop hvalidW (ih _ _ hvalidW hsub) hcontrol

end Step

/-- What lowers to one instruction lowers to itself or to less. -/
theorem dominates_of_lowerWithin {free : List Nat} {depth : Nat} {inst only : Instruction}
    (hvalid : inst.Valid) (h : lowerWithin free depth inst = .done [only]) :
    inst.Dominates only := by
  induction depth generalizing inst only with
  | zero => exact absurd h Emission.unfinished_ne_done
  | succ depth ih =>
      refine dominates_of_lowerStep (fun part only hpart hlist => ih hpart hlist) ?_ hvalid
        (lowerStep_cases h) rfl
      exact fun part list hstep hlist => lowerWithin_ne_nil hstep hlist

end GateAlgebra
