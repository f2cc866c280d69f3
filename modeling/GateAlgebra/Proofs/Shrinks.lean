import Mathlib.Data.Prod.Lex
import GateAlgebra.Proofs.Stages
/-!
Lowering makes instructions smaller.  An instruction that is lowered to anything but itself is
lowered to instructions on fewer qubits, or on equally many and with operations of lower rank.
-/

namespace GateAlgebra

namespace Instruction

/-- The number of qubits weighs more than the rank of the operation. -/
def weight (inst : Instruction) : ℕ ×ₗ ℕ :=
  toLex (inst.qubits.length, inst.operation.rank)

/-- What an instruction is lowered to is itself, or it all weighs less. -/
def Shrinks (inst : Instruction) (emitted : List Instruction) : Prop :=
  emitted = [inst] ∨ ∀ part ∈ emitted, part.weight < inst.weight

variable {inst part : Instruction} {emitted : List Instruction}

theorem weight_lt_iff : part.weight < inst.weight ↔
    part.qubits.length < inst.qubits.length ∨
      part.qubits.length = inst.qubits.length ∧ part.operation.rank < inst.operation.rank :=
  Prod.Lex.toLex_lt_toLex

theorem weight_lt_of_rank (hqubits : part.qubits.length ≤ inst.qubits.length)
    (hrank : part.operation.rank < inst.operation.rank) : part.weight < inst.weight := by
  rw [weight_lt_iff]
  omega

/-- Lowered within something heavier, everything weighs less. -/
theorem Shrinks.weight_lt (h : part.Shrinks emitted) (hlt : part.weight < inst.weight) :
    ∀ last ∈ emitted, last.weight < inst.weight := by
  rcases h with rfl | hless
  · exact List.forall_mem_singleton.2 hlt
  · exact fun last hlast => (hless last hlast).trans hlt

/-- A single instruction on no more qubits that is not outweighed by rank. -/
theorem Dominates.shrinks {only : Instruction} (h : inst.Dominates only)
    (hqubits : only.qubits.length ≤ inst.qubits.length) : inst.Shrinks [only] := by
  rcases h with rfl | hrank
  · exact Or.inl rfl
  · exact Or.inr (List.forall_mem_singleton.2 (weight_lt_of_rank hqubits hrank))

end Instruction

theorem IsRung.numQubits_le {op rung : Operation} (h : IsRung op rung) (hop : op.numQubits = 1) :
    rung.numQubits ≤ 3 := by
  cases h with
  | toggle hmem =>
      simp only [List.mem_cons, List.not_mem_nil, or_false] at hmem
      rcases hmem with rfl | rfl | rfl <;> decide
  | root k => simp [hop]
  | unroot k => simp [hop]

section Step

open Instruction

variable {inst : Instruction} {w : Operation} {n : Nat} {free : List Nat}
  {emitted : List Instruction}

/-- Inverses of parts of what is under an inverse. -/
theorem shrinks_inverse (hinst : inst.Valid) (hop : inst.operation = .inverted w)
    (hvalid : (w.on inst.qubits).Valid) {lowered : List Instruction}
    (hshrinks : (w.on inst.qubits).Shrinks lowered)
    (hinverses : List.Forall₂ (fun part inverse => part.inverse = .ok inverse)
      lowered.reverse emitted) : inst.Shrinks emitted := by
  rcases hshrinks with rfl | hless
  · obtain ⟨only, hinverse, rfl⟩ : ∃ only, (w.on inst.qubits).inverse = .ok only ∧
        emitted = [only] := by
      cases hinverses with
      | cons hhead htail =>
          cases htail
          exact ⟨_, hhead, rfl⟩
    refine (dominates_inverse hinst hop hvalid (Or.inl rfl) hinverse).shrinks ?_
    rcases inverse_cases hinverse with rfl | rfl <;> exact Nat.le_refl _
  · right
    refine forall_mem_of_forall₂ hinverses fun part hpart inverse hinverse => ?_
    have hlt := weight_lt_iff.1 (hless part (List.mem_reverse.1 hpart))
    have hrank := part.operation.rank_invert_le
    have hpositive := w.rank_pos
    rw [weight_lt_iff, hop, Operation.rank]
    simp only [Operation.operation_on, Operation.qubits_on] at hlt
    rcases inverse_cases hinverse with rfl | rfl
    · omega
    · dsimp only
      omega

/-- Controlled parts of what is under controls. -/
theorem shrinks_control (hinst : inst.Valid) (hop : inst.operation = .controlled n w)
    (hvalid : (w.on (inst.qubits.drop n)).Valid) {lowered : List Instruction}
    (hshrinks : (w.on (inst.qubits.drop n)).Shrinks lowered)
    (hcontrolled : List.Forall₂
      (fun part inst' => controlInstruction (inst.qubits.take n) part = .done [inst'])
      lowered emitted) : inst.Shrinks emitted := by
  have hcount := hinst.length_take hop
  have hsplit : (inst.qubits.take n).length + (inst.qubits.drop n).length =
      inst.qubits.length := by
    rw [← List.length_append, List.take_append_drop]
  rcases hshrinks with rfl | hless
  · obtain ⟨only, hcontrol, rfl⟩ : ∃ only, controlInstruction (inst.qubits.take n)
        (w.on (inst.qubits.drop n)) = .done [only] ∧ emitted = [only] := by
      cases hcontrolled with
      | cons hhead htail =>
          cases htail
          exact ⟨_, hhead, rfl⟩
    refine (dominates_control hinst hop hvalid (Or.inl rfl) hcontrol).shrinks ?_
    obtain ⟨-, -, -, rfl⟩ := controlInstruction_cases hcontrol
    simp
  · right
    refine forall_mem_of_forall₂ hcontrolled fun part hpart other hcontrol => ?_
    obtain ⟨-, -, -, rfl⟩ := controlInstruction_cases hcontrol
    have hlt := weight_lt_iff.1 (hless part hpart)
    have hrank := part.operation.rank_addControls_le n
    simp only [Operation.operation_on, Operation.qubits_on] at hlt
    rw [weight_lt_iff, hop, Operation.operation_on, Operation.qubits_on, List.length_append,
      Operation.rank, hcount]
    omega

/-- The power of the only part of what is under a power. -/
theorem shrinks_power {e : Exponent} {only : Instruction} {powered : Operation}
    (hinst : inst.Valid) (hop : inst.operation = .powered e w)
    (hvalid : (w.on inst.qubits).Valid) (hshrinks : (w.on inst.qubits).Shrinks [only])
    (hpowered : only.operation.power e = .ok powered) :
    inst.Shrinks [powered.on only.qubits] := by
  rcases hshrinks with hsame | hless
  · obtain rfl := List.singleton_inj.1 hsame
    exact (dominates_power hinst hop hvalid (Or.inl rfl) hpowered).shrinks (Nat.le_refl _)
  · right
    obtain ⟨-, rfl⟩ := Operation.power_eq_ok_iff.1 hpowered
    have hlt := weight_lt_iff.1 (hless only List.mem_cons_self)
    have hrank := only.operation.rank_raise_le e
    simp only [Operation.operation_on, Operation.qubits_on] at hlt
    rw [List.forall_mem_singleton, weight_lt_iff, hop, Operation.operation_on,
      Operation.qubits_on, Operation.rank]
    omega

/-- Rungs of three controls or more act on fewer qubits. -/
theorem shrinks_rungs (hinst : inst.Valid) (hop : inst.operation = .controlled n w)
    (hqubit : w.numQubits = 1) (hn : 3 ≤ n) {support : List Nat}
    (hrungs : ∀ part ∈ emitted, part.IsRungOn w support) : inst.Shrinks emitted := by
  right
  intro part hpart
  have hwidth : part.qubits.length = part.operation.numQubits :=
    (hrungs part hpart).valid.qubits_length
  have hlength : inst.qubits.length = n + w.numQubits := by
    rw [hinst.qubits_length, hop]
    rfl
  have hle := (hrungs part hpart).rung.numQubits_le hqubit
  rw [weight_lt_iff]
  omega

/-- X under any number of controls but one. -/
theorem shrinks_controlledX (hinst : inst.Valid) (hn : n ≠ 1)
    (hop : inst.operation = .controlled n (.gate .x))
    (h : controlledX (inst.qubits.take n) ((inst.qubits.drop n).headD 0) free =
      .done emitted) : inst.Shrinks emitted := by
  obtain rfl | rfl | hmany : n = 0 ∨ n = 2 ∨ 3 ≤ n := by omega
  · obtain ⟨rfl, hvalid⟩ := Emission.apply_eq_done_iff.1 h
    refine (dominates_controlledX hinst hn hop h).shrinks ?_
    rw [hvalid.qubits_length, hinst.qubits_length, hop]
    exact Nat.le_refl 1
  · have hlength := hinst.qubits_length
    rw [hop] at hlength
    obtain ⟨a, b, target, hqubits⟩ := List.length_eq_three.1 hlength
    have happly : Emission.apply .ccx [a, b, target] = .done emitted := by
      rw [hqubits] at h
      exact h
    obtain ⟨rfl, -⟩ := Emission.apply_eq_done_iff.1 happly
    exact (dominates_controlledX hinst hn hop h).shrinks (by rw [hqubits])
  · obtain ⟨target, -, hrungs⟩ := rungs_controlledX hinst hop h
    exact shrinks_rungs hinst hop rfl hmany hrungs

/-- Two controls on one qubit become instructions on two qubits. -/
theorem length_of_controlledRoot_two (hqubit : w.numQubits = 1) {a b target : Nat}
    (hnodup : [a, b, target].Nodup) (h : controlledRoot w [a, b] target free = .done emitted) :
    ∀ part ∈ emitted, part.qubits.length = 2 := by
  have hunitary : w.isUnitary = true := by
    obtain ⟨root, hroot, -⟩ := Emission.build_eq_done_iff.1 h
    exact (Operation.power_eq_ok_iff.1 hroot).1
  rw [controlledRoot_two hunitary hqubit hnodup] at h
  obtain rfl := Emission.done_inj.1 h
  simp

/-- Any other operation on one qubit under any number of controls but one. -/
theorem shrinks_controlledRoot (hinst : inst.Valid) (hn : n ≠ 1)
    (hop : inst.operation = .controlled n w) (hqubit : w.numQubits = 1)
    (h : controlledRoot w (inst.qubits.take n) ((inst.qubits.drop n).headD 0) free =
      .done emitted) : inst.Shrinks emitted := by
  have hlength : inst.qubits.length = n + 1 := by
    rw [hinst.qubits_length, hop, ← hqubit]
    rfl
  obtain ⟨target, -, ⟨rfl, rfl, -⟩ | ⟨hsome, hrungs⟩⟩ := rungs_controlledRoot hinst hop hqubit h
  · refine (dominates_controlledRoot hinst hn hop h).shrinks ?_
    rw [hlength]
    exact Nat.le_refl 1
  · obtain rfl | hmany : n = 2 ∨ 3 ≤ n := by omega
    · obtain ⟨a, b, target, hqubits⟩ := List.length_eq_three.1 hlength
      have hnodup := hinst.qubits_nodup
      rw [hqubits] at h hnodup
      have htwo := length_of_controlledRoot_two hqubit hnodup h
      refine Or.inr fun part hpart => weight_lt_iff.2 (Or.inl ?_)
      rw [htwo part hpart, hlength]
      exact Nat.lt_succ_self 2
    · exact shrinks_rungs hinst hop hqubit hmany hrungs

variable {Sub : Instruction → List Instruction → Prop}

/-- One level of lowering. -/
theorem shrinks_of_lowerStep
    (ih : ∀ part list, part.Valid → Sub part list → part.Shrinks list)
    (hinst : inst.Valid) (h : LowerStep Sub free inst emitted) : inst.Shrinks emitted := by
  -- what is lowered within on no more qubits is of lower rank, and so is all that it leads to
  have hwithin : ∀ {op : Operation} {qubits list}, (op.on qubits).Valid → Sub (op.on qubits) list →
      qubits.length ≤ inst.qubits.length → op.rank < inst.operation.rank →
      ∀ part ∈ list, part.weight < inst.weight :=
    fun hvalid hsub hqubits hrank =>
      (ih _ _ hvalid hsub).weight_lt (weight_lt_of_rank hqubits hrank)
  cases h with
  | keep => exact Or.inl rfl
  | @expand g steps lists hop hsteps hlists =>
      right
      refine forall_mem_flatten hlists fun step hstep list hlist => ?_
      refine hwithin hlist.1 hlist.2 ?_ ?_
      · have hle := ((isStep_of_expansionSteps hsteps).2 step hstep).2
        have hlength := hlist.1.qubits_length
        rw [Operation.qubits_on, Operation.operation_on] at hlength
        rw [hlength, hinst.qubits_length, hop]
        exact hle
      · rw [hop]
        exact Operation.rank_of_expansionSteps hsteps step hstep
  | invert hop hvalid hsub hinverses =>
      exact shrinks_inverse hinst hop hvalid (ih _ _ hvalid hsub) hinverses
  | @blocks n w lists hop hwidth hlists =>
      right
      refine forall_mem_flatten hlists fun block hblock list hlist => ?_
      refine hwithin hlist.1 hlist.2 ?_ ?_
      · exact List.Nodup.length_le_of_subset hlist.1.qubits_nodup (subset_of_mem_blocks hblock)
      · rw [hop]
        exact Nat.lt_succ_self _
  | zeroth => exact Or.inr (List.forall_mem_nil _)
  | @times e w n lowered hop hn hvalid hsub =>
      right
      intro part hpart
      obtain ⟨list, hlist, hmem⟩ := List.mem_flatten.1 hpart
      rw [List.eq_of_mem_replicate hlist] at hmem
      refine hwithin hvalid hsub (Nat.le_refl _) ?_ part hmem
      have hpositive := w.rank_pos
      rw [hop, Operation.rank]
      omega
  | @root e g root lowered hop hroot hvalid hsub =>
      right
      refine hwithin hvalid hsub (Nat.le_refl _) ?_
      have hle := Gate.rank_of_root? hroot
      have hpositive := g.rank_pos
      rw [hop]
      simp only [Operation.rank]
      omega
  | powerOf hop hvalid hsub hpowered hvalid' hsub' =>
      have hlast := ih _ _ hvalid' hsub'
      rcases shrinks_power hinst hop hvalid (ih _ _ hvalid hsub) hpowered with hsame | hless
      · rwa [List.singleton_inj.1 hsame] at hlast
      · exact Or.inr (hlast.weight_lt (hless _ List.mem_cons_self))
  | controlX hn hop hemitted => exact shrinks_controlledX hinst hn hop hemitted
  | controlRoot hn hop hqubit hvalid hsub hsame hemitted =>
      exact shrinks_controlledRoot hinst hn hop hqubit hemitted
  | controlEach hop hvalid hsub hcontrolled =>
      exact shrinks_control hinst hop hvalid (ih _ _ hvalid hsub) hcontrolled

end Step

/-- A complete lowering. -/
theorem Lowers.shrinks {free : List Nat} {inst : Instruction} {emitted : List Instruction}
    (h : Lowers free inst emitted) (hinst : inst.Valid) : inst.Shrinks emitted := by
  refine Lowers.induction (P := fun inst emitted => inst.Valid → inst.Shrinks emitted)
    (fun inst emitted hstep hinst => ?_) h hinst
  exact shrinks_of_lowerStep (fun part list hpart hlist => hlist.2.2 hpart) hinst hstep

end GateAlgebra
