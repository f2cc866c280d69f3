import GateAlgebra.Proofs.Parts
/-!
Instructions that lowering leaves as they are.  Weights tell them apart: whatever becomes one
other instruction on the way loses weight, and never gets back to what it was.
-/

namespace GateAlgebra

namespace Operation

section Beq

theorem controlled_beq (n m : Nat) (w v : Operation) :
    (controlled n w == controlled m v) = (n == m && w == v) := rfl

theorem powered_beq (e p : Exponent) (w v : Operation) :
    (powered e w == powered p v) = (e == p && w == v) := rfl

theorem inverted_beq (w v : Operation) : (inverted w == inverted v) = (w == v) := rfl

theorem repeated_beq (n m : Nat) (w v : Operation) :
    (repeated n w == repeated m v) = (n == m && w == v) := rfl

theorem rank_eq_of_gate_beq {g g' : Gate} (h : (g == g') = true) : g.rank = g'.rank := by
  cases g <;> cases g' <;> first | rfl | cases h

/-- Operations that compare as equal weigh the same. -/
theorem rank_eq_of_beq {op other : Operation} (h : (op == other) = true) :
    op.rank = other.rank := by
  induction op generalizing other with
  | gate g =>
      cases other with
      | gate g' => exact rank_eq_of_gate_beq h
      | _ => cases h
  | controlled n w ih =>
      cases other with
      | controlled m v =>
          rw [controlled_beq, Bool.and_eq_true] at h
          rw [rank, rank, ih h.2]
      | _ => cases h
  | powered e w ih =>
      cases other with
      | powered p v =>
          rw [powered_beq, Bool.and_eq_true] at h
          rw [rank, rank, ih h.2]
      | _ => cases h
  | inverted w ih =>
      cases other with
      | inverted v =>
          rw [inverted_beq] at h
          rw [rank, rank, ih h]
      | _ => cases h
  | repeated n w ih =>
      cases other with
      | repeated m v =>
          rw [repeated_beq, Bool.and_eq_true] at h
          rw [rank, rank, ih h.2]
      | _ => cases h
  | _ => cases other <;> first | rfl | cases h

end Beq

end Operation

section Lowers

variable {free : List Nat} {inst : Instruction}

theorem Lowers.dominates {only : Instruction} (hvalid : inst.Valid)
    (h : Lowers free inst [only]) : inst.Dominates only := by
  obtain ⟨depth, hdepth⟩ := h
  exact dominates_of_lowerWithin hvalid hdepth

theorem Instruction.Dominates.eq_of_beq {only : Instruction} (h : inst.Dominates only)
    (hsame : (only.operation == inst.operation) = true) : only = inst := by
  rcases h with heq | hlt
  · exact heq
  · exact absurd (Operation.rank_eq_of_beq hsame) (Nat.ne_of_lt hlt)

theorem Instruction.Dominates.eq_of_rank {only : Instruction} (h : inst.Dominates only)
    (hrank : inst.operation.rank ≤ only.operation.rank) : only = inst := by
  rcases h with heq | hlt
  · exact heq
  · exact absurd hrank (Nat.not_le_of_lt hlt)

/-- What counts as unchanged is the same instruction. -/
theorem Lowers.eq_of_isUnchanged {op : Operation} {qubits : List Nat}
    {lowered : List Instruction} (hvalid : (op.on qubits).Valid)
    (h : Lowers free (op.on qubits) lowered) (hsame : isUnchanged lowered op qubits = true) :
    lowered = [op.on qubits] := by
  unfold isUnchanged at hsame
  split at hsame
  · rename_i only
    rw [Bool.and_eq_true] at hsame
    rw [(h.dominates hvalid).eq_of_beq hsame.1]
  · cases hsame

theorem Lowers.length_expansion {g : Gate} {qubits : List Nat}
    {steps : List (Operation × List Nat)} {lists : List (List Instruction)}
    (hsteps : g.expansionSteps qubits = some steps)
    (hlists : List.Forall₂ (fun step list => (step.1.on step.2).Valid ∧
      Lowers free (step.1.on step.2) list) steps lists) : 2 ≤ lists.flatten.length := by
  obtain ⟨htwo, hkinds⟩ := isStep_of_expansionSteps hsteps
  refine Nat.le_trans htwo (length_le_length_flatten hlists fun step hstep list hlist => ?_)
  obtain ⟨depth, hdepth⟩ := hlist.2
  exact lowerWithin_ne_nil (hkinds step hstep).1 hdepth

end Lowers

namespace Lowers

variable {free : List Nat} {inst : Instruction} {n : Nat} {e : Exponent} {w : Operation}

/-- A gate that stays as it is has no expansion. -/
theorem stable_gate {g : Gate} (hop : inst.operation = .gate g) (h : Lowers free inst [inst]) :
    g.expansionSteps inst.qubits = none := by
  rcases h.of_gate hop with ⟨hnone, -⟩ | ⟨steps, lists, hsteps, hlists, hall⟩
  · exact hnone
  · have hlong := length_expansion hsteps hlists
    rw [← hall, List.length_singleton] at hlong
    omega

/-- Under an inverse that stays as it is, there is something that stays as it is, and is no
inverse, controlled or repeated operation. -/
theorem stable_inverted (hop : inst.operation = .inverted w) (h : Lowers free inst [inst]) :
    (w.on inst.qubits).Valid ∧ Lowers free (w.on inst.qubits) [w.on inst.qubits] ∧
      w.invert = .inverted w := by
  obtain ⟨hvalidW, lowered, hsub, hinverses⟩ := h.of_inverted hop
  obtain ⟨part, hsingle, hinverse⟩ := forall₂_singleton_right_iff.1 hinverses
  rw [List.reverse_eq_cons_iff, List.reverse_nil, List.nil_append] at hsingle
  subst hsingle
  have hdominates := hsub.dominates hvalidW
  have hle := hdominates.rank_le
  have hpositive := w.rank_pos
  rw [Operation.operation_on] at hle
  rcases inverse_cases hinverse with rfl | hinvert
  · rw [hop, Operation.rank] at hle
    omega
  · have hback : part.operation.invert = .inverted w := by
      rw [← hop, hinvert]
    rcases part.operation.rank_invert_lt with heq | hlt
    · have hw := Operation.inverted.inj (heq.symm.trans hback)
      have hwhole := hdominates.eq_of_rank (by rw [Operation.operation_on, hw])
      rw [hwhole] at hsub hback
      exact ⟨hvalidW, hsub, hback⟩
    · rw [hback, Operation.rank] at hlt
      omega

/-- No copies stay as they are. -/
theorem not_stable_repeated (hop : inst.operation = .repeated n w) :
    ¬Lowers free inst [inst] := by
  intro h
  obtain ⟨-, lists, hlists, hall⟩ := h.of_repeated hop
  have hmem := singleton_mem_of_flatten hall.symm
  refine forall_mem_of_forall₂ (P := fun list => list ≠ [inst]) hlists ?_ _ hmem rfl
  rintro block - list ⟨hvalid, hlowers⟩ rfl
  have hle := (hlowers.dominates hvalid).rank_le
  rw [hop, Operation.operation_on, Operation.rank] at hle
  omega

/-- A power that stays as it is is neither whole nor a known root. -/
theorem stable_powered (hvalid : inst.Valid) (hop : inst.operation = .powered e w)
    (hself : (w == w) = true) (h : Lowers free inst [inst]) :
    e.natural? = none ∧ w.root? e = none := by
  have hpositive := w.rank_pos
  have hrank : inst.operation.rank = 3 * w.rank := by rw [hop, Operation.rank]
  rcases h.of_powered hop with ⟨-, hall⟩ | ⟨m, lowered, -, hvalidW, hsub, hall⟩ |
    ⟨hnone, ⟨root, hroot, hvalidR, hsub⟩ | ⟨hroot, hvalidW, lowered, hsub, hcases⟩⟩
  · cases hall
  · -- twice something is not one instruction, and once has lost weight
    have hone := eq_one_of_flatten_replicate hall.symm
    rw [hone, List.replicate_one, List.flatten_singleton] at hall
    rw [← hall] at hsub
    have hle := (hsub.dominates hvalidW).rank_le
    rw [Operation.operation_on] at hle
    omega
  · have hle := (hsub.dominates hvalidR).rank_le
    cases w with
    | gate g =>
        have hroots := Gate.rank_of_root? hroot
        rw [Operation.operation_on] at hle
        simp only [Operation.rank] at hle hrank hpositive
        omega
    | _ => cases hroot
  · rcases hcases with - | ⟨only, powered, rfl, hchanged, hpowered, hvalidP, hagain⟩
    · exact ⟨hnone, hroot⟩
    · have honly := hsub.dominates hvalidW
      have hle := honly.rank_le
      have hinst : inst = powered.on only.qubits := by
        refine (hagain.dominates hvalidP).eq_of_rank ?_
        exact (dominates_power hvalid hop hvalidW honly hpowered).rank_le
      obtain ⟨-, rfl⟩ := Operation.power_eq_ok_iff.1 hpowered
      have hsame : only.operation.raise e = .powered e w := by
        rw [← hop, hinst, Operation.operation_on]
      rcases only.operation.rank_raise_lt e with heq | hlt
      · obtain ⟨-, hw⟩ := Operation.powered.inj (heq.symm.trans hsame)
        have hwhole := honly.eq_of_rank (by rw [Operation.operation_on, hw])
        rw [hwhole, isUnchanged_on, hself] at hchanged
        cases hchanged
      · rw [Operation.operation_on] at hle
        rw [hsame, Operation.rank] at hlt
        omega

/-- Controls that stay as they are: one on one qubit, two on X, and any on something else
that stays as it is. -/
theorem stable_controlled (hvalid : inst.Valid) (hop : inst.operation = .controlled n w)
    (hself : (w == w) = true) (h : Lowers free inst [inst]) :
    w.numQubits = 1 ∧ (n = 1 ∨ n = 2 ∧ w = .gate .x) ∨
    w.numQubits ≠ 1 ∧ (w.on (inst.qubits.drop n)).Valid ∧
      Lowers free (w.on (inst.qubits.drop n)) [w.on (inst.qubits.drop n)] := by
  have hcount := hvalid.length_take hop
  have hrank : inst.operation.rank = w.rank + 1 := by rw [hop, Operation.rank]
  rcases h.of_controlled hop with ⟨hone, -⟩ | ⟨hmany, hvalidW, lowered, hsub, hcases⟩
  · exact Or.inl ⟨hone.1, Or.inl hone.2⟩
  · rcases hcases with ⟨hsame, hcases⟩ | ⟨hchanged, hcontrolled⟩
    · obtain rfl := hsub.eq_of_isUnchanged hvalidW hsame
      rcases hcases with ⟨hfew, -⟩ | ⟨hqubit, hn, ⟨rfl, hx⟩ | ⟨-, hroot⟩⟩
      · right
        rw [hcount] at hfew
        exact ⟨fun hqubit => hmany ⟨hqubit, hfew.resolve_left (not_not_intro hqubit)⟩, hvalidW,
          hsub⟩
      · left
        refine ⟨rfl, Or.inr ⟨?_, rfl⟩⟩
        by_contra htwo
        by_cases hthree : 3 ≤ n
        · exact controlledX_ne_singleton (by omega) hx
        · obtain rfl : n = 0 := by omega
          obtain ⟨hsingle, -⟩ := Emission.apply_eq_done_iff.1 hx
          rw [List.singleton_inj.1 hsingle] at hop
          cases hop
      · by_cases hnone : n = 0
        · subst hnone
          obtain ⟨hsingle, -⟩ := Emission.apply_eq_done_iff.1 hroot
          rw [List.singleton_inj.1 hsingle] at hrank
          dsimp only at hrank
          omega
        · exact absurd hroot (rootLadder_ne_singleton (by rw [List.length_reverse]; omega))
    · obtain ⟨part, rfl, hcontrol⟩ := forall₂_singleton_right_iff.1 hcontrolled
      obtain ⟨-, -, -, hinst⟩ := controlInstruction_cases hcontrol
      have hpart := hsub.dominates hvalidW
      have hle := hpart.rank_le
      have hsame : part.operation.addControls n = .controlled n w := by
        rw [← hop, hinst, Operation.operation_on, hcount]
      rcases part.operation.rank_addControls_lt n with heq | hlt
      · obtain ⟨-, hw⟩ := Operation.controlled.inj (heq.symm.trans hsame)
        have hwhole := hpart.eq_of_rank (by rw [Operation.operation_on, hw])
        rw [hwhole, isUnchanged_on, hself] at hchanged
        cases hchanged
      · rw [Operation.operation_on] at hle
        rw [hsame, Operation.rank] at hlt
        omega

end Lowers

end GateAlgebra
