import GateAlgebra.Proofs.Finished
import GateAlgebra.Proofs.LowerSingle
/-!
Calls of lowering.  Lowering has the same end at every depth that is enough, so it is a
matter of the instruction alone which others it calls itself on.
-/

namespace GateAlgebra

/-- Lowering comes to an end with all of its instructions. -/
def Lowers (free : List Nat) (inst : Instruction) (lowered : List Instruction) : Prop :=
  ∃ depth, lowerWithin free depth inst = .done lowered

/-- Lowering comes to an end, or to a failure. -/
def Returns (free : List Nat) (inst : Instruction) : Prop :=
  ∃ depth, (lowerWithin free depth inst).Finished

section Depth

variable {lower lower' : Instruction → Emission} {free : List Nat} {inst : Instruction}

theorem refines_lowerOn (h : ∀ part, (lower part).Refines (lower' part)) (op : Operation)
    (qubits : List Nat) : (lowerOn lower op qubits).Refines (lowerOn lower' op qubits) :=
  Emission.refines_build h

theorem refines_lowerStep (h : ∀ part, (lower part).Refines (lower' part)) :
    (lowerStep lower free inst).Refines (lowerStep lower' free inst) := by
  have hon := refines_lowerOn h
  unfold lowerStep
  split
  · refine Emission.refines_build fun expansion => ?_
    cases expansion with
    | none => exact Emission.refines_refl _
    | some steps => exact Emission.refines_sequence h
  · exact Emission.refines_whole (hon _ _) fun _ => Emission.refines_refl _
  · unfold lowerRepeated
    split
    · exact Emission.refines_refl _
    · exact Emission.refines_sequence (hon _)
  · unfold lowerPowered
    split
    · exact Emission.refines_refl _
    · exact Emission.refines_times (hon _ _) _
    · dsimp only
      split
      · exact hon _ _
      · refine Emission.refines_whole (hon _ _) fun lowered => ?_
        split
        · split
          · exact Emission.refines_refl _
          · exact Emission.refines_bind fun powered => hon _ _
        · exact Emission.refines_refl _
  · unfold lowerControlled
    dsimp only
    split
    · exact Emission.refines_refl _
    · refine Emission.refines_whole (hon _ _) fun lowered => ?_
      exact Emission.refines_refl _
  · exact Emission.refines_refl _

theorem refines_lowerWithin (free : List Nat) (depth : Nat) (inst : Instruction) :
    (lowerWithin free depth inst).Refines (lowerWithin free (depth + 1) inst) := by
  induction depth generalizing inst with
  | zero => exact fun h => absurd h Emission.not_finished_unfinished
  | succ depth ih => exact refines_lowerStep ih

/-- More depth never changes a lowering that came to its end. -/
theorem lowerWithin_of_le {depth deeper : Nat} (hle : depth ≤ deeper)
    (h : (lowerWithin free depth inst).Finished) :
    lowerWithin free deeper inst = lowerWithin free depth inst := by
  induction deeper, hle using Nat.le_induction with
  | base => rfl
  | succ deeper _ ih =>
      rw [← ih] at h
      rw [refines_lowerWithin free deeper inst h, ih]

/-- Whatever the depth, a lowering has the same end or none. -/
theorem Lowers.at_depth {lowered : List Instruction} (h : Lowers free inst lowered)
    (depth : Nat) : ¬(lowerWithin free depth inst).Finished ∨
      lowerWithin free depth inst = .done lowered := by
  obtain ⟨enough, henough⟩ := h
  by_cases hfinished : (lowerWithin free depth inst).Finished
  · right
    rcases Nat.le_total depth enough with hle | hle
    · rw [← lowerWithin_of_le hle hfinished, henough]
    · have hend : (lowerWithin free enough inst).Finished := by
        rw [henough]
        exact Emission.finished_done
      rw [lowerWithin_of_le hle hend, henough]
  · exact Or.inl hfinished

theorem Lowers.returns {lowered : List Instruction} (h : Lowers free inst lowered) :
    Returns free inst := by
  obtain ⟨depth, hdepth⟩ := h
  refine ⟨depth, ?_⟩
  rw [hdepth]
  exact Emission.finished_done

theorem lowers_gate {g : Gate} {qubits : List Nat} (h : g.expansion qubits = .ok none) :
    Lowers free ((Operation.gate g).on qubits) [(Operation.gate g).on qubits] := by
  refine ⟨1, ?_⟩
  rw [lowerWithin]
  simp only [lowerStep, Operation.operation_on, Operation.qubits_on, lowerGate, h,
    Emission.build_ok]

theorem Lowers.inverted {w : Operation} {qubits : List Nat} {only inverse : Instruction}
    (hvalid : (w.on qubits).Valid) (h : Lowers free (w.on qubits) [only])
    (hinverse : only.inverse = .ok inverse) :
    Lowers free ((Operation.inverted w).on qubits) [inverse] := by
  obtain ⟨depth, hdepth⟩ := h
  refine ⟨depth + 1, ?_⟩
  rw [lowerWithin]
  simp only [lowerStep, Operation.operation_on, Operation.qubits_on, lowerInverted,
    lowerOn_eq_done_iff.2 ⟨hvalid, hdepth⟩, Emission.whole_done, List.reverse_singleton,
    List.map_singleton, hinverse, Except.mapError, Emission.bind_ok]
  rfl

theorem Lowers.root {w : Operation} {e : Exponent} {root : Gate} {qubits : List Nat}
    {lowered : List Instruction} (hnone : e.natural? = none) (hroot : w.root? e = some root)
    (hvalid : ((Operation.gate root).on qubits).Valid)
    (h : Lowers free ((Operation.gate root).on qubits) lowered) :
    Lowers free ((Operation.powered e w).on qubits) lowered := by
  obtain ⟨depth, hdepth⟩ := h
  refine ⟨depth + 1, ?_⟩
  rw [lowerWithin]
  simp only [lowerStep, Operation.operation_on, Operation.qubits_on, lowerPowered_eq, hnone,
    hroot, lowerOn_eq_done_iff.2 ⟨hvalid, hdepth⟩]

end Depth

/-- The instructions that lowering of an instruction calls itself on. -/
inductive Calls (free : List Nat) (inst : Instruction) : Instruction → Prop where
  /-- A step of a gate, after those before it. -/
  | step {g : Gate} {before after : List (Operation × List Nat)} {step : Operation × List Nat}
      (hop : inst.operation = .gate g)
      (hsteps : g.expansionSteps inst.qubits = some (before ++ step :: after))
      (hvalid : ∀ other ∈ before ++ step :: after, (other.1.on other.2).Valid)
      (hbefore : ∀ other ∈ before, ∃ lowered, Lowers free (other.1.on other.2) lowered) :
      Calls free inst (step.1.on step.2)
  /-- What is inverted. -/
  | inverted {w : Operation} (hop : inst.operation = .inverted w)
      (hvalid : (w.on inst.qubits).Valid) : Calls free inst (w.on inst.qubits)
  /-- A block, after those before it. -/
  | block {n : Nat} {w : Operation} {before after : List (List Nat)} {block : List Nat}
      (hop : inst.operation = .repeated n w) (hwidth : w.numQubits ≠ 0)
      (hblocks : blocks w.numQubits inst.qubits inst.qubits.length = before ++ block :: after)
      (hvalid : (w.on block).Valid)
      (hbefore : ∀ other ∈ before,
        (w.on other).Valid ∧ ∃ lowered, Lowers free (w.on other) lowered) :
      Calls free inst (w.on block)
  /-- What is repeated by a whole power. -/
  | times {e : Exponent} {w : Operation} {n : Nat} (hop : inst.operation = .powered e w)
      (hn : e.natural? = some (n + 1)) (hvalid : (w.on inst.qubits).Valid) :
      Calls free inst (w.on inst.qubits)
  /-- The gate that a power is. -/
  | root {e : Exponent} {w : Operation} {root : Gate} (hop : inst.operation = .powered e w)
      (hnone : e.natural? = none) (hroot : w.root? e = some root)
      (hvalid : ((Operation.gate root).on inst.qubits).Valid) :
      Calls free inst ((Operation.gate root).on inst.qubits)
  /-- What any other power is a power of. -/
  | powered {e : Exponent} {w : Operation} (hop : inst.operation = .powered e w)
      (hnone : e.natural? = none) (hroot : w.root? e = none)
      (hvalid : (w.on inst.qubits).Valid) : Calls free inst (w.on inst.qubits)
  /-- The power of the one instruction that this is lowered to, if it is another one. -/
  | powerOf {e : Exponent} {w powered : Operation} {only : Instruction}
      (hop : inst.operation = .powered e w) (hnone : e.natural? = none)
      (hroot : w.root? e = none) (hvalid : (w.on inst.qubits).Valid)
      (hlowers : Lowers free (w.on inst.qubits) [only])
      (hchanged : isUnchanged [only] w inst.qubits = false)
      (hpowered : only.operation.power e = .ok powered)
      (hvalid' : (powered.on only.qubits).Valid) : Calls free inst (powered.on only.qubits)
  /-- What is controlled, unless it is one qubit under one control. -/
  | controlled {n : Nat} {w : Operation} (hop : inst.operation = .controlled n w)
      (hmany : ¬(w.numQubits = 1 ∧ n = 1)) (hvalid : (w.on (inst.qubits.drop n)).Valid) :
      Calls free inst (w.on (inst.qubits.drop n))

section Weight

variable {free : List Nat} {inst other : Instruction}

theorem Calls.valid (h : Calls free inst other) : other.Valid := by
  cases h with
  | step _ _ hvalid _ => exact hvalid _ (by simp)
  | _ => assumption

/-- A call is on less, unless it takes the power of an instruction once more. -/
theorem Calls.rank_lt_or (h : Calls free inst other) :
    other.operation.rank < inst.operation.rank ∨
      ∃ e w powered only, inst.operation = .powered e w ∧ e.natural? = none ∧
        w.root? e = none ∧ (w.on inst.qubits).Valid ∧ Lowers free (w.on inst.qubits) [only] ∧
        isUnchanged [only] w inst.qubits = false ∧ only.operation.power e = .ok powered ∧
        other = powered.on only.qubits := by
  cases h with
  | step hop hsteps hvalid hbefore =>
      left
      rw [hop]
      exact Operation.rank_of_expansionSteps hsteps _ (by simp)
  | @inverted w hop hvalid =>
      have hpositive := w.rank_pos
      left
      rw [hop]
      simp only [Operation.operation_on, Operation.rank]
      omega
  | block hop =>
      left
      rw [hop]
      exact Nat.lt_succ_self _
  | @times e w n hop =>
      have hpositive := w.rank_pos
      left
      rw [hop]
      simp only [Operation.operation_on, Operation.rank]
      omega
  | @root e w root hop hnone hroot =>
      left
      cases w with
      | gate g =>
          have hpositive := g.rank_pos
          have hle := Gate.rank_of_root? hroot
          rw [hop]
          simp only [Operation.operation_on, Operation.rank]
          omega
      | _ => cases hroot
  | @powered e w hop =>
      have hpositive := w.rank_pos
      left
      rw [hop]
      simp only [Operation.operation_on, Operation.rank]
      omega
  | powerOf hop hnone hroot hvalid hlowers hchanged hpowered =>
      exact Or.inr ⟨_, _, _, _, hop, hnone, hroot, hvalid, hlowers, hchanged, hpowered, rfl⟩
  | controlled hop =>
      left
      rw [hop]
      exact Nat.lt_succ_self _

/-- A call is on the same instruction or on less. -/
theorem Calls.dominates (h : Calls free inst other) (hinst : inst.Valid) :
    inst.Dominates other := by
  rcases h.rank_lt_or with hlt | ⟨e, w, powered, only, hop, -, -, hvalid, ⟨depth, hdepth⟩, -,
    hpowered, rfl⟩
  · exact Or.inr hlt
  · exact dominates_power hinst hop hvalid (dominates_of_lowerWithin hvalid hdepth) hpowered

end Weight

end GateAlgebra
