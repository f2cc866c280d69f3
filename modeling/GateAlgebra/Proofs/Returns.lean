import Mathlib.Logic.Relation
import GateAlgebra.Proofs.Calls
/-!
Which lowerings come to an end.  Every call within a lowering is on an operation of less
weight, or on the very same instruction again.  So lowering runs forever exactly if it
comes to an instruction that calls itself, and only a power of an operation that is not
equal to itself does.
-/

namespace GateAlgebra

section Step

open Emission

variable {free : List Nat} {depth : Nat} {inst : Instruction}

theorem finished_lowerOn {lower : Instruction → Emission} {op : Operation} {qubits : List Nat}
    (h : (op.on qubits).Valid → (lower (op.on qubits)).Finished) :
    (lowerOn lower op qubits).Finished := by
  refine finished_build fun part hpart => ?_
  obtain ⟨rfl, hvalid⟩ := Instruction.onQubits_eq_ok_iff.1 hpart
  exact h hvalid

theorem finished_lowerGate {g : Gate} (hop : inst.operation = .gate g)
    (h : ∀ other, Calls free inst other → (lowerWithin free depth other).Finished) :
    (lowerGate (lowerWithin free depth) inst g).Finished := by
  refine finished_build fun expansion hexpansion => ?_
  rcases expansion_eq_ok_iff.1 hexpansion with ⟨-, rfl⟩ | ⟨steps, hsteps, hvalid, rfl⟩
  · exact finished_done
  · dsimp only
    rw [List.map_map]
    refine finished_sequence fun before step after hsplit hbefore => ?_
    subst hsplit
    refine h _ (.step hop hsteps hvalid fun other hother => ?_)
    obtain ⟨lowered, hlowered⟩ := hbefore other hother
    exact ⟨lowered, depth, hlowered⟩

theorem finished_lowerRepeated {n : Nat} {w : Operation} (hop : inst.operation = .repeated n w)
    (h : ∀ other, Calls free inst other → (lowerWithin free depth other).Finished) :
    (lowerRepeated (lowerWithin free depth) w inst.qubits).Finished := by
  unfold lowerRepeated
  split
  · exact finished_failure _
  · rename_i hwidth
    refine finished_sequence fun before block after hblocks hbefore => ?_
    refine finished_lowerOn fun hvalid => h _ (.block hop hwidth hblocks hvalid ?_)
    intro other hother
    obtain ⟨lowered, hlowered⟩ := hbefore other hother
    obtain ⟨hvalid', hdone⟩ := lowerOn_eq_done_iff.1 hlowered
    exact ⟨hvalid', lowered, depth, hdone⟩

theorem finished_lowerPowered {e : Exponent} {w : Operation}
    (hop : inst.operation = .powered e w)
    (h : ∀ other, Calls free inst other → (lowerWithin free depth other).Finished) :
    (lowerPowered (lowerWithin free depth) inst e w).Finished := by
  rw [lowerPowered_eq]
  split
  · exact finished_done
  · rename_i n hpositive hn
    obtain ⟨m, rfl⟩ := Nat.exists_eq_succ_of_ne_zero hpositive
    exact finished_times (finished_lowerOn fun hvalid => h _ (.times hop hn hvalid)) _
  · rename_i hnone
    split
    · rename_i root hroot
      exact finished_lowerOn fun hvalid => h _ (.root hop hnone hroot hvalid)
    · rename_i hroot
      refine finished_whole
        (finished_lowerOn fun hvalid => h _ (.powered hop hnone hroot hvalid)) ?_
      intro lowered hlowered
      obtain ⟨hvalid, hdone⟩ := lowerOn_eq_done_iff.1 hlowered
      split
      · split
        · exact finished_done
        · rename_i only hchanged
          refine finished_bind fun powered hpowered => finished_lowerOn fun hvalid' => ?_
          exact h _ (.powerOf hop hnone hroot hvalid ⟨depth, hdone⟩ (by simpa using hchanged)
            (mapError_eq_ok_iff.1 hpowered) hvalid')
      · exact finished_done

theorem finished_lowerControlled {n : Nat} {w : Operation}
    (hop : inst.operation = .controlled n w)
    (h : ∀ other, Calls free inst other → (lowerWithin free depth other).Finished) :
    (lowerControlled (lowerWithin free depth) free inst n w).Finished := by
  unfold lowerControlled
  dsimp only
  split
  · exact finished_done
  · rename_i hmany
    refine finished_whole
      (finished_lowerOn fun hvalid => h _ (.controlled hop hmany hvalid)) fun lowered _ => ?_
    split
    · unfold lowerControlledLeaf
      split
      · exact finished_done
      · dsimp only
        split
        · exact finished_controlledX _ _ _
        · exact finished_controlledRoot _ _ _ _
    · refine finished_sequence fun _ part _ _ _ => ?_
      exact finished_bind fun _ _ => finished_apply _ _

/-- One level is finished if every call is. -/
theorem finished_lowerStep
    (h : ∀ other, Calls free inst other → (lowerWithin free depth other).Finished) :
    (lowerWithin free (depth + 1) inst).Finished := by
  rw [lowerWithin]
  unfold lowerStep
  split
  · rename_i g hop
    exact finished_lowerGate hop h
  · rename_i w hop
    refine finished_whole (finished_lowerOn fun hvalid => h _ (.inverted hop hvalid)) ?_
    intro lowered _
    exact finished_sequence fun _ _ _ _ _ => finished_bind fun _ _ => finished_done
  · rename_i n w hop
    exact finished_lowerRepeated hop h
  · rename_i e w hop
    exact finished_lowerPowered hop h
  · rename_i n w hop
    exact finished_lowerControlled hop h
  · exact finished_done

theorem not_finished_lowerOn {lower : Instruction → Emission} {op : Operation}
    {qubits : List Nat} (hvalid : (op.on qubits).Valid) (h : ¬(lower (op.on qubits)).Finished) :
    ¬(lowerOn lower op qubits).Finished := by
  rw [lowerOn_eq hvalid]
  exact h

/-- One level is not finished if some call is not. -/
theorem not_finished_lowerStep {other : Instruction} (hcalls : Calls free inst other)
    (h : ¬(lowerWithin free depth other).Finished) :
    ¬(lowerWithin free (depth + 1) inst).Finished := by
  rw [lowerWithin]
  cases hcalls with
  | @step g before after step hop hsteps hvalid hbefore =>
      have hexpansion := expansion_eq_ok_iff.2 (Or.inr ⟨_, hsteps, hvalid, rfl⟩)
      simp only [lowerStep, hop, lowerGate, hexpansion, build_ok, List.map_map]
      refine not_finished_sequence (fun earlier hearlier => ?_) h
      obtain ⟨lowered, hlowered⟩ := hbefore earlier hearlier
      exact (hlowered.at_depth depth).imp id fun hdone => ⟨lowered, hdone⟩
  | inverted hop hvalid =>
      simp only [lowerStep, hop, lowerInverted]
      exact not_finished_whole (not_finished_lowerOn hvalid h)
  | block hop hwidth hblocks hvalid hbefore =>
      simp only [lowerStep, hop, lowerRepeated, hwidth, if_false, hblocks]
      refine not_finished_sequence (fun earlier hearlier => ?_) (not_finished_lowerOn hvalid h)
      obtain ⟨hvalid', lowered, hlowered⟩ := hbefore earlier hearlier
      rcases hlowered.at_depth depth with hnot | hdone
      · exact Or.inl (not_finished_lowerOn hvalid' hnot)
      · exact Or.inr ⟨lowered, lowerOn_eq_done_iff.2 ⟨hvalid', hdone⟩⟩
  | times hop hn hvalid =>
      simp only [lowerStep, hop, lowerPowered_eq, hn]
      exact not_finished_times (not_finished_lowerOn hvalid h) _
  | root hop hnone hroot hvalid =>
      simp only [lowerStep, hop, lowerPowered_eq, hnone, hroot]
      exact not_finished_lowerOn hvalid h
  | powered hop hnone hroot hvalid =>
      simp only [lowerStep, hop, lowerPowered_eq, hnone, hroot]
      exact not_finished_whole (not_finished_lowerOn hvalid h)
  | @powerOf e w powered only hop hnone hroot hvalid hlowers hchanged hpowered hvalid' =>
      simp only [lowerStep, hop, lowerPowered_eq, hnone, hroot]
      rcases hlowers.at_depth depth with hnot | hdone
      · exact not_finished_whole (not_finished_lowerOn hvalid hnot)
      · rw [lowerOn_eq_done_iff.2 ⟨hvalid, hdone⟩, whole_done]
        simp only [hchanged, Bool.false_eq_true, if_false, hpowered, Except.mapError, bind_ok]
        exact not_finished_lowerOn hvalid' h
  | controlled hop hmany hvalid =>
      simp only [lowerStep, hop, lowerControlled, hmany, if_false]
      exact not_finished_whole (not_finished_lowerOn hvalid h)

end Step

section SelfCall

variable {free : List Nat} {inst : Instruction}

/-- The weight of its operation is depth enough for an instruction that comes to no
instruction that calls itself. -/
theorem finished_of_no_self_call {depth : Nat} (hvalid : inst.Valid)
    (hdepth : inst.operation.rank ≤ depth)
    (h : ∀ other, Relation.ReflTransGen (Calls free) inst other → ¬Calls free other other) :
    (lowerWithin free depth inst).Finished := by
  induction depth generalizing inst with
  | zero =>
      have hpositive := inst.operation.rank_pos
      omega
  | succ depth ih =>
      refine finished_lowerStep fun other hcalls => ?_
      have hless : other.operation.rank < inst.operation.rank := by
        rcases hcalls.dominates hvalid with rfl | hlt
        · exact absurd hcalls (h _ .refl)
        · exact hlt
      exact ih hcalls.valid (by omega) fun last hlast => h last (.head hcalls hlast)

theorem not_finished_of_self_call (h : Calls free inst inst) (depth : Nat) :
    ¬(lowerWithin free depth inst).Finished := by
  induction depth with
  | zero => exact Emission.not_finished_unfinished
  | succ depth ih => exact not_finished_lowerStep h ih

/-- No depth is enough for an instruction that comes to one that calls itself. -/
theorem not_finished_of_reaches {other : Instruction}
    (h : Relation.ReflTransGen (Calls free) inst other) (hself : Calls free other other)
    (depth : Nat) : ¬(lowerWithin free depth inst).Finished := by
  induction h using Relation.ReflTransGen.head_induction_on generalizing depth with
  | refl => exact not_finished_of_self_call hself depth
  | head hcalls _ ih =>
      cases depth with
      | zero => exact Emission.not_finished_unfinished
      | succ depth => exact not_finished_lowerStep hcalls (ih depth)

/-- A power of an operation that has no rule and is not equal to itself. -/
structure Instruction.Stalls (free : List Nat) (inst : Instruction) (e : Exponent)
    (w : Operation) : Prop where
  operation_eq : inst.operation = .powered e w
  natural?_eq : e.natural? = none
  root?_eq : w.root? e = none
  unitary : w.isUnitary = true
  raise_eq : w.raise e = .powered e w
  lowers : Lowers free (w.on inst.qubits) [w.on inst.qubits]
  differs : (w == w) = false

/-- Only such a power calls itself. -/
theorem calls_self_iff (hvalid : inst.Valid) :
    Calls free inst inst ↔ ∃ e w, inst.Stalls free e w := by
  constructor
  · intro h
    rcases h.rank_lt_or with hlt | ⟨e, w, powered, only, hop, hnone, hroot, hvalidW, hlowers,
      hchanged, hpowered, hinst⟩
    · exact absurd hlt (Nat.lt_irrefl _)
    · obtain ⟨hunitary, rfl⟩ := Operation.power_eq_ok_iff.1 hpowered
      have hsame : only.operation.raise e = .powered e w :=
        (congrArg Instruction.operation hinst).symm.trans hop
      have honly : only = w.on inst.qubits := by
        obtain ⟨depth, hdepth⟩ := id hlowers
        rcases dominates_of_lowerWithin hvalidW hdepth with heq | hlt
        · exact heq
        · have hle := only.operation.rank_raise_le e
          rw [hsame] at hle
          simp only [Operation.operation_on, Operation.rank] at hlt hle
          omega
      subst honly
      refine ⟨e, w, hop, hnone, hroot, hunitary, hsame, hlowers, ?_⟩
      simpa [isUnchanged] using hchanged
  · rintro ⟨e, w, h⟩
    have hop := h.operation_eq
    have harity := Operation.arity_of_isUnitary h.unitary
    have hinst : inst = (Operation.powered e w).on inst.qubits := by
      refine hvalid.eq_on hop ?_ ?_
      · simp only [Operation.arity, harity, Arity.onQubits]
      · simp only [Operation.arity, harity, Arity.onQubits]
    have hlength : inst.qubits.length = w.numQubits := by
      rw [hvalid.qubits_length, hop]
      rfl
    have hvalidW : (w.on inst.qubits).Valid :=
      Instruction.valid_of_isUnitary h.unitary hlength hvalid.qubits_nodup
    have hpowered : w.power e = .ok (.powered e w) :=
      Operation.power_eq_ok_iff.2 ⟨h.unitary, h.raise_eq.symm⟩
    have hchanged : isUnchanged [w.on inst.qubits] w inst.qubits = false := by
      rw [isUnchanged_on, h.differs]
    rw [hinst] at hvalid
    have hcalls := Calls.powerOf hop h.natural?_eq h.root?_eq hvalidW h.lowers hchanged hpowered
      hvalid
    rwa [Operation.qubits_on, ← hinst] at hcalls

theorem valid_of_reaches {other : Instruction} (hvalid : inst.Valid)
    (h : Relation.ReflTransGen (Calls free) inst other) : other.Valid := by
  cases h with
  | refl => exact hvalid
  | tail _ hcalls => exact hcalls.valid

end SelfCall

section Overflow

/-- A product of two exponents that no double holds. -/
def overflowed : Exponent :=
  .real 1e308 * .real 1e308

/-- No turn at all, taken back, after it was raised too high. -/
def overflowedTurn : Operation :=
  .inverted (.powered overflowed (.gate (.rx (.real 0))))

/-- A turn by zero times infinity. -/
def undefinedGate : Gate :=
  .rx (.real (1e308 * 1e308 * 0))

def undefinedTurn : Operation :=
  .inverted (.gate undefinedGate)

theorem neither_one_nor_whole :
    ∀ e ∈ [Exponent.real 1e308, overflowed, overflowed * .half],
      e.isOne = false ∧ e.natural? = none := by
  decide +kernel

theorem valid_undefinedGate : ((Operation.gate undefinedGate).on [0]).Valid :=
  Instruction.valid_of_isUnitary rfl rfl (List.nodup_singleton 0)

theorem built_root_overflowedTurn : (Operation.powered .half overflowedTurn).Built := by
  obtain ⟨⟨hlarge, -⟩, ⟨hproduct, -⟩, -⟩ := by simpa using neither_one_nor_whole
  have honce : (Operation.gate (.rx (.real 0))).raise (.real 1e308) =
      .powered (.real 1e308) (.gate (.rx (.real 0))) :=
    Operation.raise_eq_powered hlarge (by simp [Operation.kind])
  have htwice : (Operation.powered (.real 1e308) (.gate (.rx (.real 0)))).raise (.real 1e308) =
      .powered overflowed (.gate (.rx (.real 0))) := by
    rw [Operation.raise, if_neg (by simp [hlarge])]
    exact Operation.raise_eq_powered hproduct (by simp [Operation.kind])
  have hroot : overflowedTurn.raise .half = .powered .half overflowedTurn :=
    Operation.raise_eq_powered rfl (by simp [Operation.kind, overflowedTurn])
  have hbuilt : (Operation.powered overflowed (.gate (.rx (.real 0)))).Built :=
    .power (.power (.gate _) (Operation.power_eq_ok_iff.2 ⟨rfl, honce.symm⟩))
      (Operation.power_eq_ok_iff.2 ⟨rfl, htwice.symm⟩)
  exact .power (.inverse hbuilt (Operation.inverse_eq_ok rfl))
    (Operation.power_eq_ok_iff.2 ⟨rfl, hroot.symm⟩)

theorem lowers_undefinedTurn : Lowers [] (undefinedTurn.on [0]) [undefinedTurn.on [0]] := by
  have hgate : Lowers [] ((Operation.gate undefinedGate).on [0])
      [(Operation.gate undefinedGate).on [0]] := lowers_gate rfl
  exact hgate.inverted valid_undefinedGate rfl

theorem lowers_overflowedTurn : Lowers [] (overflowedTurn.on [0]) [undefinedTurn.on [0]] := by
  have hgate : Lowers [] ((Operation.gate undefinedGate).on [0])
      [(Operation.gate undefinedGate).on [0]] := lowers_gate rfl
  have hroot : Lowers [] ((Operation.powered overflowed (.gate (.rx (.real 0)))).on [0])
      [(Operation.gate undefinedGate).on [0]] :=
    hgate.root (neither_one_nor_whole _ (by simp)).2 rfl valid_undefinedGate
  exact hroot.inverted (Instruction.valid_of_isUnitary rfl rfl (List.nodup_singleton 0)) rfl

theorem stalls_root_undefinedTurn :
    ((Operation.powered .half undefinedTurn).on [0]).Stalls [] .half undefinedTurn where
  operation_eq := rfl
  natural?_eq := rfl
  root?_eq := rfl
  unitary := rfl
  raise_eq := Operation.raise_eq_powered rfl
    (by simp [Operation.kind, undefinedTurn])
  lowers := lowers_undefinedTurn
  differs := by decide +kernel

end Overflow

section Returns

variable {free : List Nat} {inst : Instruction}

/-- Lowering comes to an end, and then the weight of the operation is depth enough, exactly
if it comes to no power that would be taken of the same operation again and again: a power
without a rule, of an operation that lowers to itself but is not equal to itself. -/
theorem returns_iff_reaches_no_stall (hvalid : inst.Valid) :
    (Returns free inst ↔
      ∀ other e w, Relation.ReflTransGen (Calls free) inst other → ¬other.Stalls free e w) ∧
    (Returns free inst ↔ (lowerWithin free inst.operation.rank inst).Finished) ∧
    (∀ other, Relation.ReflTransGen (Calls free) inst other →
      (Calls free other other ↔ ∃ e w, other.Stalls free e w)) := by
  have hself : ∀ other, Relation.ReflTransGen (Calls free) inst other →
      (Calls free other other ↔ ∃ e w, other.Stalls free e w) :=
    fun other hother => calls_self_iff (valid_of_reaches hvalid hother)
  have henough : (∀ other e w, Relation.ReflTransGen (Calls free) inst other →
      ¬other.Stalls free e w) → (lowerWithin free inst.operation.rank inst).Finished := by
    intro h
    refine finished_of_no_self_call hvalid (Nat.le_refl _) fun other hother hcalls => ?_
    obtain ⟨e, w, hstalls⟩ := (hself other hother).1 hcalls
    exact h other e w hother hstalls
  have hnone : Returns free inst → ∀ other e w,
      Relation.ReflTransGen (Calls free) inst other → ¬other.Stalls free e w := by
    rintro ⟨depth, hdepth⟩ other e w hother hstalls
    exact not_finished_of_reaches hother ((hself other hother).2 ⟨e, w, hstalls⟩) depth hdepth
  refine ⟨⟨hnone, fun h => ⟨_, henough h⟩⟩, ⟨fun h => henough (hnone h), fun h => ⟨_, h⟩⟩, hself⟩

/-- A turn by no number comes to an end, as long as no power is taken of it. -/
theorem undefinedTurn_reaches_no_stall :
    (undefinedTurn.on [0]).Valid ∧
    ∀ other e w, Relation.ReflTransGen (Calls []) (undefinedTurn.on [0]) other →
      ¬other.Stalls [] e w := by
  have hvalid : (undefinedTurn.on [0]).Valid :=
    Instruction.valid_of_isUnitary rfl rfl (List.nodup_singleton 0)
  exact ⟨hvalid, (returns_iff_reaches_no_stall hvalid).1.1 lowers_undefinedTurn.returns⟩

/-- Lowering never comes to an end on a square root that is put together from one turn: it
takes the square root of a turn by no number again and again. -/
theorem root_overflowedTurn_never_returns :
    (Operation.powered .half overflowedTurn).Built ∧
    ((Operation.powered .half overflowedTurn).on [0]).Valid ∧
    ¬Returns [] ((Operation.powered .half overflowedTurn).on [0]) ∧
    Calls [] ((Operation.powered .half undefinedTurn).on [0])
      ((Operation.powered .half undefinedTurn).on [0]) := by
  have hturn : (overflowedTurn.on [0]).Valid :=
    Instruction.valid_of_isUnitary rfl rfl (List.nodup_singleton 0)
  have hundefined : ((Operation.powered .half undefinedTurn).on [0]).Valid :=
    Instruction.valid_of_isUnitary rfl rfl (List.nodup_singleton 0)
  have hpowered : undefinedTurn.power .half = .ok (.powered .half undefinedTurn) :=
    Operation.power_eq_ok_iff.2 ⟨rfl, stalls_root_undefinedTurn.raise_eq.symm⟩
  have hnatural : Exponent.half.natural? = none := rfl
  have hchanged : isUnchanged [undefinedTurn.on [0]] overflowedTurn [0] = false := rfl
  have hop : ((Operation.powered .half overflowedTurn).on [0]).operation =
      .powered .half overflowedTurn := rfl
  have hcalls := Calls.powerOf hop hnatural rfl hturn lowers_overflowedTurn hchanged hpowered
    hundefined
  have hself : Calls [] ((Operation.powered .half undefinedTurn).on [0])
      ((Operation.powered .half undefinedTurn).on [0]) :=
    (calls_self_iff hundefined).2 ⟨_, _, stalls_root_undefinedTurn⟩
  refine ⟨built_root_overflowedTurn, ?_, ?_, hself⟩
  · exact Instruction.valid_of_isUnitary rfl rfl (List.nodup_singleton 0)
  · rintro ⟨depth, hdepth⟩
    exact not_finished_of_reaches (.single hcalls) hself depth hdepth

end Returns

end GateAlgebra
