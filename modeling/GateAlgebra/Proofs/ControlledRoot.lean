import Mathlib.Data.ZMod.Basic
import GateAlgebra.Proofs.Modifier
import GateAlgebra.Proofs.Semantics
/-!
Controls by square roots.  The X gates between the roots borrow the target, which is
why they have to restore whatever it holds.
-/

namespace GateAlgebra

theorem Operation.rootAt_raise (op : Operation) (k : Nat) :
    (op.raise .half).rootAt k = op.rootAt (k + 1) := by
  induction k with
  | zero => rfl
  | succ k ih =>
      rw [rootAt, ih]
      rfl

theorem rootLadder_cons {op : Operation} (hunitary : op.isUnitary = true) {last target : Nat}
    {rest free : List Nat} (hrest : rest ≠ []) :
    rootLadder op (last :: rest) target free = .sequence [
      .build ((op.raise .half).control 1) fun controlled => .apply controlled [last, target],
      borrowingX rest.reverse last target free,
      .build ((op.raise .half).invert.control 1) fun controlled =>
        .apply controlled [last, target],
      borrowingX rest.reverse last target free,
      rootLadder (op.raise .half) rest target (free ++ [last])] := by
  obtain ⟨second, others, rfl⟩ := List.exists_cons_of_ne_nil hrest
  have hroot : (op.raise .half).isUnitary = true := by simp [hunitary]
  simp only [rootLadder, Operation.sqrt_eq_ok hunitary, Operation.inverse_eq_ok hroot,
    Emission.build_ok]

namespace Semantics

variable {R : Type*} [CommRing R] (S : Semantics R)

/-- The first `n` square roots of an operation square to what they are roots of and
are inverted by their inverses. -/
def HasRoots (op : Operation) (n : Nat) : Prop :=
  ∀ k, k < n →
    S.qubitMatrix (op.rootAt (k + 1)) * S.qubitMatrix (op.rootAt (k + 1)) =
      S.qubitMatrix (op.rootAt k) ∧
    S.qubitMatrix (op.rootAt (k + 1)).invert * S.qubitMatrix (op.rootAt (k + 1)) = 1

variable {S} in
theorem HasRoots.cons {op : Operation} {n : Nat}
    (hroot : S.qubitMatrix (op.raise .half) * S.qubitMatrix (op.raise .half) =
        S.qubitMatrix op ∧
      S.qubitMatrix (op.raise .half).invert * S.qubitMatrix (op.raise .half) = 1)
    (h : S.HasRoots (op.raise .half) n) : S.HasRoots op (n + 1) := by
  intro k hk
  cases k with
  | zero => exact hroot
  | succ k =>
      have hnext := h k (Nat.lt_of_succ_lt_succ hk)
      rwa [Operation.rootAt_raise, Operation.rootAt_raise] at hnext

variable {S} in
theorem HasRoots.tail {op : Operation} {n : Nat} (h : S.HasRoots op (n + 1)) :
    S.HasRoots (op.raise .half) n := by
  intro k hk
  rw [Operation.rootAt_raise, Operation.rootAt_raise]
  exact h (k + 1) (by omega)

/-- One control on one qubit. -/
theorem run_control_one {op : Operation} (hunitary : op.isUnitary = true)
    (hqubit : op.numQubits = 1) {control target : Nat} (hne : control ≠ target) :
    ∃ emitted,
      (Emission.build (op.control 1) fun controlled => .apply controlled [control, target]) =
        .done emitted ∧
      S.run emitted = ctrl [control] (select target fun _ => S.qubitMatrix op) := by
  have hnodup : [control, target].Nodup := by simp [hne]
  refine ⟨[⟨op.addControls 1, [control, target], [], []⟩], ?_, ?_⟩
  · rw [Operation.control_eq_ok Nat.one_pos hunitary, Emission.build_ok]
    exact Emission.apply_eq_done (by simp [hunitary]) (by simp [hqubit]) hnodup
  · rw [run_singleton, ← operator_qubit S hqubit]
    have hlength : [target].length = op.numQubits := by simp [hqubit]
    have happend : ([control] ++ [target]).Nodup := hnodup
    have hcontrol := S.operator_addControls hlength happend
    exact hcontrol

/-- The last control: with the root under the others, the square of the root comes under
all of them. -/
theorem run_rootLadder_cons {op : Operation} (hunitary : op.isUnitary = true)
    (hqubit : op.numQubits = 1) {last target : Nat} {rest free : List Nat} (hrest : rest ≠ [])
    (hnodup : (last :: rest ++ target :: free).Nodup)
    (hinverse : S.qubitMatrix (op.raise .half).invert * S.qubitMatrix (op.raise .half) = 1)
    {final : List Instruction}
    (hfinal : rootLadder (op.raise .half) rest target (free ++ [last]) = .done final)
    (hrunFinal : S.run final =
      ctrl rest (select target fun _ => S.qubitMatrix (op.raise .half))) :
    ∃ emitted, rootLadder op (last :: rest) target free = .done emitted ∧
      S.run emitted = ctrl (last :: rest) (select target fun _ =>
        S.qubitMatrix (op.raise .half) * S.qubitMatrix (op.raise .half)) := by
  let root := op.raise .half
  have hroot : root.isUnitary = true := by simp [root, hunitary]
  have hrootQubit : root.numQubits = 1 := by simp [root, hqubit]
  have hne : last ≠ target := by grind
  have hlast : last ∉ rest := by grind
  have htarget : target ∉ rest := by grind
  obtain ⟨first, hfirst, hrunFirst⟩ := S.run_control_one hroot hrootQubit hne
  have hunroot : root.invert.isUnitary = true := by simp [hroot]
  have hunrootQubit : root.invert.numQubits = 1 := by simp [hrootQubit]
  obtain ⟨middle, hmiddle, hrunMiddle⟩ := S.run_control_one hunroot hunrootQubit hne
  have hflips : (borrowingX rest.reverse last target free).Performs
      (rest.reverse ++ last :: target :: free) (toggle rest.reverse last) :=
    borrowingX_performs (by grind) (List.Subset.refl _)
  obtain ⟨flip, hflip, hrunFlip⟩ := S.run_of_performs hflips (toggle_mul_self (by grind))
  refine ⟨first ++ flip ++ middle ++ flip ++ final, ?_, ?_⟩
  · rw [rootLadder_cons hunitary hrest, hfirst, hmiddle, hflip, hfinal]
    simp only [Emission.sequence_cons, Emission.sequence_nil,
      Emission.done_andThen_done, List.append_nil, List.append_assoc]
  · have hreverse : toggle rest.reverse last = toggle rest last :=
      toggle_congr (by simp) last
    have hblock := root_block (R := R) hlast htarget (Ne.symm hne) hinverse
    have hcontrols : ∀ q, q ∈ rest ++ [last] ↔ q ∈ last :: rest := by grind
    simp only [run_append, hrunFirst, hrunMiddle, hrunFlip, hrunFinal, hreverse]
    rw [← ctrl_congr hcontrols, ← hblock]
    simp only [root, mul_assoc]

/-- The controls are taken from the last one on; the roots of the target meet in one
operation under all of them. -/
theorem run_rootLadder {op : Operation} (hunitary : op.isUnitary = true)
    (hqubit : op.numQubits = 1) {controls free : List Nat} {target : Nat}
    (hnodup : (controls ++ target :: free).Nodup)
    (hroots : S.HasRoots op (controls.length - 1)) :
    ∃ emitted, rootLadder op controls target free = .done emitted ∧
      S.run emitted = ctrl controls (select target fun _ => S.qubitMatrix op) := by
  induction controls generalizing op free with
  | nil =>
      refine ⟨[⟨op, [target], [], []⟩], ?_, ?_⟩
      · exact Emission.apply_eq_done hunitary (by simp [hqubit]) (by simp)
      · rw [run_singleton, operator_qubit S hqubit, ctrl_nil]
  | cons last rest ih =>
      cases hrest : rest with
      | nil =>
          subst hrest
          exact S.run_control_one hunitary hqubit (by grind)
      | cons second others =>
          rw [← hrest]
          have hsome : rest ≠ [] := by simp [hrest]
          have hpositive : 0 < rest.length := List.length_pos_iff.2 hsome
          obtain ⟨hsquare, hinverse⟩ :
              S.qubitMatrix (op.raise .half) * S.qubitMatrix (op.raise .half) =
                S.qubitMatrix op ∧
              S.qubitMatrix (op.raise .half).invert * S.qubitMatrix (op.raise .half) = 1 :=
            hroots 0 (by simpa using hpositive)
          have htail : S.HasRoots (op.raise .half) (rest.length - 1) := by
            apply HasRoots.tail
            rwa [Nat.sub_add_cancel hpositive]
          have hwidened : (rest ++ target :: (free ++ [last])).Nodup := by grind
          obtain ⟨final, hfinal, hrunFinal⟩ :=
            ih (by simpa using hunitary) (by simpa using hqubit) hwidened htail
          rw [← hsquare]
          exact S.run_rootLadder_cons hunitary hqubit hsome hnodup hinverse hfinal hrunFinal

/-- Controls by square roots do what the operation does under all of the controls. -/
theorem run_controlledRoot {op : Operation} (hunitary : op.isUnitary = true)
    (hqubit : op.numQubits = 1) {controls free : List Nat} {target : Nat}
    (hnodup : (controls ++ target :: free).Nodup)
    (hroots : S.HasRoots op (controls.length - 1)) :
    ∃ emitted, controlledRoot op controls target free = .done emitted ∧
      S.run emitted = ctrl controls (S.operator op [target]) := by
  have hreverse : (controls.reverse ++ target :: free).Nodup := by grind
  obtain ⟨emitted, hdone, hrun⟩ :=
    S.run_rootLadder hunitary hqubit hreverse (by simpa using hroots)
  refine ⟨emitted, hdone, ?_⟩
  rw [hrun, operator_qubit S hqubit]
  exact ctrl_congr (by simp) _

/-- X under controls is what it is by roots of X where nothing can be borrowed, and
by toggles elsewhere. -/
theorem run_controlledX {controls free : List Nat} {target : Nat}
    (hnodup : (controls ++ target :: free).Nodup)
    (hroots : S.HasRoots (.gate .x) (controls.length - 1)) :
    ∃ emitted, controlledX controls target free = .done emitted ∧
      S.run emitted = ctrl controls (S.operator (.gate .x) [target]) := by
  by_cases hborrow : controls.length ≤ 2 ∨ free ≠ []
  · have hperforms := controlledX_performs hborrow hnodup (List.Subset.refl _)
    obtain ⟨emitted, hdone, hrun⟩ :=
      S.run_of_performs hperforms (toggle_mul_self (by grind))
    refine ⟨emitted, hdone, ?_⟩
    rw [hrun, operator_x, ctrl_turn_toggle, List.append_nil]
  · simp only [not_or, ne_eq, not_not] at hborrow
    obtain ⟨hmany, rfl⟩ := hborrow
    have hroot : controlledX controls target [] =
        controlledRoot (.gate .x) controls target [] := by
      simp [controlledX, hmany]
    rw [hroot]
    exact S.run_controlledRoot rfl rfl hnodup hroots

/-- Under any semantics with the square roots that are taken, the block of square
roots is the operation on the target where all controls are one and nothing else.
The X gate is built that way if there is nothing to borrow. -/
theorem controlledRoot_denotes_control {op : Operation} (hunitary : op.isUnitary = true)
    (hqubit : op.numQubits = 1) {controls free : List Nat} {target : Nat}
    (hcontrols : controls.Nodup) (htarget : target ∉ controls) (hfree : free.Nodup)
    (hdisjoint : ∀ q ∈ free, q ∉ controls ∧ q ≠ target)
    (hroots : S.HasRoots op (controls.length - 1)) :
    (∃ emitted, controlledRoot op controls target free = .done emitted ∧
      S.run emitted = ctrl controls (S.operator op [target])) ∧
    (op = .gate .x → 3 ≤ controls.length → free = [] →
      controlledX controls target free = controlledRoot op controls target free ∧
      ∃ emitted, controlledX controls target free = .done emitted ∧
        S.run emitted = turn (toggle controls target)) := by
  have hnodup : (controls ++ target :: free).Nodup := by grind
  obtain ⟨emitted, hdone, hrun⟩ := S.run_controlledRoot hunitary hqubit hnodup hroots
  refine ⟨⟨emitted, hdone, hrun⟩, ?_⟩
  rintro rfl hmany rfl
  have hroot : controlledX controls target [] =
      controlledRoot (.gate .x) controls target [] := by
    simp [controlledX, show ¬controls.length ≤ 2 by omega]
  refine ⟨hroot, emitted, hroot.trans hdone, ?_⟩
  rw [hrun, operator_x, ctrl_turn_toggle, List.append_nil]

/-- The matrix with eigenvalues 1 and `w` that commutes with negation. -/
def negationRoot (w : ZMod 17) : BitMatrix (ZMod 17) 1 :=
  fun a b => if a = b then 9 * (1 + w) else 9 * (1 - w)

/-- Modulo 17, where -1 is the square of 4 and 4 that of 2, negation has a square root
and a fourth root.  No other operation does anything. -/
def negationDen : (op : Operation) → BitMatrix (ZMod 17) op.numQubits
  | .gate .x => negation (ZMod 17)
  | .controlled n w => blockControl n (negationDen w)
  | .powered e (.gate .x) => negationRoot (if e == .half then 4 else 2)
  | .inverted (.powered e (.gate .x)) => negationRoot (if e == .half then 13 else 9)
  | _ => 1

def negationRoots : Semantics (ZMod 17) where
  den := negationDen
  den_x := rfl
  den_controlled := fun _ _ => rfl

/-- Three controls and nothing to borrow. -/
theorem controlledRoot_denotes_control_x :
    negationRoots.HasRoots (.gate .x) 2 ∧
    (∃ emitted, controlledRoot (.gate .x) [0, 1, 2] 3 [] = .done emitted ∧
      negationRoots.run emitted =
        ctrl [0, 1, 2] (negationRoots.operator (.gate .x) [3])) ∧
    ((Operation.gate .x) = .gate .x → 3 ≤ [0, 1, 2].length → ([] : List Nat) = [] →
      controlledX [0, 1, 2] 3 [] = controlledRoot (.gate .x) [0, 1, 2] 3 [] ∧
      ∃ emitted, controlledX [0, 1, 2] 3 [] = .done emitted ∧
        negationRoots.run emitted = turn (toggle [0, 1, 2] 3)) := by
  have hroots : negationRoots.HasRoots (.gate .x) 2 := by
    intro k hk
    match k, hk with
    | 0, _ =>
        constructor
        · funext a b
          cases a <;> cases b <;> rfl
        · funext a b
          cases a <;> cases b <;> rfl
    | 1, _ =>
        constructor
        · funext a b
          cases a <;> cases b <;> decide +kernel
        · funext a b
          cases a <;> cases b <;> decide +kernel
  exact ⟨hroots, controlledRoot_denotes_control negationRoots rfl rfl (by decide)
    (by decide) (by decide) (by decide) hroots⟩

end Semantics

end GateAlgebra
