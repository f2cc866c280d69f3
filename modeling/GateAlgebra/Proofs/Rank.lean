import Mathlib.Tactic.Common
import GateAlgebra.Lowering.Lower
/-!
Ranks of operations.  A modifier that the modifier algebra simplifies weighs less than
one that it puts on top.
-/

namespace GateAlgebra

theorem Gate.rank_pos (g : Gate) : 0 < g.rank := by
  cases g <;> simp [rank]

/-- The families of gates at an angle in which known roots stay. -/
def Gate.families : List (Scalar → Gate) :=
  [rx, ry, rz, rxx, ryy, rzz, p]

theorem Gate.parameters_of_mem_families {family : Scalar → Gate} (h : family ∈ families)
    (s : Scalar) : (family s).parameters = [s] := by
  simp only [families, List.mem_cons, List.not_mem_nil, or_false] at h
  rcases h with rfl | rfl | rfl | rfl | rfl | rfl | rfl <;> rfl

/-- A known root is a fixed gate, as the gate is, or in the family of the gate, at a share of
an angle that is admitted. -/
theorem Gate.eq_of_root? {g root : Gate} {e : Exponent} (h : g.root? e = some root) :
    (g, root) ∈ [(i, i), (x, sx), (z, s), (z, t), (s, t)] ∨
      ∃ family ∈ families, ∃ angle v, g = family angle ∧ angle.real? = some v ∧
        root = family (.real (e.toFloat * v)) ∧
        (BranchCut.double.admitsRotation v = true ∨ BranchCut.double.admitsPhase v = true) := by
  cases g
  all_goals
    simp only [root?, rootBy, scaledAngle, KnownRoot.toGate, Option.map_eq_some_iff,
      Option.bind_eq_bind, Option.bind_eq_some_iff, Option.ite_none_right_eq_some,
      Option.some.injEq, reduceCtorEq] at h
  case rx | ry | rz | rxx | ryy | rzz =>
    obtain ⟨_, ⟨_, ⟨v, hv, hadmits, rfl⟩, rfl⟩, rfl⟩ := h
    exact Or.inr ⟨_, by simp [families], _, v, rfl, hv, rfl, Or.inl hadmits⟩
  case p =>
    obtain ⟨_, ⟨_, ⟨v, hv, hadmits, rfl⟩, rfl⟩, rfl⟩ := h
    exact Or.inr ⟨p, by simp [families], _, v, rfl, hv, rfl, Or.inr hadmits⟩
  all_goals
    left
    grind

/-- What is the same for a gate and a known root when the gates of a family agree on it. -/
theorem Gate.congr_of_root? {α : Type} (f : Gate → α) {g root : Gate} {e : Exponent}
    (h : g.root? e = some root) (hi : f x = f sx) (hz : f z = f s) (ht : f z = f t)
    (hfamily : ∀ family ∈ families, ∀ a b, f (family a) = f (family b)) : f root = f g := by
  rcases eq_of_root? h with hplain | ⟨family, hmem, angle, v, rfl, -, rfl, -⟩
  · simp only [List.mem_cons, Prod.mk.injEq, List.not_mem_nil, or_false] at hplain
    rcases hplain with ⟨rfl, rfl⟩ | ⟨rfl, rfl⟩ | ⟨rfl, rfl⟩ | ⟨rfl, rfl⟩ | ⟨rfl, rfl⟩
    all_goals simp_all
  · exact hfamily family hmem _ _

/-- Powers of gates that are gates weigh no more. -/
theorem Gate.rank_of_root? {g root : Gate} {e : Exponent} (h : g.root? e = some root) :
    root.rank ≤ g.rank :=
  Nat.le_of_eq (congr_of_root? rank h rfl rfl rfl (by simp [families, rank]))

/-- Powers of gates that are gates act on as many qubits. -/
theorem Gate.numQubits_of_root? {g root : Gate} {e : Exponent} (h : g.root? e = some root) :
    root.numQubits = g.numQubits :=
  congr_of_root? numQubits h rfl rfl rfl (by simp [families, numQubits])

namespace Operation

theorem rank_pos (op : Operation) : 0 < op.rank := by
  induction op with
  | gate g => exact g.rank_pos
  | controlled n w ih => exact Nat.succ_pos _
  | repeated n w ih => exact Nat.succ_pos _
  | inverted w ih => exact Nat.mul_pos Nat.two_pos ih
  | powered e w ih => exact Nat.mul_pos (Nat.succ_pos 2) ih
  | _ => exact Nat.one_pos

/-- Every step of an expansion weighs less than the gate. -/
theorem rank_of_expansionSteps {g : Gate} {qubits : List Nat}
    {steps : List (Operation × List Nat)} (h : g.expansionSteps qubits = some steps) :
    ∀ step ∈ steps, step.1.rank < g.rank := by
  cases g <;> simp only [Gate.expansionSteps, reduceCtorEq, Option.some.injEq] at h
  all_goals
    subst h
    simp [rank, Gate.rank, cx, sdg, controlledGate, invertedGate]

theorem rank_raise_le (op : Operation) (e : Exponent) : (op.raise e).rank ≤ 3 * op.rank := by
  fun_induction raise e op with
  | case1 op => omega
  | case2 e hone p w ih | case3 e hone n w ih | case4 e hone n w ih =>
      simp only [rank]
      omega
  | case5 e hone op => exact Nat.le_refl (3 * op.rank)

/-- A power is put on top, or weighs less than one that is. -/
theorem rank_raise_lt (op : Operation) (e : Exponent) :
    op.raise e = powered e op ∨ (op.raise e).rank < 3 * op.rank := by
  fun_cases raise e op with
  | case1 hone =>
      right
      have hpositive := op.rank_pos
      omega
  | case2 hone p w =>
      right
      have hinner := w.rank_raise_le (p * e)
      have hpositive := w.rank_pos
      simp only [rank]
      omega
  | case3 hone n w | case4 hone n w =>
      right
      have hinner := w.rank_raise_le e
      simp only [rank]
      omega
  | case5 => exact Or.inl rfl

theorem rank_invert_le (op : Operation) : op.invert.rank ≤ 2 * op.rank := by
  induction op with
  | controlled n w ih | repeated n w ih =>
      simp only [invert, rank]
      omega
  | _ =>
      simp only [invert, rank]
      omega

theorem rank_invert_lt (op : Operation) :
    op.invert = inverted op ∨ op.invert.rank < 2 * op.rank := by
  cases op with
  | inverted w =>
      right
      have hpositive := w.rank_pos
      simp only [invert, rank]
      omega
  | controlled n w | repeated n w =>
      right
      have hinner := w.rank_invert_le
      simp only [invert, rank]
      omega
  | _ => exact Or.inl rfl

theorem rank_addControls_lt (op : Operation) (n : Nat) :
    op.addControls n = controlled n op ∨ (op.addControls n).rank < op.rank + 1 := by
  cases op with
  | controlled m w => exact Or.inr (Nat.lt_succ_self _)
  | _ => exact Or.inl rfl

theorem rank_addControls_le (op : Operation) (n : Nat) :
    (op.addControls n).rank ≤ op.rank + 1 := by
  rcases op.rank_addControls_lt n with heq | hlt
  · rw [heq]
    exact Nat.le_refl _
  · exact Nat.le_of_lt hlt

end Operation

end GateAlgebra
