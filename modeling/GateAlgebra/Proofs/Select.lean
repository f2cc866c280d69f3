import Mathlib.Logic.Equiv.Bool
import Mathlib.LinearAlgebra.Matrix.NonsingularInverse
import GateAlgebra.Proofs.Operator
/-!
Operators on one qubit that are chosen by the bits of other qubits, and changes of
assignments as operators.  A square root, its inverse and the root again, chosen by
two bits and their sum, make up what both bits together choose.
-/

namespace GateAlgebra

section Turn

variable {R : Type*}

/-- The amplitude of an assignment is taken over from another one. -/
def turn (f : Function.End Assignment) : Operator R :=
  fun ψ s => ψ (f s)

theorem turn_mul (f g : Function.End Assignment) :
    (turn f * turn g : Operator R) = turn (g * f) := rfl

theorem ctrl_turn_toggle (controls inner : List Nat) (target : Nat) :
    ctrl controls (turn (toggle inner target) : Operator R) =
      turn (toggle (controls ++ inner) target) := by
  funext ψ s
  by_cases hall : controls.all s = true
  · simp [ctrl, turn, toggle, hall]
  · simp [ctrl, turn, toggle, hall]

end Turn

section Select

variable {R : Type*} [CommRing R]

/-- The matrix that an assignment chooses, on one qubit. -/
def select (target : Nat) (M : Assignment → Matrix Bool Bool R) : Operator R :=
  fun ψ s => ∑ b, M s (s target) b * ψ (Function.update s target b)

/-- The choice does not look at a qubit. -/
def Ignores {α : Type*} (target : Nat) (M : Assignment → α) : Prop :=
  ∀ s b, M (Function.update s target b) = M s

variable {target : Nat}

theorem select_one : select target (fun _ => (1 : Matrix Bool Bool R)) = 1 := by
  funext ψ s
  change ∑ b, (1 : Matrix Bool Bool R) (s target) b * _ = ψ s
  simp [Matrix.one_apply]

theorem select_mul {N : Assignment → Matrix Bool Bool R} (hN : Ignores target N)
    (M : Assignment → Matrix Bool Bool R) :
    select target M * select target N = select target fun s => M s * N s := by
  funext ψ s
  change ∑ b, M s (s target) b * ∑ c, N (Function.update s target b)
      (Function.update s target b target) c *
        ψ (Function.update (Function.update s target b) target c) =
    ∑ c, (M s * N s) (s target) c * ψ (Function.update s target c)
  simp only [hN s, Function.update_self, Function.update_idem, Matrix.mul_apply,
    Finset.mul_sum, Finset.sum_mul]
  rw [Finset.sum_comm]
  simp only [mul_assoc]

/-- The operator tells what the matrix is. -/
theorem select_const_injective {M N : Matrix Bool Bool R}
    (h : select target (fun _ => M) = select target fun _ => N) : M = N := by
  funext a b
  have hentry : ∀ L : Matrix Bool Bool R,
      select target (fun _ => L) (fun s => if s target = b then 1 else 0)
        (Function.update (fun _ => false) target a) = L a b := by
    intro L
    simp [select]
  rw [← hentry M, ← hentry N, h]

theorem ctrl_select (controls : List Nat) (M : Assignment → Matrix Bool Bool R) :
    ctrl controls (select target M) =
      select target fun s => if controls.all s then M s else 1 := by
  funext ψ s
  have hone : select target (fun _ => (1 : Matrix Bool Bool R)) ψ s = ψ s :=
    congrFun (congrFun select_one ψ) s
  by_cases hall : controls.all s = true
  · simp [ctrl, select, hall]
  · calc ctrl controls (select target M) ψ s = ψ s := by simp [ctrl, hall]
      _ = select target (fun _ => (1 : Matrix Bool Bool R)) ψ s := hone.symm
      _ = select target (fun s => if controls.all s then M s else 1) ψ s := by
        simp [select, hall]

/-- So does the operator under controls that leave the qubit out. -/
theorem ctrl_select_const_injective {controls : List Nat} (htarget : target ∉ controls)
    {M N : Matrix Bool Bool R}
    (h : ctrl controls (select target fun _ => M) = ctrl controls (select target fun _ => N)) :
    M = N := by
  funext a b
  let s : Assignment := Function.update (fun _ => true) target a
  have hall : controls.all s = true := by
    rw [List.all_eq_true]
    intro q hq
    exact Function.update_of_ne (ne_of_mem_of_not_mem hq htarget) a fun _ => true
  have hentry : ∀ L : Matrix Bool Bool R,
      ctrl controls (select target fun _ => L) (fun s' => if s' target = b then 1 else 0) s =
        L a b := by
    intro L
    simp only [ctrl, hall, if_true]
    simp [select, s]
  rw [← hentry M, ← hentry N, h]

theorem ignores_all {controls : List Nat} (htarget : target ∉ controls) :
    Ignores target fun s => controls.all s := by
  intro s b
  have hbit : ∀ q ∈ controls, Function.update s target b q = s q := by
    intro q hq
    exact Function.update_of_ne (ne_of_mem_of_not_mem hq htarget) b s
  rw [Bool.eq_iff_iff, List.all_eq_true, List.all_eq_true]
  constructor
  · exact fun h q hq => hbit q hq ▸ h q hq
  · exact fun h q hq => (hbit q hq).trans (h q hq)

/-- A change of the bits that choose, before and after. -/
theorem turn_select_turn {f : Function.End Assignment} (hf : f * f = 1)
    (hself : ∀ s, f s target = s target)
    (hupdate : ∀ s b, f (Function.update s target b) = Function.update (f s) target b)
    (M : Assignment → Matrix Bool Bool R) :
    turn f * select target M * turn f = select target fun s => M (f s) := by
  funext ψ s
  change ∑ b, M (f s) (f s target) b * ψ (f (Function.update (f s) target b)) =
    ∑ b, M (f s) (s target) b * ψ (Function.update s target b)
  have hinverse : f (f s) = s := congrFun hf s
  simp only [hself, hupdate, hinverse]

/-- The toggle of a control turns the choice by that control into the choice by its
sum with the controls of the toggle. -/
theorem turn_ctrl_turn {rest : List Nat} {last : Nat} (hlast : last ∉ rest)
    (htarget : target ∉ rest) (hne : target ≠ last) (W : Matrix Bool Bool R) :
    turn (toggle rest last) * ctrl [last] (select target fun _ => W) *
        turn (toggle rest last) =
      select target fun s => if s last ^^ rest.all s then W else 1 := by
  rw [ctrl_select, turn_select_turn (toggle_mul_self hlast)]
  · simp [toggle_apply_self]
  · intro s
    exact toggle_apply_of_ne rest hne s
  · intro s b
    have hall : rest.all (Function.update s target b) = rest.all s :=
      ignores_all htarget s b
    funext q
    by_cases hq : q = target
    · subst hq
      rw [toggle_apply_of_ne rest hne, Function.update_self, Function.update_self]
    · rw [Function.update_of_ne hq]
      by_cases hqlast : q = last
      · subst hqlast
        rw [toggle_apply_self, toggle_apply_self, hall, Function.update_of_ne hq]
      · rw [toggle_apply_of_ne rest hqlast, toggle_apply_of_ne rest hqlast,
          Function.update_of_ne hq]

/-- The root under the last control, its inverse under the sum of both, and the root
under the others amount to its square under all of them. -/
theorem root_block {rest : List Nat} {last : Nat} (hlast : last ∉ rest)
    (htarget : target ∉ rest) (hne : target ≠ last) {root unroot : Matrix Bool Bool R}
    (hinverse : unroot * root = 1) :
    ctrl rest (select target fun _ => root) *
        (turn (toggle rest last) * ctrl [last] (select target fun _ => unroot) *
          turn (toggle rest last)) *
        ctrl [last] (select target fun _ => root) =
      ctrl (rest ++ [last]) (select target fun _ => root * root) := by
  have hinverse' : root * unroot = 1 := mul_eq_one_comm.1 hinverse
  have hbit : Ignores target fun s : Assignment => s last := by
    intro s b
    exact Function.update_of_ne (Ne.symm hne) b s
  have hlastChoice : Ignores target fun s : Assignment =>
      if [last].all s then root else 1 := by
    intro s b
    simp [hbit s b]
  have hsumChoice : Ignores target fun s : Assignment =>
      if s last ^^ rest.all s then unroot else 1 := by
    intro s b
    simp only [hbit s b, ignores_all htarget s b]
  rw [turn_ctrl_turn hlast htarget hne, ctrl_select, ctrl_select, ctrl_select,
    select_mul hsumChoice, select_mul hlastChoice]
  congr 1
  funext s
  cases hrest : rest.all s <;> cases hbitLast : s last <;>
    simp [hrest, hbitLast, hinverse, hinverse']

end Select

end GateAlgebra
