import Mathlib.Algebra.Group.Commute.Basic
import Mathlib.Algebra.Group.End
import Mathlib.Algebra.BigOperators.Group.List.Basic
import Mathlib.Data.Bool.Basic
import GateAlgebra.Proofs.Instruction
/-!
Classical runs.  X gates under controls turn over one bit of an assignment.  They
form a monoid under composition in which two of them commute unless one acts on a
control of the other, and conjugation hands controls on from one to the other.
-/

namespace GateAlgebra

/-- A bit for every qubit. -/
abbrev Assignment := Nat → Bool

/-- X under controls: the target turns over if all controls are one. -/
def toggle (controls : List Nat) (target : Nat) : Function.End Assignment :=
  fun s => Function.update s target (s target ^^ controls.all s)

theorem toggle_apply_self (controls : List Nat) (target : Nat) (s : Assignment) :
    toggle controls target s target = (s target ^^ controls.all s) := by
  simp [toggle]

theorem toggle_apply_of_ne (controls : List Nat) {target q : Nat} (hne : q ≠ target)
    (s : Assignment) : toggle controls target s q = s q := by
  simp [toggle, hne]

/-- Controls do not see a change of a qubit that is not among them. -/
theorem all_toggle {target : Nat} {others : List Nat} (htarget : target ∉ others)
    (controls : List Nat) (s : Assignment) :
    others.all (toggle controls target s) = others.all s := by
  induction others with
  | nil => rfl
  | cons q others ih =>
      simp only [List.mem_cons, not_or] at htarget
      obtain ⟨hq, hothers⟩ := htarget
      rw [List.all_cons, List.all_cons, ih hothers,
        toggle_apply_of_ne controls (Ne.symm hq)]

theorem toggle_congr {left right : List Nat} (h : ∀ q, q ∈ left ↔ q ∈ right)
    (target : Nat) : toggle left target = toggle right target := by
  have hall : ∀ s : Assignment, left.all s = right.all s := by
    intro s
    rw [Bool.eq_iff_iff, List.all_eq_true, List.all_eq_true]
    simp [h]
  funext s
  simp [toggle, hall s]

theorem toggle_mul_self {controls : List Nat} {target : Nat} (h : target ∉ controls) :
    toggle controls target * toggle controls target = 1 := by
  funext s q
  change toggle controls target (toggle controls target s) q = s q
  by_cases hq : q = target
  · subst hq
    rw [toggle_apply_self, toggle_apply_self, all_toggle h]
    simp
  · rw [toggle_apply_of_ne _ hq, toggle_apply_of_ne _ hq]

theorem toggle_commute {P Q : List Nat} {t u : Nat} (ht : t ∉ Q) (hu : u ∉ P) :
    Commute (toggle P t) (toggle Q u) := by
  funext s q
  change toggle P t (toggle Q u s) q = toggle Q u (toggle P t s) q
  by_cases hqt : q = t
  · subst hqt
    by_cases hqu : q = u
    · subst hqu
      rw [toggle_apply_self, toggle_apply_self, toggle_apply_self, toggle_apply_self,
        all_toggle hu, all_toggle ht, Bool.xor_right_comm]
    · rw [toggle_apply_self, toggle_apply_of_ne _ hqu, toggle_apply_of_ne _ hqu,
        toggle_apply_self, all_toggle hu]
  · by_cases hqu : q = u
    · subst hqu
      rw [toggle_apply_of_ne _ hqt, toggle_apply_self, toggle_apply_self,
        toggle_apply_of_ne _ hqt, all_toggle ht]
    · rw [toggle_apply_of_ne _ hqt, toggle_apply_of_ne _ hqu, toggle_apply_of_ne _ hqu,
        toggle_apply_of_ne _ hqt]

/-- A toggle whose target is a control of another one hands its own controls on:
around the toggle of `a`, the two toggles of `t` differ by the controls of `a`. -/
theorem toggle_conj {P S : List Nat} {a t : Nat} (haP : a ∉ P) (htP : t ∉ P)
    (htS : t ∉ S) (hta : t ≠ a) (haS : a ∉ S) :
    toggle (S ++ [a]) t * toggle P a * toggle (S ++ [a]) t =
      toggle P a * toggle (S ++ P) t := by
  have ht : t ∉ S ++ [a] := by simp [htS, hta]
  funext s q
  change toggle (S ++ [a]) t (toggle P a (toggle (S ++ [a]) t s)) q =
    toggle P a (toggle (S ++ P) t s) q
  by_cases hqt : q = t
  · subst hqt
    rw [toggle_apply_self, toggle_apply_of_ne _ hta, toggle_apply_self,
      toggle_apply_of_ne _ hta, toggle_apply_self]
    have houter : (S ++ [a]).all (toggle P a (toggle (S ++ [a]) q s)) =
        (S.all s && (s a ^^ P.all s)) := by
      rw [List.all_append, all_toggle haS, all_toggle htS, List.all_cons, List.all_nil,
        Bool.and_true, toggle_apply_self, toggle_apply_of_ne _ (Ne.symm hta),
        all_toggle htP]
    rw [houter, List.all_append, List.all_append, List.all_cons, List.all_nil,
      Bool.and_true]
    cases s q <;> cases S.all s <;> cases s a <;> cases P.all s <;> rfl
  · rw [toggle_apply_of_ne _ hqt]
    by_cases hqa : q = a
    · subst hqa
      rw [toggle_apply_self, toggle_apply_self, toggle_apply_of_ne _ hqt,
        toggle_apply_of_ne _ hqt, all_toggle htP, all_toggle htP]
    · rw [toggle_apply_of_ne _ hqa, toggle_apply_of_ne _ hqt, toggle_apply_of_ne _ hqa,
        toggle_apply_of_ne _ hqt]

namespace Instruction

/-- What an instruction does to an assignment, if it is X under any number of
controls. -/
def toggle? (inst : Instruction) : Option (Function.End Assignment) :=
  match inst.operation, inst.qubits with
  | .gate .x, [target] => some (toggle [] target)
  | .controlled n (.gate .x), qubits =>
      match qubits.drop n with
      | [target] => some (toggle (qubits.take n) target)
      | _ => none
  | _, _ => none

end Instruction

/-- Run instructions as a classical reversible circuit, the first one first. -/
def runBits : List Instruction → Option (Function.End Assignment)
  | [] => some 1
  | inst :: rest => do return (← runBits rest) * (← inst.toggle?)

theorem runBits_append {left right : List Instruction} {f g : Function.End Assignment}
    (hleft : runBits left = some f) (hright : runBits right = some g) :
    runBits (left ++ right) = some (g * f) := by
  induction left generalizing f with
  | nil =>
      simp only [runBits, Option.some.injEq] at hleft
      rw [← hleft, mul_one]
      exact hright
  | cons inst left ih =>
      simp only [runBits, Option.bind_eq_bind, Option.bind_eq_some_iff,
        Option.pure_def, Option.some.injEq] at hleft
      obtain ⟨f', hf', t, ht, rfl⟩ := hleft
      simp [runBits, ih hf', ht, mul_assoc]

end GateAlgebra
