import GateAlgebra.Proofs.LowerSound
import GateAlgebra.Proofs.PowerBranch
/-!
Powers on the principal branch.  Raising an operation takes the power of its matrix there, control
by control, copy by copy and exponent by exponent, and so gates of any nesting are lowered to what
they do, whether they are in normal form or not.
-/

namespace GateAlgebra

open Matrix
open scoped Matrix.Norms.L2Operator

section Blocks

variable {k : Nat} {A : BitMatrix ℂ k} {p : Rat}

/-- The eigenvalues of a matrix under controls.  Where a control is off it is one. -/
def controlledValues (n : Nat) (z : Bits k → ℂ) (a : Bits (n + k)) : ℂ :=
  if ∀ i : Fin n, a (i.castAdd k) = true then z fun j : Fin k => a (j.natAdd n) else 1

theorem blockControl_diagonal (n : Nat) (z : Bits k → ℂ) :
    blockControl n (diagonal z) = diagonal (controlledValues n z) := by
  funext a b
  by_cases hab : a = b
  · subst hab
    simp [blockControl, controlledValues]
  · have hdiffer : (∀ i : Fin n, a (i.castAdd k) = true) →
        (∀ i : Fin n, b (i.castAdd k) = true) →
        (fun j : Fin k => a (j.natAdd n)) ≠ fun j => b (j.natAdd n) := by
      intro ha hb heq
      refine hab (funext fun i => ?_)
      refine Fin.addCases (fun i => ?_) (fun j => ?_) i
      · rw [ha i, hb i]
      · exact congrFun heq j
    rw [diagonal_apply_ne _ hab, blockControl, if_neg hab]
    split
    · next hones => exact diagonal_apply_ne _ (hdiffer hones.1 hones.2)
    · rfl

/-- A power of a matrix under controls is its power under controls. -/
theorem principalPower_blockControl (n : Nat) (hA : A ∈ unitaryGroup (Bits k) ℂ) :
    principalPower (blockControl n A) p = blockControl n (principalPower A p) := by
  obtain ⟨Q, z, rfl⟩ := exists_eq_diagonalIn hA
  let Q' : unitary (BitMatrix ℂ (n + k)) := ⟨blockControl n Q, blockControl_mem_unitary n Q.2⟩
  have hform : ∀ z : Bits k → ℂ,
      blockControl n (diagonalIn Q z) = diagonalIn Q' (controlledValues n z) := by
    intro z
    rw [diagonalIn_eq, diagonalIn_eq, ← blockControl_mul, ← blockControl_mul,
      blockControl_diagonal, star_eq_conjTranspose, ← blockControl_conjTranspose]
    rfl
  rw [hform, principalPower_diagonalIn, principalPower_diagonalIn, hform]
  congr 1
  funext a
  unfold controlledValues
  split
  · rfl
  · exact Complex.one_cpow _

end Blocks

namespace ExactSemantics

section Rising

variable {R : Type*} [CommRing R] [StarRing R] (S : ExactSemantics R) {x : Operation}
  {e : Exponent}

theorem raisesMatrix_of_isOne (hunitary : x.isUnitary = true) (he : e.isOne = true) :
    S.RaisesMatrix x e := by
  intro qubits _ _
  rw [Operation.raise_of_isOne he, S.operator_powered, basePower, Exponent.number_of_isOne he,
    S.power_one (S.den_mem hunitary)]
  rfl

/-- Where there is no modifier to merge with or to move inside of, the power is written down. -/
theorem raisesMatrix_of_leaf (hunitary : x.isUnitary = true)
    (hkind : x.kind ∉ [.powered, .controlled, .repeated]) : S.RaisesMatrix x e := by
  cases he : e.isOne with
  | true => exact S.raisesMatrix_of_isOne hunitary he
  | false =>
      intro qubits _ _
      rw [Operation.raise_eq_powered he hkind]

/-- A copy acts like what it is a copy of. -/
theorem operator_copy {qubits : List Nat} (hlength : qubits.length = x.numQubits)
    (hnodup : qubits.Nodup) : S.operator (.repeated 1 x) qubits = S.operator x qubits := by
  rw [S.operator_repeated, place_tensorPower_single hlength hnodup]
  rfl

end Rising

section Matrices

variable (S : ExactSemantics ℂ) {k : Nat} {A : BitMatrix ℂ k} {e p : Exponent}

/-- Powers take the principal power of every eigenvalue. -/
def TakesPrincipalPowers : Prop :=
  ∀ {k : Nat} {A : BitMatrix ℂ k} {p : Rat}, A ∈ unitaryGroup (Bits k) ℂ → 0 ≤ p →
    S.power A p = principalPower A p

variable {S}

theorem TakesPrincipalPowers.power_blockControl (hS : S.TakesPrincipalPowers)
    (hA : A ∈ unitaryGroup (Bits k) ℂ) (n : Nat) (e : Exponent) :
    S.power (blockControl n A) e.number = blockControl n (S.power A e.number) := by
  rw [hS hA e.number_nonneg, hS (blockControl_mem_unitary n hA) e.number_nonneg,
    principalPower_blockControl n hA]

/-- Exponents multiply on the principal branch. -/
theorem TakesPrincipalPowers.power_power (hS : S.TakesPrincipalPowers)
    (hA : A ∈ unitaryGroup (Bits k) ℂ) (hexact : (p * e).number = p.number * e.number)
    (h : e.Whole ∨ p.number ≤ 1) :
    S.power (S.power A p.number) e.number = S.power A (p * e).number := by
  have hpower := S.power_mem hA p.number_nonneg
  have hagree : ∀ z, e.principal (p.principal z) = (p * e).principal z :=
    fun z => (Exponent.principal_of_mul hexact h z).symm
  rw [hS hpower e.number_nonneg, hS hA p.number_nonneg, hS hA (p * e).number_nonneg]
  obtain ⟨Q, z, rfl⟩ := exists_eq_diagonalIn hA
  rw [principalPower_diagonalIn, principalPower_diagonalIn, principalPower_diagonalIn]
  exact congrArg (diagonalIn Q) (funext fun i => hagree (z i))

/-- Whole powers of copies are copies of powers. -/
theorem power_tensorPower (hA : A ∈ unitaryGroup (Bits k) ℂ) (he : e.Whole) (n : Nat) :
    S.power (tensorPower n A) e.number = tensorPower n (S.power A e.number) := by
  obtain ⟨m, hm⟩ := he
  rw [hm, S.power_natCast hA, S.power_natCast (tensorPower_mem_unitary n hA), tensorPower_pow]

end Matrices

section Principal

variable {S : ExactSemantics ℂ} (hS : S.TakesPrincipalPowers) {w : Operation} {e p : Exponent}
  {n : Nat}

include hS

theorem TakesPrincipalPowers.raisesMatrix_controlled (hunitary : w.isUnitary = true)
    (h : S.RaisesMatrix w e) : S.RaisesMatrix (.controlled n w) e := by
  intro qubits hlength hnodup
  have hcount : qubits.length = n + w.numQubits := hlength
  have hraise : qubits.length = n + (w.raise e).numQubits := by
    rw [hcount, Operation.numQubits_raise]
  have hdrop : (qubits.drop n).length = w.numQubits := by
    rw [List.length_drop, hcount, Nat.add_sub_cancel_left]
  have hrest : (qubits.drop n).Nodup := hnodup.sublist (List.drop_sublist n qubits)
  calc S.operator ((Operation.controlled n w).raise e) qubits
      = ctrl (qubits.take n) (S.operator (w.raise e) (qubits.drop n)) := by
        rw [Operation.raise_inside_controlled, S.operator_controlled hraise hnodup]
    _ = ctrl (qubits.take n) (place (qubits.drop n) (S.power (S.den w) e.number)) := by
        rw [h _ hdrop hrest, S.operator_powered, basePower]
    _ = place qubits (S.power (blockControl n (S.den w)) e.number) := by
        rw [hS.power_blockControl (S.den_mem hunitary), place_blockControl hcount hnodup]
    _ = place qubits (S.power (S.den (.controlled n w)) e.number) :=
        congrArg (fun A => place qubits (S.power A e.number)) (S.den_controlled n w).symm
    _ = S.operator (.powered e (.controlled n w)) qubits :=
        (S.operator_powered e (.controlled n w) qubits).symm

theorem TakesPrincipalPowers.raisesMatrix_powered (hunitary : w.isUnitary = true)
    (hexact : (p * e).number = p.number * e.number) (hbranch : e.Whole ∨ p.number ≤ 1)
    (h : S.RaisesMatrix w (p * e)) : S.RaisesMatrix (.powered p w) e := by
  cases he : e.isOne with
  | true => exact S.raisesMatrix_of_isOne hunitary he
  | false =>
      intro qubits hlength hnodup
      calc S.operator ((Operation.powered p w).raise e) qubits
          = S.operator (w.raise (p * e)) qubits := by rw [Operation.raise_powered he]
        _ = place qubits (S.power (S.den w) (p * e).number) := by
            rw [h qubits hlength hnodup, S.operator_powered, basePower]
        _ = place qubits (S.power (S.power (S.den w) p.number) e.number) := by
            rw [hS.power_power (S.den_mem hunitary) hexact hbranch]
        _ = place qubits (S.power (S.den (.powered p w)) e.number) :=
            congrArg (fun A => place qubits (S.power A e.number)) (S.den_powered p w).symm
        _ = S.operator (.powered e (.powered p w)) qubits :=
            (S.operator_powered e (.powered p w) qubits).symm

omit hS in
theorem raisesMatrix_repeated (hunitary : w.isUnitary = true) (hcopies : e.Whole ∨ n = 1)
    (h : S.RaisesMatrix w e) : S.RaisesMatrix (.repeated n w) e := by
  intro qubits hlength hnodup
  have hw := S.den_mem hunitary
  have hwidth : (w.raise e).numQubits = w.numQubits := Operation.numQubits_raise e w
  have hrange := h (List.range (w.raise e).numQubits) (List.length_range.trans hwidth)
    List.nodup_range
  rw [S.operator_powered] at hrange
  calc S.operator ((Operation.repeated n w).raise e) qubits
      = place qubits (tensorPower n (S.den (w.raise e))) := by
        rw [Operation.raise_inside_repeated, S.operator_repeated]
    _ = place qubits (tensorPower n (S.power (S.den w) e.number)) :=
        place_tensorPower_congr hwidth hrange
    _ = place qubits (S.power (tensorPower n (S.den w)) e.number) := by
        rcases hcopies with hwhole | rfl
        · rw [power_tensorPower hw hwhole]
        · have hcount : qubits.length = w.numQubits := hlength.trans (Nat.one_mul _)
          rw [place_tensorPower_single hcount hnodup]
          exact S.place_power_congr hcount hlength hnodup
            (place_tensorPower_single hcount hnodup (S.den w)).symm
    _ = place qubits (S.power (S.den (.repeated n w)) e.number) :=
        congrArg (fun A => place qubits (S.power A e.number)) (S.den_repeated n w).symm
    _ = S.operator (.powered e (.repeated n w)) qubits :=
        (S.operator_powered e (.repeated n w) qubits).symm

/-- On the principal branch raising an operation takes the power of its matrix. -/
theorem TakesPrincipalPowers.raisesMatrix {x : Operation} (hunitary : x.isUnitary = true)
    (h : x.StaysPrincipal e) : S.RaisesMatrix x e := by
  induction x generalizing e with
  | controlled n w ih => exact hS.raisesMatrix_controlled hunitary (ih hunitary h)
  | repeated n w ih => exact raisesMatrix_repeated hunitary h.1 (ih hunitary h.2)
  | powered p w ih =>
      rcases h with he | ⟨hexact, hbranch, hw⟩
      · exact S.raisesMatrix_of_isOne hunitary he
      · exact hS.raisesMatrix_powered hunitary hexact hbranch (ih hunitary hw)
  | _ => exact S.raisesMatrix_of_leaf hunitary (by simp [Operation.kind])

end Principal

end ExactSemantics

/-- The square root that is taken of an operation squares to it.  A merged exponent is halved
exactly, and what the root moves inside of stays on the principal branch. -/
def Operation.HalvesPrincipally : Operation → Prop
  | .controlled _ w => w.HalvesPrincipally
  | .repeated _ w => w.HalvesPrincipally
  | .powered p w => (p * .half).number = p.number / 2 ∧ w.StaysPrincipal (p * .half)
  | _ => True

/-- The powers and square roots that an instruction is lowered by stay on the principal branch. -/
structure Instruction.StaysPrincipal (free : List Nat) (inst : Instruction) : Prop where
  power : ∀ {e : Exponent} {w only : Operation}, inst.operation = .powered e w →
    e.natural? = none → Lowers free (w.on inst.qubits) [only.on inst.qubits] →
    (only == w) = false → only.StaysPrincipal e
  roots : ∀ {n : Nat} {w : Operation} {lowered : List Instruction},
    inst.operation = .controlled n w → w.numQubits = 1 →
    Lowers free (w.on (inst.qubits.drop n)) lowered →
    isUnchanged lowered w (inst.qubits.drop n) = true →
    ∀ k < n - 1, (w.rootAt k).HalvesPrincipally

namespace ExactSemantics

section Roots

variable {S : ExactSemantics ℂ} (hS : S.TakesPrincipalPowers) {x : Operation}
  {qubits free : List Nat} {n : Nat}

include hS

/-- A square root on the principal branch. -/
theorem TakesPrincipalPowers.raise_half_mul_self (hunitary : x.isUnitary = true)
    (h : x.HalvesPrincipally) (hlength : qubits.length = x.numQubits) (hnodup : qubits.Nodup) :
    S.operator (x.raise .half) qubits * S.operator (x.raise .half) qubits =
      S.operator x qubits := by
  have hhalf : Exponent.half.number + Exponent.half.number = 1 := by decide +kernel
  have hone : Exponent.half.isOne = false := rfl
  induction x generalizing qubits with
  | controlled n w ih =>
      have hcount : qubits.length = n + w.numQubits := hlength
      have hraise : qubits.length = n + (w.raise .half).numQubits := by
        rw [hcount, Operation.numQubits_raise]
      have hdrop : (qubits.drop n).length = w.numQubits := by
        rw [List.length_drop, hcount, Nat.add_sub_cancel_left]
      have hkeeps : (S.operator (w.raise .half) (qubits.drop n)).Keeps (qubits.take n) :=
        place_keeps (hdrop.trans (Operation.numQubits_raise .half w).symm)
          (fun q hq hmem => List.disjoint_take_drop hnodup (Nat.le_refl n) hmem hq) _
      rw [Operation.raise_inside_controlled, S.operator_controlled hraise hnodup, ← ctrl_mul hkeeps,
        ih hunitary h hdrop (hnodup.sublist (List.drop_sublist n qubits)),
        S.operator_controlled hcount hnodup]
  | repeated n w ih =>
      have hwidth : (w.raise .half).numQubits = w.numQubits := Operation.numQubits_raise .half w
      have hcount : qubits.length = n * (w.raise .half).numQubits := by
        rw [hwidth]
        exact hlength
      have hrange := ih hunitary h (List.length_range.trans hwidth) List.nodup_range
      rw [Operation.raise_inside_repeated, S.operator_repeated, S.operator_repeated,
        ← place_mul hcount hnodup, tensorPower_mul]
      refine place_tensorPower_congr hwidth ?_
      rw [place_mul List.length_range List.nodup_range]
      exact hrange
  | powered p w _ =>
      obtain ⟨hexact, hstays⟩ := h
      have hw : w.isUnitary = true := hunitary
      rw [Operation.raise_powered hone, hS.raisesMatrix hw hstays qubits hlength hnodup,
        S.operator_powered, S.operator_powered,
        S.basePower_mul_self hw hlength hnodup (p * .half).number_nonneg, hexact, add_halves]
  | _ =>
      have hraise := S.raisesMatrix_of_leaf (e := .half) hunitary (by simp [Operation.kind]) qubits
        hlength hnodup
      rw [hraise, S.operator_powered,
        S.basePower_mul_self hunitary hlength hnodup Exponent.half.number_nonneg, hhalf, basePower,
        S.power_one (S.den_mem hunitary)]
      rfl

theorem TakesPrincipalPowers.hasRoots (hunitary : x.isUnitary = true) (hqubit : x.numQubits = 1)
    (h : ∀ k < n, (x.rootAt k).HalvesPrincipally) : S.HasRoots x n := by
  intro k hk
  have hroot : (x.rootAt k).isUnitary = true := by rw [Operation.isUnitary_rootAt, hunitary]
  have hwidth : (x.rootAt k).numQubits = 1 := by rw [Operation.numQubits_rootAt, hqubit]
  have hnext : (x.rootAt (k + 1)).isUnitary = true := by rw [Operation.isUnitary_rootAt, hunitary]
  have hnextWidth : (x.rootAt (k + 1)).numQubits = 1 := by rw [Operation.numQubits_rootAt, hqubit]
  have hlength : [0].length = (x.rootAt k).numQubits := hwidth.symm
  have hsquare := hS.raise_half_mul_self hroot (h k hk) hlength (List.nodup_singleton 0)
  exact ⟨S.qubitMatrix_mul_self hnextWidth hwidth hsquare,
    S.qubitMatrix_invert_mul hnext hnextWidth⟩

theorem TakesPrincipalPowers.faithfulAt {inst : Instruction} (hinst : inst.ApartFrom free)
    (h : inst.StaysPrincipal free) (hscales : inst.ScalesAt S.angle) : S.FaithfulAt free inst where
  power {e w only} hop hnone hlowers hchanged := by
    have hw := hinst.wrapped (Or.inr hop)
    have honly := (hlowers.yields hw.valid _ List.mem_cons_self).unitary hw.unitary
    exact hS.raisesMatrix honly (h.power hop hnone hlowers hchanged)
  roots {n w lowered} hop hqubit hlowers hsame := by
    have hw := hinst.targets hop
    exact hS.hasRoots hw.unitary hqubit (h.roots hop hqubit hlowers hsame)
  known := hscales

/-- Decoded gates of any nesting are lowered to what they do, as long as all powers and square
roots taken on the way stay on the principal branch and known roots scale angles exactly. -/
theorem TakesPrincipalPowers.run_of_lowers (hfree : free.Nodup) {inst : Instruction}
    {emitted : List Instruction} (hinst : inst.ApartFrom free)
    (hprincipal : ∀ part, Relation.ReflTransGen (Calls free) inst part →
      part.StaysPrincipal free) (hscales : inst.ScalesFrom S.angle free)
    (h : Lowers free inst emitted) :
    S.run emitted = S.operator inst.operation inst.qubits :=
  S.run_of_lowers hfree hinst (fun part hreaches =>
    hS.faithfulAt (hinst.reaches hreaches) (hprincipal part hreaches) (hscales part hreaches)) h

end Roots

end ExactSemantics

end GateAlgebra
