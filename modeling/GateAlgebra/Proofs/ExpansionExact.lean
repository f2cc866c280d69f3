import GateAlgebra.Proofs.ExactMatrix
import GateAlgebra.Proofs.LowerExact
import GateAlgebra.Proofs.Window
/-!
The expansions of gates are exact.  On the qubits of the gate the instructions multiply to its
matrix, the global phase included, and so they do on any distinct qubits of a larger register.
-/

namespace GateAlgebra

open Matrix

namespace DenseMatrix

variable {R : Type} [CommRing R] {m : DenseMatrix R}

/-- A matrix on the first of two qubits. -/
def onFirst (A : Matrix (Fin 2) (Fin 2) R) : Matrix (Fin 4) (Fin 4) R :=
  !![A 0 0, 0, A 0 1, 0; 0, A 0 0, 0, A 0 1; A 1 0, 0, A 1 1, 0; 0, A 1 0, 0, A 1 1]

/-- A matrix on the second of two qubits. -/
def onSecond (A : Matrix (Fin 2) (Fin 2) R) : Matrix (Fin 4) (Fin 4) R :=
  !![A 0 0, A 0 1, 0, 0; A 1 0, A 1 1, 0, 0; 0, 0, A 0 0, A 0 1; 0, 0, A 1 0, A 1 1]

theorem toMatrix_applyGate_zero (hm : m.HasSide 2) :
    ((identity (dimension 1)).applyGate m [0] 1).toMatrix 2 = m.toMatrix 2 := by
  have h : TargetsBelow 1 [0] := ⟨by decide, by decide⟩
  ext i j
  refine (entry_identity_applyGate h _ hm.cols i.2 j.2).trans ?_
  fin_cases i <;> fin_cases j <;> rfl

theorem toMatrix_applyGate_first (hm : m.HasSide 2) :
    ((identity (dimension 2)).applyGate m [0] 2).toMatrix 4 = onFirst (m.toMatrix 2) := by
  have h : TargetsBelow 2 [0] := ⟨by decide, by decide⟩
  ext i j
  refine (entry_identity_applyGate h _ hm.cols i.2 j.2).trans ?_
  fin_cases i <;> fin_cases j <;> rfl

theorem toMatrix_applyGate_second (hm : m.HasSide 2) :
    ((identity (dimension 2)).applyGate m [1] 2).toMatrix 4 = onSecond (m.toMatrix 2) := by
  have h : TargetsBelow 2 [1] := ⟨by decide, by decide⟩
  ext i j
  refine (entry_identity_applyGate h _ hm.cols i.2 j.2).trans ?_
  fin_cases i <;> fin_cases j <;> rfl

theorem toMatrix_applyGate_both (hm : m.HasSide 4) :
    ((identity (dimension 2)).applyGate m [0, 1] 2).toMatrix 4 = m.toMatrix 4 := by
  have h : TargetsBelow 2 [0, 1] := ⟨by decide, by decide⟩
  ext i j
  refine (entry_identity_applyGate h _ hm.cols i.2 j.2).trans ?_
  fin_cases i <;> fin_cases j <;> rfl

/-- With the qubits exchanged, so are the two states in the middle. -/
theorem toMatrix_applyGate_exchanged (hm : m.HasSide 4) :
    ((identity (dimension 2)).applyGate m [1, 0] 2).toMatrix 4 =
      (m.toMatrix 4).submatrix (Equiv.swap 1 2) (Equiv.swap 1 2) := by
  have h : TargetsBelow 2 [1, 0] := ⟨by decide, by decide⟩
  ext i j
  refine (entry_identity_applyGate h _ hm.cols i.2 j.2).trans ?_
  fin_cases i <;> fin_cases j <;> rfl

/-- X on the second qubit under a control on the first. -/
def controlledFlip : Matrix (Fin 4) (Fin 4) R :=
  !![1, 0, 0, 0; 0, 1, 0, 0; 0, 0, 0, 1; 0, 0, 1, 0]

theorem toMatrix_control_pauliX :
    ((Trigonometry.pauliX : DenseMatrix ℂ).control 1).toMatrix 4 = controlledFlip := by
  have hside : (Trigonometry.pauliX : DenseMatrix ℂ).IsSquare := rfl
  ext i j
  refine (hside.entry_control i.2 j.2).trans ?_
  fin_cases i <;> fin_cases j <;> rfl

end DenseMatrix

namespace Circuit

variable {R : Type} [CommRing R] [StarRing R] {leaves : LeafMatrices R} {k d : Nat}
  {insts : List Instruction} {inst : Instruction} {m : DenseMatrix R}
  {A B : Matrix (Fin d) (Fin d) R}

/-- All instructions are gates with matrices, and their unitary on a register has the given
entries. -/
structure HasUnitary (leaves : LeafMatrices R) (k : Nat) (insts : List Instruction)
    (A : Matrix (Fin d) (Fin d) R) : Prop where
  acts : ∀ inst ∈ insts, ∃ m, inst.ActsBy leaves k m
  runs : ∃ u, insts.foldlM (applyInstruction leaves k) (.identity (dimension k)) = .ok u ∧
    u.HasSide d ∧ u.toMatrix d = A

theorem hasUnitary_nil (hd : dimension k = d) :
    HasUnitary leaves k [] (1 : Matrix (Fin d) (Fin d) R) where
  acts := List.forall_mem_nil _
  runs := ⟨_, rfl, ⟨hd, hd⟩, by rw [hd]; exact DenseMatrix.toMatrix_identity⟩

/-- What comes first is the factor on the right. -/
theorem HasUnitary.cons (hrest : HasUnitary leaves k insts B) (hd : dimension k = d)
    (hm : inst.ActsBy leaves k m)
    (hA : ((DenseMatrix.identity (dimension k)).applyGate m inst.qubits k).toMatrix d = A) :
    HasUnitary leaves k (inst :: insts) (B * A) := by
  obtain ⟨hacts, u, hrun, hside, rfl⟩ := hrest
  have hplaced : ((DenseMatrix.identity (dimension k)).applyGate m inst.qubits k).HasSide d :=
    ⟨hd, hd⟩
  have hfirst := DenseMatrix.identity_mul
    ((DenseMatrix.identity (dimension k)).applyGate m inst.qubits k)
  have hproduct := @foldlM_applyInstruction_mul _ _ _ leaves k (.identity (dimension k))
    ((DenseMatrix.identity (dimension k)).applyGate m inst.qubits k) insts
  rw [DenseMatrix.rows_applyGate, DenseMatrix.rows_identity] at hfirst
  rw [hfirst, hrun] at hproduct
  refine ⟨List.forall_mem_cons.2 ⟨⟨m, hm⟩, hacts⟩, _, ?_, hside.mul hplaced, ?_⟩
  · rw [List.foldlM_cons, applyInstruction_of_actsBy hm rfl]
    exact hproduct
  · rw [hside.toMatrix_mul hplaced, hA]

end Circuit

section Steps

variable (reading : Reading) {k : Nat} {positions : List Nat}

theorem hasSide_gateMatrix {ε : Type} {read : Scalar → Except ε ℝ} {g : Gate}
    {m : DenseMatrix ℂ} (hm : Trigonometry.exact.gateMatrix read g = .ok m) {n : Nat}
    (hg : g.numQubits = n) : m.HasSide (dimension n) := by
  obtain ⟨hrows, hcols⟩ := sides_gateMatrix hm
  rw [hg] at hrows hcols
  exact ⟨hrows, hcols⟩

/-- A gate on distinct positions acts by its matrix. -/
theorem actsBy_gate {g : Gate} {m : DenseMatrix ℂ}
    (hm : Trigonometry.exact.gateMatrix reading.angle g = .ok m)
    (hpositions : TargetsBelow k positions) (hlength : positions.length = g.numQubits) :
    ((Operation.gate g).on positions).ActsBy (.exact reading) k m where
  not_barrier := rfl
  below := hpositions
  matrix := hm
  square := (sides_gateMatrix hm).1.trans (sides_gateMatrix hm).2.symm
  cols := by
    rw [Operation.qubits_on, hlength]
    exact (sides_gateMatrix hm).2

theorem actsBy_cx (hpositions : TargetsBelow k positions) (hlength : positions.length = 2) :
    (Operation.cx.on positions).ActsBy (.exact reading) k
      (Trigonometry.pauliX.control 1) where
  not_barrier := rfl
  below := hpositions
  matrix := rfl
  square := rfl
  cols := by rw [Operation.qubits_on, hlength]; rfl

theorem actsBy_sdg (hpositions : TargetsBelow k positions) (hlength : positions.length = 1) :
    (Operation.sdg.on positions).ActsBy (.exact reading) k
      (DenseMatrix.ofRows [[1, 0], [0, Trigonometry.exact.i]]).adjoint where
  not_barrier := rfl
  below := hpositions
  matrix := rfl
  square := rfl
  cols := by rw [Operation.qubits_on, hlength]; rfl

end Steps

section Identities

open DenseMatrix Complex

theorem flips_eq_exchange :
    controlledFlip * (controlledFlip.submatrix (Equiv.swap 1 2) (Equiv.swap 1 2) * controlledFlip) =
      (!![1, 0, 0, 0; 0, 0, 1, 0; 0, 1, 0, 0; 0, 0, 0, 1] : Matrix (Fin 4) (Fin 4) ℂ) := by
  ext i j
  fin_cases i <;> fin_cases j <;>
    simp [controlledFlip, Matrix.mul_apply, Fin.sum_univ_four, Equiv.swap_apply_def]

/-- Between two flips the second qubit is turned backwards where the first one is set. -/
theorem flips_conjugate (p q : ℂ) :
    controlledFlip * (onSecond !![p, 0; 0, q] * controlledFlip) =
      !![p, 0, 0, 0; 0, q, 0, 0; 0, 0, q, 0; 0, 0, 0, p] := by
  ext i j
  fin_cases i <;> fin_cases j <;>
    simp [controlledFlip, onSecond, Matrix.mul_apply, Fin.sum_univ_four]

/-- Hadamard gates on both qubits. -/
def hadamards (h : ℂ) : Matrix (Fin 4) (Fin 4) ℂ :=
  !![h * h, h * h, h * h, h * h; h * h, -(h * h), h * h, -(h * h);
    h * h, h * h, -(h * h), -(h * h); h * h, -(h * h), -(h * h), h * h]

theorem hadamards_eq (h : ℂ) :
    onSecond !![h, h; h, -h] * onFirst !![h, h; h, -h] = hadamards h := by
  ext i j
  fin_cases i <;> fin_cases j <;>
    simp [hadamards, onFirst, onSecond, Matrix.mul_apply, Fin.sum_univ_four]

/-- Between Hadamard gates a diagonal interaction is one of X with X. -/
theorem hadamards_conjugate {h : ℂ} (hh : h ^ 2 = 1 / 2) (p q : ℂ) :
    hadamards h * (!![p, 0, 0, 0; 0, q, 0, 0; 0, 0, q, 0; 0, 0, 0, p] * hadamards h) =
      !![(p + q) / 2, 0, 0, (p - q) / 2; 0, (p + q) / 2, (p - q) / 2, 0;
        0, (p - q) / 2, (p + q) / 2, 0; (p - q) / 2, 0, 0, (p + q) / 2] := by
  have hmul : h * h = 1 / 2 := by rw [← sq, hh]
  ext i j
  fin_cases i <;> fin_cases j <;>
    simp [hadamards, hmul, Matrix.mul_apply, Fin.sum_univ_four] <;> ring

/-- Phases on both qubits. -/
def phases (z : ℂ) : Matrix (Fin 4) (Fin 4) ℂ :=
  !![1, 0, 0, 0; 0, z, 0, 0; 0, 0, z, 0; 0, 0, 0, z * z]

theorem phases_eq (z : ℂ) :
    onSecond !![1, 0; 0, z] * onFirst !![1, 0; 0, z] = phases z := by
  ext i j
  fin_cases i <;> fin_cases j <;>
    simp [phases, onFirst, onSecond, Matrix.mul_apply, Fin.sum_univ_four]

/-- Between phase gates an interaction of X with X is one of Y with Y. -/
theorem phases_conjugate (c s : ℂ) :
    phases I * (!![c, 0, 0, s; 0, c, s, 0; 0, s, c, 0; s, 0, 0, c] * phases (-I)) =
      !![c, 0, 0, -s; 0, c, s, 0; 0, s, c, 0; -s, 0, 0, c] := by
  have hphase : I * (c * I) = -c ∧ I * (s * I) = -s := by
    constructor <;> ring_nf <;> simp
  ext i j
  fin_cases i <;> fin_cases j <;>
    simp [phases, Matrix.mul_apply, Fin.sum_univ_four, hphase]

/-- Quarter turns about XX and YY exchange the qubits. -/
theorem quarters_eq_exchange {c s : ℂ} (hc : c * c = 1 / 2) (hs : s * s = -1 / 2)
    (hcs : c * s = I / 2) :
    (!![c, 0, 0, -s; 0, c, s, 0; 0, s, c, 0; -s, 0, 0, c] *
      !![c, 0, 0, s; 0, c, s, 0; 0, s, c, 0; s, 0, 0, c] : Matrix (Fin 4) (Fin 4) ℂ) =
      !![1, 0, 0, 0; 0, 0, I, 0; 0, I, 0, 0; 0, 0, 0, 1] := by
  have hsc : s * c = I / 2 := by rw [mul_comm, hcs]
  ext i j
  fin_cases i <;> fin_cases j <;>
    simp [Matrix.mul_apply, Fin.sum_univ_four, hc, hs, hcs, hsc] <;> ring

end Identities

section Windows

open DenseMatrix Circuit Complex Trigonometry

variable {reading : Reading}

section Cons

variable {insts : List Instruction} {A : Matrix (Fin 4) (Fin 4) ℂ} {g : Gate} {m : DenseMatrix ℂ}

theorem hasUnitary_nil_two : HasUnitary (.exact reading) 2 [] (1 : Matrix (Fin 4) (Fin 4) ℂ) :=
  hasUnitary_nil rfl

theorem below_both : TargetsBelow 2 [0, 1] := ⟨by decide, by decide⟩

theorem Circuit.HasUnitary.cx_cons (h : HasUnitary (.exact reading) 2 insts A) :
    HasUnitary (.exact reading) 2 (Operation.cx.on [0, 1] :: insts) (A * controlledFlip) :=
  h.cons rfl (actsBy_cx reading below_both rfl)
    ((toMatrix_applyGate_both ⟨rfl, rfl⟩).trans toMatrix_control_pauliX)

theorem Circuit.HasUnitary.xc_cons (h : HasUnitary (.exact reading) 2 insts A) :
    HasUnitary (.exact reading) 2 (Operation.cx.on [1, 0] :: insts)
      (A * controlledFlip.submatrix (Equiv.swap 1 2) (Equiv.swap 1 2)) :=
  h.cons rfl (actsBy_cx reading ⟨by decide, by decide⟩ rfl)
    ((toMatrix_applyGate_exchanged ⟨rfl, rfl⟩).trans (by rw [toMatrix_control_pauliX]))

theorem Circuit.HasUnitary.first_cons (h : HasUnitary (.exact reading) 2 insts A)
    (hm : exact.gateMatrix reading.angle g = .ok m) (hg : g.numQubits = 1) :
    HasUnitary (.exact reading) 2 ((Operation.gate g).on [0] :: insts)
      (A * onFirst (m.toMatrix 2)) :=
  h.cons rfl (actsBy_gate reading hm ⟨by decide, by decide⟩ hg.symm)
    (toMatrix_applyGate_first (hasSide_gateMatrix hm hg))

theorem Circuit.HasUnitary.second_cons (h : HasUnitary (.exact reading) 2 insts A)
    (hm : exact.gateMatrix reading.angle g = .ok m) (hg : g.numQubits = 1) :
    HasUnitary (.exact reading) 2 ((Operation.gate g).on [1] :: insts)
      (A * onSecond (m.toMatrix 2)) :=
  h.cons rfl (actsBy_gate reading hm ⟨by decide, by decide⟩ hg.symm)
    (toMatrix_applyGate_second (hasSide_gateMatrix hm hg))

theorem Circuit.HasUnitary.both_cons (h : HasUnitary (.exact reading) 2 insts A)
    (hm : exact.gateMatrix reading.angle g = .ok m) (hg : g.numQubits = 2) :
    HasUnitary (.exact reading) 2 ((Operation.gate g).on [0, 1] :: insts)
      (A * m.toMatrix 4) :=
  h.cons rfl (actsBy_gate reading hm below_both hg.symm)
    (toMatrix_applyGate_both (hasSide_gateMatrix hm hg))

/-- Hadamard gates on both qubits, one after the other. -/
theorem Circuit.HasUnitary.hadamards_cons (h : HasUnitary (.exact reading) 2 insts A) :
    HasUnitary (.exact reading) 2
      ((Operation.gate .h).on [0] :: (Operation.gate .h).on [1] :: insts)
      (A * hadamards exact.invSqrtTwo) := by
  have hm : exact.gateMatrix reading.angle .h =
      .ok (ofRows [[exact.real exact.invSqrtTwo, exact.real exact.invSqrtTwo],
        [exact.real exact.invSqrtTwo, -exact.real exact.invSqrtTwo]]) := rfl
  have hboth := (h.second_cons hm rfl).first_cons hm rfl
  rw [toMatrix_ofRows_two, exact_real, Matrix.mul_assoc, hadamards_eq] at hboth
  exact hboth

/-- Phase gates on both qubits, one after the other. -/
theorem Circuit.HasUnitary.phases_cons (h : HasUnitary (.exact reading) 2 insts A) :
    HasUnitary (.exact reading) 2
      ((Operation.gate .s).on [0] :: (Operation.gate .s).on [1] :: insts)
      (A * phases I) := by
  have hm : exact.gateMatrix reading.angle .s = .ok (ofRows [[1, 0], [0, exact.i]]) := rfl
  have hboth := (h.second_cons hm rfl).first_cons hm rfl
  rw [toMatrix_ofRows_two, exact_i, Matrix.mul_assoc, phases_eq] at hboth
  exact hboth

/-- Inverse phase gates on both qubits, one after the other. -/
theorem Circuit.HasUnitary.unphases_cons (h : HasUnitary (.exact reading) 2 insts A) :
    HasUnitary (.exact reading) 2 (Operation.sdg.on [0] :: Operation.sdg.on [1] :: insts)
      (A * phases (-I)) := by
  have hside : (ofRows [[1, 0], [0, exact.i]]).HasSide 2 := ⟨rfl, rfl⟩
  have hentries : (ofRows [[1, 0], [0, exact.i]]).adjoint.toMatrix 2 = !![1, 0; 0, -I] := by
    rw [hside.toMatrix_adjoint, toMatrix_ofRows_two, exact_i, Matrix.star_eq_conjTranspose]
    ext i j
    fin_cases i <;> fin_cases j <;> simp
  have hfirst : TargetsBelow 2 [0] := ⟨by decide, by decide⟩
  have hnext : TargetsBelow 2 [1] := ⟨by decide, by decide⟩
  have hsecond := h.cons rfl (actsBy_sdg reading hnext rfl)
    (toMatrix_applyGate_second hside.adjoint)
  have hboth := hsecond.cons rfl
    (actsBy_sdg reading hfirst rfl)
    (toMatrix_applyGate_first hside.adjoint)
  rwa [hentries, Matrix.mul_assoc, phases_eq] at hboth

end Cons

theorem hasUnitary_swap : HasUnitary (.exact reading) 2
    [Operation.cx.on [0, 1], Operation.cx.on [1, 0], Operation.cx.on [0, 1]]
    ((Trigonometry.exchange 1 : DenseMatrix ℂ).toMatrix 4) := by
  have hall : HasUnitary (.exact reading) 2 _ _ := hasUnitary_nil_two.cx_cons.xc_cons.cx_cons
  rw [one_mul, Matrix.mul_assoc, flips_eq_exchange] at hall
  rwa [Trigonometry.exchange, toMatrix_ofRows_four]

variable {angle : Scalar} {x : ℝ}

theorem toMatrix_rzz {m : DenseMatrix ℂ} (hx : reading.angle angle = .ok x)
    (hm : exact.gateMatrix reading.angle (.rzz angle) = .ok m) :
    m.toMatrix 4 = !![exact.phase (-(x / 2)), 0, 0, 0; 0, exact.phase (x / 2), 0, 0;
      0, 0, exact.phase (x / 2), 0; 0, 0, 0, exact.phase (-(x / 2))] := by
  obtain ⟨value, hvalue, hm⟩ := bind_eq_ok_iff.1 hm
  obtain rfl := Except.ok.inj (hx.symm.trans hvalue)
  obtain rfl := Except.ok.inj hm
  exact toMatrix_ofRows_four _ _ _ _ _ _ _ _ _ _ _ _ _ _ _ _

theorem hasUnitary_rzz {m : DenseMatrix ℂ}
    (hm : exact.gateMatrix reading.angle (.rzz angle) = .ok m) :
    HasUnitary (.exact reading) 2
      [Operation.cx.on [0, 1], (Operation.gate (.rz angle)).on [1], Operation.cx.on [0, 1]]
      (m.toMatrix 4) := by
  obtain ⟨x, hx, -⟩ := bind_eq_ok_iff.1 hm
  have hrz : exact.gateMatrix reading.angle (.rz angle) =
      .ok (ofRows [[exact.phase (-(x / 2)), 0], [0, exact.phase (x / 2)]]) := by
    rw [gateMatrix, hx]
    rfl
  have hall := ((hasUnitary_nil_two.cx_cons).second_cons hrz rfl).cx_cons
  rw [toMatrix_ofRows_two, one_mul, Matrix.mul_assoc, flips_conjugate] at hall
  rwa [toMatrix_rzz hx hm]

theorem phase_add_phase (x : ℝ) :
    (exact.phase (-x) + exact.phase x) / 2 = exact.real (exact.cos x) := by
  rw [exact_phase, exact_phase, exact_real, exact_cos, ofReal_cos, Complex.cos, ofReal_neg]
  ring

theorem phase_sub_phase (x : ℝ) :
    (exact.phase (-x) - exact.phase x) / 2 = exact.cartesian 0 (-exact.sin x) := by
  rw [exact_phase, exact_phase, exact_cartesian, exact_sin, ofReal_zero, ofReal_neg, ofReal_neg,
    ofReal_sin, Complex.sin]
  linear_combination (cexp (-x * I) - cexp (x * I)) / 2 * I_mul_I

theorem neg_cartesian (y : ℝ) : -exact.cartesian 0 (-y) = exact.cartesian 0 y := by
  rw [exact_cartesian, exact_cartesian]
  push_cast
  ring

/-- Hadamard gates around an interaction of Z with Z. -/
theorem Circuit.HasUnitary.interaction_cons {insts : List Instruction}
    {A : Matrix (Fin 4) (Fin 4) ℂ} (h : HasUnitary (.exact reading) 2 insts A)
    (hx : reading.angle angle = .ok x) :
    HasUnitary (.exact reading) 2
      ((Operation.gate .h).on [0] :: (Operation.gate .h).on [1] ::
        (Operation.gate (.rzz angle)).on [0, 1] ::
        (Operation.gate .h).on [0] :: (Operation.gate .h).on [1] :: insts)
      (A * (crossed (exact.real (exact.cos (x / 2))) (exact.cartesian 0 (-exact.sin (x / 2)))
        (exact.cartesian 0 (-exact.sin (x / 2)))).toMatrix 4) := by
  obtain ⟨m, hm⟩ : ∃ m, exact.gateMatrix reading.angle (.rzz angle) = .ok m := by
    rw [gateMatrix, hx]
    exact ⟨_, rfl⟩
  have hall := (h.hadamards_cons.both_cons hm rfl).hadamards_cons
  rw [toMatrix_rzz hx hm, Matrix.mul_assoc, Matrix.mul_assoc,
    hadamards_conjugate exact_invSqrtTwo_sq, phase_add_phase, phase_sub_phase] at hall
  rwa [crossed, toMatrix_ofRows_four]

theorem hasUnitary_rxx {m : DenseMatrix ℂ}
    (hm : exact.gateMatrix reading.angle (.rxx angle) = .ok m) :
    HasUnitary (.exact reading) 2
      [(Operation.gate .h).on [0], (Operation.gate .h).on [1],
        (Operation.gate (.rzz angle)).on [0, 1],
        (Operation.gate .h).on [0], (Operation.gate .h).on [1]]
      (m.toMatrix 4) := by
  obtain ⟨x, hx, hm⟩ := bind_eq_ok_iff.1 hm
  obtain rfl := Except.ok.inj hm
  have hall := hasUnitary_nil_two.interaction_cons hx
  rwa [one_mul] at hall

theorem hasUnitary_ryy {m : DenseMatrix ℂ}
    (hm : exact.gateMatrix reading.angle (.ryy angle) = .ok m) :
    HasUnitary (.exact reading) 2
      [Operation.sdg.on [0], Operation.sdg.on [1],
        (Operation.gate .h).on [0], (Operation.gate .h).on [1],
        (Operation.gate (.rzz angle)).on [0, 1],
        (Operation.gate .h).on [0], (Operation.gate .h).on [1],
        (Operation.gate .s).on [0], (Operation.gate .s).on [1]]
      (m.toMatrix 4) := by
  obtain ⟨x, hx, hm⟩ := bind_eq_ok_iff.1 hm
  obtain rfl := Except.ok.inj hm
  have hall := (hasUnitary_nil_two.phases_cons.interaction_cons hx).unphases_cons
  rw [crossed, toMatrix_ofRows_four, one_mul, Matrix.mul_assoc, phases_conjugate,
    neg_cartesian] at hall
  rw [crossed, toMatrix_ofRows_four]
  exact hall

theorem hasUnitary_iswap {m : DenseMatrix ℂ}
    (hm : exact.gateMatrix reading.angle .iswap = .ok m) :
    HasUnitary (.exact reading) 2
      [(Operation.gate (.rxx backQuarter)).on [0, 1], (Operation.gate (.ryy backQuarter)).on [0, 1]]
      (m.toMatrix 4) := by
  obtain rfl := Except.ok.inj hm
  have hx : exact.gateMatrix reading.angle (.rxx backQuarter) =
      .ok (crossed (exact.real (exact.cos (-(Real.pi / 2) / 2)))
        (exact.cartesian 0 (-exact.sin (-(Real.pi / 2) / 2)))
        (exact.cartesian 0 (-exact.sin (-(Real.pi / 2) / 2)))) := by
    rw [gateMatrix, reading.angle_backQuarter]
    rfl
  have hy : exact.gateMatrix reading.angle (.ryy backQuarter) =
      .ok (crossed (exact.real (exact.cos (-(Real.pi / 2) / 2)))
        (exact.cartesian 0 (exact.sin (-(Real.pi / 2) / 2)))
        (exact.cartesian 0 (-exact.sin (-(Real.pi / 2) / 2)))) := by
    rw [gateMatrix, reading.angle_backQuarter]
    rfl
  have hall := (hasUnitary_nil_two.both_cons hy rfl).both_cons hx rfl
  -- an eighth of a turn backwards has minus its sine as its cosine
  have hangle : -(Real.pi / 2) / 2 = -(Real.pi / 4) := by ring
  have hroot : ((√2 : ℝ) : ℂ) * ((√2 : ℝ) : ℂ) = 2 := by
    exact_mod_cast Real.mul_self_sqrt (by norm_num : (0 : ℝ) ≤ 2)
  rw [one_mul, crossed, crossed, toMatrix_ofRows_four, toMatrix_ofRows_four, ← neg_cartesian,
    hangle, exact_cos, exact_sin, Real.cos_neg, Real.sin_neg, Real.cos_pi_div_four,
    Real.sin_pi_div_four, neg_neg, exact_real, exact_cartesian, quarters_eq_exchange] at hall
  · rwa [Trigonometry.exchange, toMatrix_ofRows_four]
  · push_cast
    linear_combination hroot / 4
  · push_cast
    linear_combination hroot * I * I / 4 + I_mul_I / 2
  · push_cast
    linear_combination hroot * I / 4

theorem Circuit.HasUnitary.only_cons {insts : List Instruction} {A : Matrix (Fin 2) (Fin 2) ℂ}
    {g : Gate} {m : DenseMatrix ℂ} (h : HasUnitary (.exact reading) 1 insts A)
    (hm : exact.gateMatrix reading.angle g = .ok m) (hg : g.numQubits = 1) :
    HasUnitary (.exact reading) 1 ((Operation.gate g).on [0] :: insts) (A * m.toMatrix 2) :=
  h.cons rfl (actsBy_gate reading hm ⟨by decide, by decide⟩ hg.symm)
    (toMatrix_applyGate_zero (hasSide_gateMatrix hm hg))

theorem hasUnitary_u {theta phi lambda : Scalar} {m : DenseMatrix ℂ}
    (hm : exact.gateMatrix reading.angle (.u theta phi lambda) = .ok m) :
    HasUnitary (.exact reading) 1
      [(Operation.gate (.p lambda)).on [0], (Operation.gate (.ry theta)).on [0],
        (Operation.gate (.p phi)).on [0]]
      (m.toMatrix 2) := by
  obtain ⟨x, hx, hm⟩ := bind_eq_ok_iff.1 hm
  obtain ⟨y, hy, hm⟩ := bind_eq_ok_iff.1 hm
  obtain ⟨z, hz, hm⟩ := bind_eq_ok_iff.1 hm
  obtain rfl := Except.ok.inj hm
  have hp : ∀ {angle : Scalar} {value : ℝ}, reading.angle angle = .ok value →
      exact.gateMatrix reading.angle (.p angle) =
        .ok (ofRows [[1, 0], [0, exact.phase value]]) := fun hvalue => by
    rw [gateMatrix, hvalue]
    rfl
  have hry : exact.gateMatrix reading.angle (.ry theta) = .ok (exact.rotationY (x / 2)) := by
    rw [gateMatrix, hx]
    rfl
  have hnil : HasUnitary (.exact reading) 1 [] (1 : Matrix (Fin 2) (Fin 2) ℂ) := hasUnitary_nil rfl
  have hall := ((hnil.only_cons (hp hy) rfl).only_cons hry rfl).only_cons (hp hz) rfl
  rw [rotationY, toMatrix_ofRows_two, toMatrix_ofRows_two, toMatrix_ofRows_two, one_mul,
    Matrix.mul_fin_two, Matrix.mul_fin_two] at hall
  rw [general, toMatrix_ofRows_two]
  convert hall using 1
  simp only [exact_phase, exact_polar, exact_real, exact_cos, exact_sin, exact_half, ofReal_add,
    add_mul, Complex.exp_add]
  ext i j
  fin_cases i <;> fin_cases j <;> simp <;> ring

/-- On its own qubits a gate is what it expands to. -/
theorem hasUnitary_expansion {g : Gate} {m : DenseMatrix ℂ}
    (hm : exact.gateMatrix reading.angle g = .ok m) {steps : List (Operation × List Nat)}
    (hsteps : g.expansionSteps (List.range g.numQubits) = some steps) :
    HasUnitary (.exact reading) g.numQubits (steps.map fun step => step.1.on step.2)
      (m.toMatrix (dimension g.numQubits)) := by
  cases g with
  | swap =>
      obtain rfl := Option.some.inj hsteps
      obtain rfl := Except.ok.inj hm
      exact hasUnitary_swap
  | iswap =>
      obtain rfl := Option.some.inj hsteps
      exact hasUnitary_iswap hm
  | rzz angle =>
      obtain rfl := Option.some.inj hsteps
      exact hasUnitary_rzz hm
  | rxx angle =>
      obtain rfl := Option.some.inj hsteps
      exact hasUnitary_rxx hm
  | ryy angle =>
      obtain rfl := Option.some.inj hsteps
      exact hasUnitary_ryy hm
  | u theta phi lambda =>
      obtain rfl := Option.some.inj hsteps
      exact hasUnitary_u hm
  | _ => cases hsteps

end Windows

section Register

open Circuit

variable {reading : Reading} {g : Gate} {m state : DenseMatrix ℂ} {n : Nat} {qubits : List Nat}
  {steps : List (Operation × List Nat)}

/-- On other qubits a gate expands to the same, on the qubits that its own stand for. -/
theorem expansionSteps_standFor (hlength : qubits.length = g.numQubits)
    (hsteps : g.expansionSteps qubits = some steps) :
    ∃ own, g.expansionSteps (List.range g.numQubits) = some own ∧
      steps = own.map fun step => (step.1, standFor qubits step.2) := by
  cases g with
  | u theta phi lambda =>
      obtain ⟨a, rfl⟩ := List.length_eq_one_iff.1 hlength
      exact ⟨_, rfl, (Option.some.inj hsteps).symm⟩
  | swap | iswap | rzz angle | rxx angle | ryy angle =>
      obtain ⟨a, b, rfl⟩ := List.length_eq_two.1 hlength
      exact ⟨_, rfl, (Option.some.inj hsteps).symm⟩
  | _ => cases hsteps

theorem map_on_standFor (own : List (Operation × List Nat)) :
    ((own.map fun step => (step.1, standFor qubits step.2)).map fun step => step.1.on step.2) =
      (own.map fun step => step.1.on step.2).map (·.within qubits) := by
  rw [List.map_map, List.map_map]
  rfl

/-- Every instruction of an expansion is a gate with a matrix. -/
theorem actsBy_expansion (hm : Trigonometry.exact.gateMatrix reading.angle g = .ok m)
    (hlength : qubits.length = g.numQubits) (hbelow : TargetsBelow n qubits)
    (hsteps : g.expansionSteps qubits = some steps) :
    ∀ step ∈ steps, ∃ m', (step.1.on step.2).ActsBy (.exact reading) n m' := by
  obtain ⟨own, hown, rfl⟩ := expansionSteps_standFor hlength hsteps
  have hacts := (hasUnitary_expansion hm hown).acts
  intro step hstep
  obtain ⟨first, hfirst, rfl⟩ := List.mem_map.1 hstep
  obtain ⟨m', hm'⟩ := hacts _ (List.mem_map_of_mem hfirst)
  rw [← hlength] at hm'
  exact ⟨m', hm'.within hbelow⟩

/-- On any qubits of a register the expansion of a gate does what the gate does. -/
theorem foldlM_expansion (hm : Trigonometry.exact.gateMatrix reading.angle g = .ok m)
    (hlength : qubits.length = g.numQubits) (hbelow : TargetsBelow n qubits)
    (hsteps : g.expansionSteps qubits = some steps) (hstate : state.rows = dimension n) :
    (steps.map fun step => step.1.on step.2).foldlM (applyInstruction (.exact reading) n) state =
      .ok (state.applyGate m qubits n) := by
  obtain ⟨own, hown, rfl⟩ := expansionSteps_standFor hlength hsteps
  obtain ⟨hacts, u, hrun, hside, hentries⟩ := hasUnitary_expansion hm hown
  obtain rfl := hside.ext (hasSide_gateMatrix hm rfl) hentries
  rw [← hlength] at hacts hrun
  have hwithin := foldlM_within hbelow hacts rfl hstate hrun
  rwa [DenseMatrix.applyGate_identity, ← map_on_standFor] at hwithin

end Register

end GateAlgebra
