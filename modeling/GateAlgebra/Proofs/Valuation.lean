import GateAlgebra.Proofs.KnownRoot
import GateAlgebra.Proofs.PrincipalPower
import GateAlgebra.Proofs.RegisterOperator
/-!
The exact meaning of operations.  Where every parameter stands for a real number and every custom
gate for a unitary matrix, operations have the matrices that are computed from these without
rounding, powers are principal, and every rule of lowering is an equation.
-/

namespace GateAlgebra

open Matrix
open scoped Matrix.Norms.L2Operator

/-- The matrix of Y, a reflection. -/
noncomputable def pauliY : BitMatrix ℂ 1 :=
  (Trigonometry.exact.pauliY : DenseMatrix ℂ).bitMatrix 1

theorem pauliY_eq : pauliY = Matrix.reindexAlgEquiv ℂ ℂ (bitsEquiv 1) reflectionY := by
  have hmatrix : (Trigonometry.exact.pauliY : DenseMatrix ℂ).toMatrix 2 = reflectionY := by
    refine (DenseMatrix.toMatrix_ofRows_two _ _ _ _).trans ?_
    rw [Trigonometry.exact_i, reflectionY]
  exact congrArg _ hmatrix

theorem pauliY_mul_self : pauliY * pauliY = 1 := by
  rw [pauliY_eq]
  exact (map_mul _ _ _).symm.trans ((congrArg _ reflectionY_mul_self).trans (map_one _))

theorem pauliY_ne_one : pauliY ≠ 1 := by
  rw [pauliY_eq]
  intro hone
  have hmatrix : reflectionY = 1 :=
    (Matrix.reindexAlgEquiv ℂ ℂ (bitsEquiv 1)).injective (hone.trans (map_one _).symm)
  have hentry := congrFun (congrFun hmatrix 0) 0
  simp [reflectionY] at hentry

theorem pauliY_mem : pauliY ∈ unitaryGroup (Bits 1) ℂ := by
  have hm : Trigonometry.exact.gateMatrix (fun _ => (.ok 0 : Except Empty ℝ)) .y =
    .ok Trigonometry.exact.pauliY := rfl
  exact DenseMatrix.bitMatrix_mem_unitary (hasSide_gateMatrix hm rfl)
    (Trigonometry.isUnitary_gateMatrix hm)

/-- Numbers for all parameters of gates, and unitary matrices for all custom gates. -/
structure Valuation where
  angle : Scalar → ℝ
  custom : CustomGate → DenseMatrix ℂ
  /-- The constant of a quarter turn backwards is what it stands for. -/
  angle_backQuarter : angle backQuarter = -(Real.pi / 2)
  rows_custom : ∀ g, (custom g).rows = dimension g.numQubits
  isUnitary_custom : ∀ g, (custom g).IsUnitary
  /-- The numbers of doubles are on the same side of the branch cut. -/
  admitsRotation : ∀ s x, s.real? = some x → BranchCut.double.admitsRotation x = true →
    BranchCut.exact.admitsRotation (angle s) = true
  admitsPhase : ∀ s x, s.real? = some x → BranchCut.double.admitsPhase x = true →
    BranchCut.exact.admitsPhase (angle s) = true

namespace Valuation

variable (v : Valuation)

theorem ok_angle_backQuarter :
    (.ok (v.angle backQuarter) : Except CircuitError ℝ) = .ok (-(Real.pi / 2)) :=
  congrArg Except.ok v.angle_backQuarter

theorem rows_of_custom_eq_ok (g : CustomGate) (m : DenseMatrix ℂ)
    (h : (.ok (v.custom g) : Except CircuitError (DenseMatrix ℂ)) = .ok m) :
    m.rows = dimension g.numQubits := by
  obtain rfl := Except.ok.inj h
  exact v.rows_custom g

theorem isUnitary_of_custom_eq_ok (g : CustomGate) (m : DenseMatrix ℂ)
    (h : (.ok (v.custom g) : Except CircuitError (DenseMatrix ℂ)) = .ok m) : m.IsUnitary := by
  obtain rfl := Except.ok.inj h
  exact v.isUnitary_custom g

/-- The same numbers and matrices, none of them missing. -/
def reading : Reading where
  angle s := .ok (v.angle s)
  custom g := .ok (v.custom g)
  angle_backQuarter := v.ok_angle_backQuarter
  rows_custom := v.rows_of_custom_eq_ok
  isUnitary_custom := v.isUnitary_of_custom_eq_ok

/-- The matrix of a gate. -/
noncomputable def gateMatrix (g : Gate) : DenseMatrix ℂ :=
  match Trigonometry.exact.gateMatrix (fun s => (.ok (v.angle s) : Except Empty ℝ)) g with
  | .ok m => m

theorem gateMatrix_eq {ε : Type} (g : Gate) :
    Trigonometry.exact.gateMatrix (fun s => (.ok (v.angle s) : Except ε ℝ)) g =
      .ok (v.gateMatrix g) := by
  cases g <;> rfl

theorem hasSide_gateMatrix (g : Gate) : (v.gateMatrix g).HasSide (dimension g.numQubits) :=
  GateAlgebra.hasSide_gateMatrix (v.gateMatrix_eq (ε := Empty) g) rfl

theorem isUnitary_gateMatrix (g : Gate) : (v.gateMatrix g).IsUnitary :=
  Trigonometry.isUnitary_gateMatrix (v.gateMatrix_eq (ε := Empty) g)

theorem hasSide_custom (g : CustomGate) : (v.custom g).HasSide (dimension g.numQubits) :=
  ⟨v.rows_custom g, (v.isUnitary_custom g).square.symm.trans (v.rows_custom g)⟩

/-- Every gate has a matrix, whatever modifies it. -/
theorem exists_matrix {op : Operation} (h : op.isUnitary = true) :
    ∃ m, op.matrixOver (.exact v.reading) = .ok m := by
  induction op with
  | gate g => exact ⟨_, v.gateMatrix_eq g⟩
  | custom g => exact ⟨_, rfl⟩
  | controlled n w ih =>
      obtain ⟨m, hm⟩ := ih h
      exact ⟨_, (Operation.matrixOver_controlled _ n w).trans (congrArg _ hm)⟩
  | powered e w ih =>
      obtain ⟨m, hm⟩ := ih h
      exact ⟨_, Operation.matrixOver_powered hm⟩
  | inverted w ih =>
      obtain ⟨m, hm⟩ := ih h
      exact ⟨_, (Operation.matrixOver_inverted _ w).trans (congrArg _ hm)⟩
  | repeated n w ih =>
      obtain ⟨m, hm⟩ := ih h
      exact ⟨_, (Operation.matrixOver_repeated _ n w).trans (congrArg _ hm)⟩
  | _ => cases h

/-! ### Matrices of bit strings -/

/-- The matrix of an operation, by the bits of its rows and columns. -/
noncomputable def den : (op : Operation) → BitMatrix ℂ op.numQubits
  | .gate g => (v.gateMatrix g).bitMatrix g.numQubits
  | .custom g => (v.custom g).bitMatrix g.numQubits
  | .controlled n w => blockControl n (den w)
  | .powered e w => principalPower (den w) e.number
  | .inverted w => (den w).conjTranspose
  | .repeated n w => tensorPower n (den w)
  | .measure | .reset | .barrier _ | .channel _ | .observable _ | .expectation _ => 1

theorem bitMatrix_pauliX :
    (Trigonometry.pauliX : DenseMatrix ℂ).bitMatrix 1 = negation ℂ := by
  refine DenseMatrix.bitMatrix_ext fun i j => ?_
  rw [DenseMatrix.bitMatrix_apply]
  fin_cases i <;> fin_cases j <;> rfl

/-- Operations by their matrices. -/
noncomputable def toSemantics : Semantics ℂ where
  den := v.den
  den_x := bitMatrix_pauliX
  den_controlled _ _ := rfl

theorem reads : v.toSemantics.Reads (.exact v.reading) := by
  intro op m hunitary hm
  refine (Operation.matrixOver_induction (P := fun x m =>
    m.HasSide (dimension x.numQubits) ∧ m.IsUnitary ∧ v.den x = m.bitMatrix x.numQubits)
    ?_ ?_ ?_ ?_ ?_ ?_ hunitary hm).2.2
  · intro g m h
    obtain rfl := Except.ok.inj ((v.gateMatrix_eq g).symm.trans h)
    exact ⟨v.hasSide_gateMatrix g, v.isUnitary_gateMatrix g, rfl⟩
  · intro g m h
    obtain rfl := Except.ok.inj h
    exact ⟨v.hasSide_custom g, v.isUnitary_custom g, rfl⟩
  · rintro n w m ⟨hside, hunitary, hden⟩
    refine ⟨?_, hunitary.control n, ?_⟩
    · exact hside.control n
    · rw [den, hden]
      exact (DenseMatrix.bitMatrix_control hside n).symm
  · rintro e w m p ⟨hside, hunitary, hden⟩ hp
    obtain rfl := Except.ok.inj hp
    refine ⟨hside.exactPower e, hunitary.exactPower e, ?_⟩
    rw [den, hden]
    exact (DenseMatrix.bitMatrix_exactPower hside hunitary e).symm
  · rintro w m ⟨hside, hunitary, hden⟩
    refine ⟨hside.adjoint, hunitary.adjoint, ?_⟩
    rw [den, hden]
    exact (DenseMatrix.bitMatrix_adjoint hside).symm
  · rintro n w m ⟨hside, hunitary, hden⟩
    refine ⟨hside.tensorPower n, hunitary.tensorPower n, ?_⟩
    rw [den, hden]
    exact (DenseMatrix.bitMatrix_tensorPower hside n).symm

/-- Matrices on targets are what unitary matrices of registers hold. -/
theorem operator_gate {n : Nat} {g : Gate} {qubits : List Nat}
    (hlength : qubits.length = g.numQubits)
    (hbelow : TargetsBelow n qubits) :
    v.toSemantics.operator (.gate g) qubits = place (List.range n)
      (((DenseMatrix.identity (dimension n)).applyGate (v.gateMatrix g) qubits n).bitMatrix n) :=
  place_bitMatrix hbelow hlength (v.hasSide_gateMatrix g)

/-- A gate is what it expands to. -/
theorem operator_expansion {g : Gate} {qubits : List Nat} {steps : List (Operation × List Nat)}
    (hlength : qubits.length = g.numQubits) (hnodup : qubits.Nodup)
    (hsteps : g.expansionSteps qubits = some steps) :
    v.toSemantics.operator (.gate g) qubits =
      v.toSemantics.run (steps.map fun step => step.1.on step.2) := by
  -- on a register that holds all of the qubits
  let n := qubits.sum + 1
  have hbelow : TargetsBelow n qubits :=
    ⟨hnodup, fun q hq => Nat.lt_succ_of_le (List.single_le_sum (by simp) q hq)⟩
  have hm : Trigonometry.exact.gateMatrix v.reading.angle g = .ok (v.gateMatrix g) :=
    v.gateMatrix_eq g
  have hside : (DenseMatrix.identity (dimension n) : DenseMatrix ℂ).HasSide (dimension n) :=
    ⟨rfl, rfl⟩
  have hgates : ∀ inst ∈ steps.map fun step => step.1.on step.2,
      inst.GateBelow (.exact v.reading) n := by
    refine List.forall_mem_map.2 fun step hstep => ?_
    obtain ⟨m, hacts⟩ := actsBy_expansion hm hlength hbelow hsteps step hstep
    exact ⟨valid_of_expansionSteps hlength hnodup hsteps step hstep,
      ((isStep_of_expansionSteps hsteps).2 step hstep).1.isUnitary, ⟨m, hacts.matrix⟩,
      hacts.below.lt⟩
  obtain ⟨u, hrun, -, hplace⟩ := v.reads.run (LeafMatrices.sized_exact v.reading) hgates hside
  obtain rfl := Except.ok.inj
    ((foldlM_expansion hm hlength hbelow hsteps rfl).symm.trans hrun)
  rw [v.operator_gate hlength hbelow, hplace, DenseMatrix.bitMatrix_identity,
    place_one List.length_range List.nodup_range, mul_one]

/-! ### Known roots -/

theorem exactMatrix_plain {r : Gate} (hr : r.parameters = []) :
    (KnownRoot.plain r).exactMatrix = .ok (v.gateMatrix r) := by
  cases r <;> first | rfl | cases hr

theorem exactMatrix_turned {family : Scalar → Gate} (hfamily : family ∈ Gate.families)
    (s : Scalar) : (KnownRoot.turned family (v.angle s)).exactMatrix =
      .ok (v.gateMatrix (family s)) := by
  simp only [Gate.families, List.mem_cons, List.not_mem_nil, or_false] at hfamily
  rcases hfamily with rfl | rfl | rfl | rfl | rfl | rfl | rfl <;> rfl

/-- Gates with known roots have no more than one angle. -/
theorem exists_angle {g root : Gate} {e : Exponent} (h : g.root? e = some root) :
    ∃ x, (∀ s ∈ g.parameters, v.angle s = x) ∧
      Trigonometry.exact.gateMatrix (fun _ => (.ok x : Except Unit ℝ)) g =
        .ok (v.gateMatrix g) := by
  rcases Gate.eq_of_root? h with hplain | ⟨family, hfamily, s, -, rfl, -⟩
  · simp only [List.mem_cons, Prod.mk.injEq, List.not_mem_nil, or_false] at hplain
    rcases hplain with ⟨rfl, -⟩ | ⟨rfl, -⟩ | ⟨rfl, -⟩ | ⟨rfl, -⟩ | ⟨rfl, -⟩ <;>
      exact ⟨0, List.forall_mem_nil _, rfl⟩
  · simp only [Gate.families, List.mem_cons, List.not_mem_nil, or_false] at hfamily
    rcases hfamily with rfl | rfl | rfl | rfl | rfl | rfl | rfl <;>
      exact ⟨v.angle s, List.forall_mem_singleton.2 rfl, rfl⟩

/-- The matrix of a known root is the power of the matrix, if its angle is the exact product. -/
theorem toMatrix_root {g root : Gate} {e : Exponent} (h : g.root? e = some root)
    (hscales : g.ScalesExactly v.angle e root) :
    (v.gateMatrix root).toMatrix (dimension g.numQubits) =
      principalPower ((v.gateMatrix g).toMatrix (dimension g.numQubits)) e.number := by
  obtain ⟨x, hx, hm⟩ := v.exists_angle h
  have hadmitted : g.Admitted .exact x :=
    ⟨fun s hs d hd hadmits => hx s hs ▸ v.admitsRotation s d hd hadmits,
      fun s hs d hd hadmits => hx s hs ▸ v.admitsPhase s d hd hadmits⟩
  obtain ⟨exact, hexact, hdoubles⟩ := Gate.exists_exactRoot? hadmitted h
  have hprincipal :=
    Gate.rootsPrincipally_of_exactRoot? BranchCut.covers_exact.toValid hexact
  refine hprincipal.toMatrix_eq hm ?_
  rcases Gate.cases_of_exactRoot? hexact with ⟨r, rfl, hr⟩ | ⟨family, hfamily, rfl⟩
  · obtain rfl : root = r := hdoubles
    exact v.exactMatrix_plain hr
  · obtain ⟨s, d, rfl, -, rfl⟩ := hdoubles
    have hparameters := fun s => Gate.parameters_of_mem_families hfamily s
    have hangle := hscales s (by simp [hparameters]) _
      (by rw [hparameters]; exact List.mem_cons_self)
    rw [← hx s (by simp [hparameters]), ← hangle]
    exact v.exactMatrix_turned hfamily _

theorem operator_root {g root : Gate} {e : Exponent} {qubits : List Nat} (h : g.root? e = some root)
    (hscales : g.ScalesExactly v.angle e root) :
    v.toSemantics.operator (.gate root) qubits =
      v.toSemantics.operator (.powered e (.gate g)) qubits := by
  have hunitary := (v.hasSide_gateMatrix g).isUnitary_iff.1 (v.isUnitary_gateMatrix g)
  have hbits : (v.gateMatrix root).bitMatrix g.numQubits =
      principalPower ((v.gateMatrix g).bitMatrix g.numQubits) e.number := by
    rw [DenseMatrix.bitMatrix, v.toMatrix_root h hscales,
      ← DenseMatrix.principalPower_reindex _ hunitary]
    rfl
  calc v.toSemantics.operator (.gate root) qubits
      = place qubits ((v.gateMatrix root).bitMatrix g.numQubits) :=
        congrArg (fun k => place qubits ((v.gateMatrix root).bitMatrix k))
          (Gate.numQubits_of_root? h)
    _ = v.toSemantics.operator (.powered e (.gate g)) qubits := congrArg (place qubits) hbits

/-! ### The semantics -/

/-- The exact meaning of operations. -/
noncomputable def semantics : ExactSemantics ℂ where
  toSemantics := v.toSemantics
  angle := v.angle
  power := principalPower
  den_inverted _ := rfl
  den_repeated _ _ := rfl
  den_powered _ _ := rfl
  gate_mem g :=
    DenseMatrix.bitMatrix_mem_unitary (v.hasSide_gateMatrix g) (v.isUnitary_gateMatrix g)
  custom_mem g := DenseMatrix.bitMatrix_mem_unitary (v.hasSide_custom g) (v.isUnitary_custom g)
  power_mem hA _ := principalPower_mem hA
  power_zero := principalPower_zero
  power_one := principalPower_one
  power_add hA _ _ := principalPower_mul hA
  expansion_eq _ _ _ hlength hnodup hsteps := v.operator_expansion hlength hnodup hsteps
  root_eq _ _ _ _ _ _ hroot hscales := v.operator_root hroot hscales

theorem basePower_y (p : Rat) (q : Nat) :
    v.semantics.basePower (.gate .y) p [q] = place [q] (principalPower pauliY p) :=
  rfl

theorem takesPrincipalPowers : v.semantics.TakesPrincipalPowers := fun _ _ => rfl

end Valuation

/-- Angles stand for themselves, and those that are not known for zero. -/
noncomputable def knownAngle (s : Scalar) : ℝ :=
  (plainAngle s).toOption.getD 0

/-- Numbers are exact but for the quarter turn backwards. -/
theorem knownAngle_cases {s : Scalar} {x : Float} (h : s.real? = some x) :
    knownAngle s = -(Real.pi / 2) ∨ knownAngle s = (Double.ofFloat x).value := by
  rw [knownAngle, plainAngle, h]
  split
  · exact Or.inl (congrArg (fun n : ℝ => -(Real.pi / n)) Nat.cast_ofNat)
  · exact Or.inr rfl

theorem knownAngle_of_real? {s : Scalar} {x : Float} (h : s.real? = some x)
    (hother : (s == backQuarter) = false) : knownAngle s = (Double.ofFloat x).value := by
  rw [knownAngle, plainAngle, hother, h]
  rfl

theorem knownAngle_backQuarter : knownAngle backQuarter = -(Real.pi / 2) := by
  rw [knownAngle, plainAngle_backQuarter]
  rfl

theorem admitsRotation_knownAngle (s : Scalar) (x : Float) (hs : s.real? = some x)
    (hx : BranchCut.double.admitsRotation x = true) :
    BranchCut.exact.admitsRotation (knownAngle s) = true := by
  have hpi := Real.pi_gt_three
  rcases knownAngle_cases hs with hangle | hangle <;> rw [hangle]
  · refine Bool.and_eq_true_iff.2 ⟨decide_eq_true ?_, decide_eq_true ?_⟩ <;>
      norm_num [BranchCut.exact] <;> linarith
  · exact BranchCut.covers_exact.admitsRotation_value hx

theorem admitsPhase_knownAngle (s : Scalar) (x : Float) (hs : s.real? = some x)
    (hx : BranchCut.double.admitsPhase x = true) :
    BranchCut.exact.admitsPhase (knownAngle s) = true := by
  have hpi := Real.pi_gt_three
  rcases knownAngle_cases hs with hangle | hangle <;> rw [hangle]
  · refine Bool.and_eq_true_iff.2 ⟨decide_eq_true ?_, decide_eq_true ?_⟩ <;>
      norm_num [BranchCut.exact] <;> linarith
  · exact BranchCut.covers_exact.admitsPhase_value hx

/-- Numbers stand for themselves, and custom gates do nothing. -/
noncomputable def Valuation.plain : Valuation where
  angle := knownAngle
  custom g := .identity (dimension g.numQubits)
  angle_backQuarter := knownAngle_backQuarter
  rows_custom _ := rfl
  isUnitary_custom _ := DenseMatrix.isUnitary_identity _
  admitsRotation := admitsRotation_knownAngle
  admitsPhase := admitsPhase_knownAngle

end GateAlgebra
