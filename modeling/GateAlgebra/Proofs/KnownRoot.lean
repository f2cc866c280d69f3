import Mathlib.Analysis.Real.Pi.Bounds
import GateAlgebra.Proofs.Comparable
import GateAlgebra.Proofs.DiagonalForm
import GateAlgebra.Proofs.DoubleOrder
import GateAlgebra.Proofs.Reflected
/-!
Known roots are principal powers.  The root of a gate has the eigenvectors of the gate, and the
angles that the rules admit keep both eigenvalues clear of the band at the branch cut, so there the
principal power scales the angle as the root does.
-/

namespace GateAlgebra

open Matrix Complex

/-! ### Known roots -/

/-- The matrix of a root over real numbers.  A gate without an angle reads none. -/
noncomputable def KnownRoot.exactMatrix : KnownRoot ℝ → Except Unit (DenseMatrix ℂ)
  | plain g => Trigonometry.exact.gateMatrix (fun _ => .error ()) g
  | turned family angle => Trigonometry.exact.gateMatrix (fun _ => .ok angle) (family (.real 0))

namespace Gate

/-- The root of a gate over real numbers, by the exact value of its angle. -/
noncomputable def exactRoot? (cut : BranchCut ℝ) (x : ℝ) (e : Exponent) (g : Gate) :
    Option (KnownRoot ℝ) :=
  g.rootBy (fun _ => scaledAngle cut.admitsRotation e.number x)
    (fun _ => scaledAngle cut.admitsPhase e.number x) e

/-- The gate at an angle and its root have matrices of one size.  Every eigenvalue of the gate is
clear of the band at the cut, and its principal power is the eigenvalue of the root for the same
eigenvector. -/
def RootsPrincipally (cut : BranchCut ℝ) (g : Gate) (root : KnownRoot ℝ) (x p : ℝ) : Prop :=
  ∃ m m', Trigonometry.exact.gateMatrix (fun _ => (.ok x : Except Unit ℝ)) g = .ok m ∧
    root.exactMatrix = .ok m' ∧
    m.HasSide (dimension g.numQubits) ∧ m'.HasSide (dimension g.numQubits) ∧
    ∀ (z : ℂ) (v : Fin (dimension g.numQubits) → ℂ), v ≠ 0 →
      m.toMatrix (dimension g.numQubits) *ᵥ v = z • v →
      cut.tolerance ≤ z.arg + cut.pi ∧
        m'.toMatrix (dimension g.numQubits) *ᵥ v = cut.powerOf .exact z p • v

variable {cut : BranchCut ℝ} {g : Gate} {root : KnownRoot ℝ} {e : Exponent} {x : ℝ}

/-- A gate that turns one eigenvector by a fixed angle, and a gate that turns it by a share of
that angle. -/
theorem rootsPrincipally_plain (hcut : cut.Valid) {p φ ψ : ℝ} {r : Gate} {m m' : DenseMatrix ℂ}
    {J : Matrix (Fin (dimension g.numQubits)) (Fin (dimension g.numQubits)) ℂ} (hJ : J * J = 1)
    (hm : Trigonometry.exact.gateMatrix (fun _ => (.ok x : Except Unit ℝ)) g = .ok m)
    (hm' : Trigonometry.exact.gateMatrix (fun _ => (.error () : Except Unit ℝ)) r = .ok m')
    (hqubits : r.numQubits = g.numQubits)
    (hM : m.toMatrix (dimension g.numQubits) = reflected J 1 (exp (φ * I)))
    (hM' : m'.toMatrix (dimension g.numQubits) = reflected J 1 (exp (ψ * I)))
    (hshare : p * φ = ψ) (hnonneg : 0 ≤ φ) (hle : φ ≤ Real.pi) :
    g.RootsPrincipally cut (.plain r) x p := by
  rw [← hshare] at hM'
  have hturns := turnsAlong_phase hcut hJ hM hM' (hcut.clears_of_nonneg hnonneg hle)
  exact ⟨m, m', hm, hm', hasSide_gateMatrix hm rfl, hasSide_gateMatrix hm' hqubits,
    fun _ _ => hturns.eigenvector⟩

/-- Gates of one family whose matrices turn along one reflection, the root by the share of the
angle. -/
theorem rootsPrincipally_turned {family : Scalar → Gate} {n : Nat}
    (hqubits : ∀ s, (family s).numQubits = n) {M : ℝ → DenseMatrix ℂ}
    (hm : ∀ s y, Trigonometry.exact.gateMatrix (fun _ => (.ok y : Except Unit ℝ)) (family s) =
      .ok (M y))
    {p α β : ℝ} {J : Matrix (Fin (dimension n)) (Fin (dimension n)) ℂ} (s : Scalar)
    (h : TurnsAlong cut p ((M x).toMatrix (dimension n)) ((M (p * x)).toMatrix (dimension n))
      J α β) :
    (family s).RootsPrincipally cut (.turned family (p * x)) x p := by
  obtain rfl := hqubits s
  exact ⟨M x, M (p * x), hm s x, hm _ _, hasSide_gateMatrix (hm s x) rfl,
    hasSide_gateMatrix (hm (.real 0) (p * x)) (hqubits _), fun _ _ => h.eigenvector⟩

/-- Gates of one family whose matrices are rotations by the angle. -/
theorem rootsPrincipally_rotation (hcut : cut.Valid) (family : Scalar → Gate) (n : Nat)
    (hqubits : ∀ s, (family s).numQubits = n) {M : ℝ → DenseMatrix ℂ}
    (hm : ∀ s y, Trigonometry.exact.gateMatrix (fun _ => (.ok y : Except Unit ℝ)) (family s) =
      .ok (M y))
    {J : Matrix (Fin (dimension n)) (Fin (dimension n)) ℂ} (hJ : J * J = 1)
    (hM : ∀ y, (M y).toMatrix (dimension n) =
      reflected J (exp ((-(y / 2) : ℝ) * I)) (exp ((y / 2 : ℝ) * I)))
    {p : ℝ} {s : Scalar}
    (h : (scaledAngle cut.admitsRotation p x).map (.turned family) = some root) :
    (family s).RootsPrincipally cut root x p := by
  obtain ⟨y, hy, rfl⟩ := Option.map_eq_some_iff.1 h
  obtain ⟨hadmits, hshare⟩ := Option.ite_none_right_eq_some.1 hy
  obtain rfl := Option.some.inj hshare
  exact rootsPrincipally_turned hqubits hm s
    (turnsAlong_rotation hcut hJ (hM x) (hM (p * x)) hadmits)

theorem number_of_ratio? {q : Rat} (hq : 0 ≤ q) (h : (e.ratio? == some q) = true) :
    e.number = q := by
  cases e with
  | real value => cases h
  | rational ratio =>
      obtain rfl : ratio = q := Option.some.inj (eq_of_beq h)
      exact max_eq_left hq

theorem number_of_half (h : (e.ratio? == some (mkRat 1 2)) = true) : (e.number : ℝ) = 1 / 2 := by
  rw [number_of_ratio? (by decide) h]
  norm_num [Rat.mkRat_eq_div]

theorem number_of_quarter (h : (e.ratio? == some (mkRat 1 4)) = true) :
    (e.number : ℝ) = 1 / 4 := by
  rw [number_of_ratio? (by decide) h]
  norm_num [Rat.mkRat_eq_div]

/-- A root over real numbers is a gate without an angle, or in the family of the gate at the share
of the angle. -/
theorem cases_of_exactRoot? (h : g.exactRoot? cut x e = some root) :
    (∃ r, root = .plain r ∧ r.parameters = []) ∨
      ∃ family ∈ families, root = .turned family (e.number * x) := by
  cases g
  all_goals
    simp only [exactRoot?, rootBy, scaledAngle, Option.map_eq_some_iff,
      Option.ite_none_right_eq_some, Option.some.injEq, reduceCtorEq] at h
  case rx | ry | rz | rxx | ryy | rzz | p =>
    obtain ⟨_, ⟨-, rfl⟩, rfl⟩ := h
    exact Or.inr ⟨_, by simp [families], rfl⟩
  case i =>
    subst h
    exact Or.inl ⟨i, rfl, rfl⟩
  case x | s =>
    obtain ⟨-, rfl⟩ := h
    exact Or.inl ⟨_, rfl, rfl⟩
  case z =>
    split at h
    · obtain rfl := Option.some.inj h
      exact Or.inl ⟨s, rfl, rfl⟩
    · obtain ⟨-, hroot⟩ := Option.ite_none_right_eq_some.1 h
      obtain rfl := Option.some.inj hroot
      exact Or.inl ⟨t, rfl, rfl⟩

/-- A root over real numbers is the principal power. -/
theorem rootsPrincipally_of_exactRoot? (hcut : cut.Valid)
    (h : g.exactRoot? cut x e = some root) : g.RootsPrincipally cut root x e.number := by
  have hpi := Real.pi_pos
  cases g with
  | i =>
      obtain rfl := Option.some.inj h
      have hone : (DenseMatrix.identity 2 : DenseMatrix ℂ).toMatrix 2 =
          reflected reflectionZ 1 (exp ((0 : ℝ) * I)) := by
        rw [reflected_reflectionZ, DenseMatrix.toMatrix_identity, ofReal_zero, zero_mul, exp_zero,
          Matrix.one_fin_two]
      exact rootsPrincipally_plain hcut reflectionZ_mul_self rfl rfl rfl hone hone (mul_zero _)
        le_rfl hpi.le
  | x =>
      obtain ⟨hhalf, hroot⟩ := Option.ite_none_right_eq_some.1 h
      obtain rfl := Option.some.inj hroot
      rw [number_of_half hhalf]
      exact rootsPrincipally_plain hcut reflectionX_mul_self rfl rfl rfl toMatrix_pauliX
        toMatrix_sx (by ring) hpi.le le_rfl
  | z =>
      change (if (e.ratio? == some (mkRat 1 2)) = true then some (.plain s)
        else if (e.ratio? == some (mkRat 1 4)) = true then some (.plain t) else none) =
          some root at h
      split at h
      · rename_i hhalf
        obtain rfl := Option.some.inj h
        rw [number_of_half hhalf]
        exact rootsPrincipally_plain hcut reflectionZ_mul_self rfl rfl rfl toMatrix_pauliZ
          toMatrix_s (by ring) hpi.le le_rfl
      · obtain ⟨hquarter, hroot⟩ := Option.ite_none_right_eq_some.1 h
        obtain rfl := Option.some.inj hroot
        rw [number_of_quarter hquarter]
        exact rootsPrincipally_plain hcut reflectionZ_mul_self rfl rfl rfl toMatrix_pauliZ
          toMatrix_t (by ring) hpi.le le_rfl
  | s =>
      obtain ⟨hhalf, hroot⟩ := Option.ite_none_right_eq_some.1 h
      obtain rfl := Option.some.inj hroot
      rw [number_of_half hhalf]
      exact rootsPrincipally_plain hcut reflectionZ_mul_self rfl rfl rfl toMatrix_s toMatrix_t
        (by ring) (by linarith) (by linarith)
  | rx angle =>
      exact rootsPrincipally_rotation hcut rx 1 (fun _ => rfl) (fun _ _ => rfl)
        reflectionX_mul_self toMatrix_rotationX h
  | ry angle =>
      exact rootsPrincipally_rotation hcut ry 1 (fun _ => rfl) (fun _ _ => rfl)
        reflectionY_mul_self toMatrix_rotationY h
  | rz angle =>
      exact rootsPrincipally_rotation hcut rz 1 (fun _ => rfl) (fun _ _ => rfl)
        reflectionZ_mul_self toMatrix_rotationZ h
  | rzz angle =>
      exact rootsPrincipally_rotation hcut rzz 2 (fun _ => rfl) (fun _ _ => rfl)
        reflectionZZ_mul_self toMatrix_rotationZZ h
  | rxx angle =>
      exact rootsPrincipally_rotation hcut rxx 2 (fun _ => rfl) (fun _ _ => rfl)
        (reflectionCrossed_mul_self (one_mul 1)) toMatrix_rotationXX h
  | ryy angle =>
      exact rootsPrincipally_rotation hcut ryy 2 (fun _ => rfl) (fun _ _ => rfl)
        (reflectionCrossed_mul_self (by norm_num)) toMatrix_rotationYY h
  | p angle =>
      obtain ⟨y, hy, rfl⟩ := Option.map_eq_some_iff.1 h
      obtain ⟨hadmits, hshare⟩ := Option.ite_none_right_eq_some.1 hy
      obtain rfl := Option.some.inj hshare
      have hturns := turnsAlong_phase hcut reflectionZ_mul_self (toMatrix_phase x)
        (toMatrix_phase (e.number * x)) (hcut.clears_phase hadmits)
      exact rootsPrincipally_turned (n := 1) (fun _ => rfl)
        (M := fun y => .ofRows [[1, 0], [0, Trigonometry.exact.phase y]]) (fun _ _ => rfl) angle
        hturns
  | y | h | t | sx | u | swap | iswap => cases h

/-- So its matrix is the power of the matrix. -/
theorem RootsPrincipally.toMatrix_eq {p : Rat} (h : g.RootsPrincipally cut root x p)
    {m m' : DenseMatrix ℂ}
    (hm : Trigonometry.exact.gateMatrix (fun _ => (.ok x : Except Unit ℝ)) g = .ok m)
    (hm' : root.exactMatrix = .ok m') :
    m'.toMatrix (dimension g.numQubits) =
      principalPower (m.toMatrix (dimension g.numQubits)) p := by
  obtain ⟨_, _, hbase, hroot, hside, -, heigen⟩ := h
  obtain rfl := Except.ok.inj (hbase.symm.trans hm)
  obtain rfl := Except.ok.inj (hroot.symm.trans hm')
  refine eq_principalPower_of_eigenvectors
    (hside.isUnitary_iff.1 (Trigonometry.isUnitary_gateMatrix hm)) fun z v hv hz => ?_
  obtain ⟨hclear, hpower⟩ := heigen z v hv hz
  rw [hpower, BranchCut.powerOf_eq_cpow hclear]

end Gate

/-! ### Angles in doubles -/

namespace BranchCut

theorem ofFloat_double_pi :
    Double.ofFloat double.pi = .finite false 7074237752028440 (-51) := rfl

theorem ofFloat_double_tolerance :
    Double.ofFloat double.tolerance = .finite false 4835703278458517 (-82) := rfl

theorem value_rotation_end : (Double.ofFloat (double.pi - double.tolerance +
    (double.pi - double.tolerance))).value = 7074237749776640 / 2 ^ 50 := by
  have hend : Double.ofFloat (double.pi - double.tolerance + (double.pi - double.tolerance)) =
      .finite false 7074237749776640 (-50) := rfl
  rw [hend, Double.value]
  norm_num

theorem value_rotation_start : (Double.ofFloat (-(double.pi - double.tolerance +
    (double.pi - double.tolerance)))).value = -(7074237749776640 / 2 ^ 50) := by
  have hstart : Double.ofFloat (-(double.pi - double.tolerance +
      (double.pi - double.tolerance))) = .finite true 7074237749776640 (-50) := rfl
  rw [hstart, Double.value]
  norm_num

theorem value_phase_start : (Double.ofFloat (-double.pi + double.tolerance)).value =
    -(7074237749776640 / 2 ^ 51) := by
  have hstart : Double.ofFloat (-double.pi + double.tolerance) =
      .finite true 7074237749776640 (-51) := rfl
  rw [hstart, Double.value]
  norm_num

theorem value_pi : (Double.ofFloat double.pi).value = 7074237752028440 / 2 ^ 51 := by
  rw [ofFloat_double_pi, Double.value]
  norm_num

theorem rounded_pi : rounded.pi = 7074237752028440 / 2 ^ 51 := by
  change (((Double.ofFloat double.pi).value : Rat) : ℝ) = _
  rw [value_pi]
  norm_num

theorem rounded_tolerance : rounded.tolerance = 4835703278458517 / 2 ^ 82 := by
  change (((Double.ofFloat double.tolerance).value : Rat) : ℝ) = _
  rw [ofFloat_double_tolerance, Double.value]
  norm_num

variable {cut : BranchCut ℝ} {v : Float}

/-- The cut is valid, and it is not before the double for π, nor its band before the double at
the end of the band. -/
structure Covers (cut : BranchCut ℝ) : Prop extends cut.Valid where
  whole : 7074237752028440 / 2 ^ 51 ≤ cut.pi
  clear : 7074237749776640 / 2 ^ 51 ≤ cut.pi - cut.tolerance

theorem covers_exact : exact.Covers where
  tolerance_nonneg := by norm_num [exact]
  tolerance_le := by
    change (1 / 10 ^ 9 : ℝ) ≤ Real.pi
    linarith [Real.pi_gt_three]
  pi_le := le_rfl
  whole := by
    refine le_trans ?_ Real.pi_gt_d20.le
    norm_num
  clear := by
    change (_ : ℝ) ≤ Real.pi - 1 / 10 ^ 9
    linarith [Real.pi_gt_d20]

theorem covers_rounded : rounded.Covers where
  tolerance_nonneg := by
    rw [rounded_tolerance]
    positivity
  tolerance_le := by
    rw [rounded_tolerance, rounded_pi]
    norm_num
  pi_le := by
    rw [rounded_pi]
    refine le_trans ?_ Real.pi_gt_d20.le
    norm_num
  whole := rounded_pi.ge
  clear := by
    rw [rounded_tolerance, rounded_pi]
    norm_num

/-- An angle that is admitted in doubles is admitted by its number. -/
theorem Covers.admitsRotation_value (hcut : cut.Covers) (h : double.admitsRotation v = true) :
    cut.admitsRotation (Double.ofFloat v).value = true := by
  have hfinite := isFinite_of_admitsRotation h
  obtain ⟨hlow, hhigh⟩ := Bool.and_eq_true_iff.1 h
  have hlow := (lt_iff_value_lt rfl hfinite).1 (of_decide_eq_true hlow)
  have hhigh := (lt_iff_value_lt hfinite rfl).1 (of_decide_eq_true hhigh)
  rw [value_rotation_start] at hlow
  rw [value_rotation_end] at hhigh
  have hlow := (Rat.cast_lt (K := ℝ)).2 hlow
  have hhigh := (Rat.cast_lt (K := ℝ)).2 hhigh
  push_cast at hlow hhigh
  have hclear := hcut.clear
  refine Bool.and_eq_true_iff.2 ⟨decide_eq_true ?_, decide_eq_true ?_⟩
  · linarith
  · linarith

theorem Covers.admitsPhase_value (hcut : cut.Covers) (h : double.admitsPhase v = true) :
    cut.admitsPhase (Double.ofFloat v).value = true := by
  have hfinite := isFinite_of_admitsPhase h
  obtain ⟨hlow, hhigh⟩ := Bool.and_eq_true_iff.1 h
  have hlow := (lt_iff_value_lt rfl hfinite).1 (of_decide_eq_true hlow)
  have hhigh := (le_iff_value_le hfinite rfl).1 (of_decide_eq_true hhigh)
  rw [value_phase_start] at hlow
  rw [value_pi] at hhigh
  have hlow := (Rat.cast_lt (K := ℝ)).2 hlow
  have hhigh := (Rat.cast_le (K := ℝ)).2 hhigh
  push_cast at hlow hhigh
  have hclear := hcut.clear
  have hwhole := hcut.whole
  refine Bool.and_eq_true_iff.2 ⟨decide_eq_true ?_, decide_eq_true ?_⟩
  · linarith
  · linarith

end BranchCut

namespace Gate

variable {cut : BranchCut ℝ} {g root : Gate} {e : Exponent} {x : ℝ}

/-- The angle of a gate in doubles, if it has one, stands for a number. -/
def HasAngle (g : Gate) (x : ℝ) : Prop :=
  ∀ s ∈ g.parameters, ∃ v, s.real? = some v ∧ x = (Double.ofFloat v).value

/-- A root over real numbers as it is in doubles: the same gate, or the gate of the family at the
product of the doubles for the exponent and for the angle. -/
def InDoubles (g root : Gate) (e : Exponent) : KnownRoot ℝ → Prop
  | .plain r => root = r
  | .turned family _ => ∃ angle v, g = family angle ∧ angle.real? = some v ∧
      root = family (.real (e.toFloat * v))

/-- Where doubles admit the angle of a gate, its number is admitted over real numbers. -/
theorem exists_turned {admits : Float → Bool} {admits' : ℝ → Bool} {family : Scalar → Gate}
    {angle : Scalar} (hadmits : ∀ v, angle.real? = some v → admits v = true → admits' x = true)
    {known : KnownRoot Float}
    (h : (do scaledAngle admits e.toFloat (← angle.real?)).map (.turned family) = some known) :
    ∃ exact, (scaledAngle admits' (e.number : ℝ) x).map (.turned family) = some exact ∧
      (family angle).InDoubles known.toGate e exact := by
  obtain ⟨value, hvalue, rfl⟩ := Option.map_eq_some_iff.1 h
  obtain ⟨v, hv, hscaled⟩ := Option.bind_eq_some_iff.1 hvalue
  obtain ⟨hadmitted, hproduct⟩ := Option.ite_none_right_eq_some.1 hscaled
  obtain rfl := Option.some.inj hproduct
  exact ⟨_, congrArg _ (if_pos (hadmits v hv hadmitted)), angle, v, rfl, hv, rfl⟩

theorem exists_plain {condition : Prop} [Decidable condition] {r : Gate} {known : KnownRoot Float}
    (h : (if condition then some (KnownRoot.plain r) else none) = some known) :
    ∃ exact : KnownRoot ℝ, (if condition then some (.plain r) else none) = some exact ∧
      g.InDoubles known.toGate e exact := by
  obtain ⟨hcondition, hsame⟩ := Option.ite_none_right_eq_some.1 h
  obtain rfl := Option.some.inj hsame
  exact ⟨.plain r, if_pos hcondition, rfl⟩

/-- The number for the angle of a gate is admitted where the double is. -/
structure Admitted (cut : BranchCut ℝ) (g : Gate) (x : ℝ) : Prop where
  rotation : ∀ s ∈ g.parameters, ∀ v, s.real? = some v →
    BranchCut.double.admitsRotation v = true → cut.admitsRotation x = true
  phase : ∀ s ∈ g.parameters, ∀ v, s.real? = some v →
    BranchCut.double.admitsPhase v = true → cut.admitsPhase x = true

/-- The exact value of the double is such a number. -/
theorem HasAngle.admitted (hx : g.HasAngle x) (hcut : cut.Covers) : g.Admitted cut x where
  rotation s hs v hv hadmits := by
    obtain ⟨w, hw, rfl⟩ := hx s hs
    obtain rfl := Option.some.inj (hv.symm.trans hw)
    exact hcut.admitsRotation_value hadmits
  phase s hs v hv hadmits := by
    obtain ⟨w, hw, rfl⟩ := hx s hs
    obtain rfl := Option.some.inj (hv.symm.trans hw)
    exact hcut.admitsPhase_value hadmits

/-- A root in doubles is a root over real numbers. -/
theorem exists_exactRoot? (hx : g.Admitted cut x) (h : g.root? e = some root) :
    ∃ exact, g.exactRoot? cut x e = some exact ∧ g.InDoubles root e exact := by
  obtain ⟨known, hknown, rfl⟩ := Option.map_eq_some_iff.1 h
  cases g with
  | rx angle | ry angle | rz angle | rxx angle | ryy angle | rzz angle =>
      exact exists_turned (hx.rotation angle (List.mem_singleton_self angle)) hknown
  | p angle => exact exists_turned (hx.phase angle (List.mem_singleton_self angle)) hknown
  | i =>
      obtain rfl := Option.some.inj hknown
      exact ⟨.plain i, rfl, rfl⟩
  | x | s => exact exists_plain hknown
  | z =>
      by_cases hhalf : (e.ratio? == some (mkRat 1 2)) = true
      · obtain rfl := Option.some.inj ((if_pos hhalf).symm.trans hknown)
        exact ⟨.plain s, if_pos hhalf, rfl⟩
      · obtain ⟨exact, hexact, hdoubles⟩ := exists_plain ((if_neg hhalf).symm.trans hknown)
        exact ⟨exact, (if_neg hhalf).trans hexact, hdoubles⟩
  | y | h | t | sx | u | swap | iswap => cases hknown

/-- Known roots are principal powers: over real numbers, whether π and the tolerance are exact or
the numbers of the doubles, and also where doubles decide whether there is a root and scale its
angle. -/
theorem known_roots_are_principal (g : Gate) (e : Exponent) (x : ℝ) {cut : BranchCut ℝ}
    (hcut : cut = .exact ∨ cut = .rounded) :
    (∀ root, g.exactRoot? cut x e = some root → g.RootsPrincipally cut root x e.number) ∧
      ∀ root, g.HasAngle x → g.root? e = some root →
        ∃ exact, g.exactRoot? cut x e = some exact ∧ g.InDoubles root e exact ∧
          g.RootsPrincipally cut exact x e.number := by
  have hcovers : cut.Covers := by
    rcases hcut with rfl | rfl
    · exact BranchCut.covers_exact
    · exact BranchCut.covers_rounded
  refine ⟨fun root => rootsPrincipally_of_exactRoot? hcovers.toValid, fun root hx hroot => ?_⟩
  obtain ⟨exact, hexact, hdoubles⟩ := exists_exactRoot? (hx.admitted hcovers) hroot
  exact ⟨exact, hexact, hdoubles, rootsPrincipally_of_exactRoot? hcovers.toValid hexact⟩

/-- Half of a rotation by nearly a full turn. -/
theorem known_roots_are_principal_rx :
    let gate := rx (.real 6.25)
    let root := rx (.real (0.5 * 6.25))
    let half := Exponent.rational (mkRat 1 2)
    let exact := KnownRoot.turned rx ((half.number : ℝ) * (25 / 4))
    (gate.exactRoot? .exact (25 / 4) half = some exact ∧ gate.HasAngle (25 / 4) ∧
        gate.root? half = some root) ∧
      gate.RootsPrincipally .exact exact (25 / 4) half.number ∧
      ∃ same, gate.exactRoot? .exact (25 / 4) half = some same ∧ gate.InDoubles root half same ∧
        gate.RootsPrincipally .exact same (25 / 4) half.number := by
  intro gate root half exact
  have hadmits : BranchCut.exact.admitsRotation (25 / 4) = true := by
    refine Bool.and_eq_true_iff.2 ⟨decide_eq_true ?_, decide_eq_true ?_⟩
    all_goals
      simp only [BranchCut.exact]
      linarith [Real.pi_gt_d20]
  have hexact : gate.exactRoot? .exact (25 / 4) half = some exact :=
    congrArg (Option.map (KnownRoot.turned rx)) (if_pos hadmits)
  have hangle : gate.HasAngle (25 / 4) := by
    intro s hs
    obtain rfl := List.mem_singleton.1 hs
    have hdouble : Double.ofFloat 6.25 = .finite false 7036874417766400 (-50) := rfl
    have hvalue : (Double.ofFloat 6.25).value = 25 / 4 := by
      rw [hdouble, Double.value]
      norm_num
    refine ⟨6.25, rfl, ?_⟩
    rw [hvalue]
    norm_num
  have hroot : gate.root? half = some root := by
    have hdouble : BranchCut.double.admitsRotation 6.25 = true := rfl
    have hhalf : half.toFloat = 0.5 := by decide +kernel
    change Option.map KnownRoot.toGate (Option.map (.turned rx)
      (if BranchCut.double.admitsRotation 6.25 = true then
        some (half.toFloat * 6.25) else none)) = _
    rw [if_pos hdouble, hhalf]
    rfl
  have hprincipal := known_roots_are_principal gate half (25 / 4) (Or.inl rfl)
  exact ⟨⟨hexact, hangle, hroot⟩, hprincipal.1 exact hexact, hprincipal.2 root hangle hroot⟩

end Gate

end GateAlgebra
