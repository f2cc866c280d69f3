import Mathlib.Analysis.SpecialFunctions.Complex.Arg
import Mathlib.Analysis.SpecialFunctions.Pow.Real
import GateAlgebra.Proofs.ExpansionExact
/-!
Matrices with two eigenvalues.  Rotations and phases keep one half of the space and turn the other
around, so they have two eigenvalues at most, and scaling the angle keeps the eigenvectors.  Where
both eigenvalues are clear of the band at the branch cut, the principal power scales the angle.
-/

namespace GateAlgebra

open Matrix Complex

/-! ### Powers of numbers -/

/-- Numbers by length and angle, and powers of lengths. -/
structure PolarForm (ρ α : Type) where
  length : α → ρ
  angle : α → ρ
  power : ρ → ρ → ρ
  ofPolar : ρ → ρ → α

/-- Doubles by length and angle. -/
def PolarForm.double : PolarForm Float ComplexFloat where
  length := ComplexFloat.norm
  angle := ComplexFloat.argument
  power := Float.pow
  ofPolar := ComplexFloat.ofPolar

/-- Complex numbers by length and angle. -/
noncomputable def PolarForm.exact : PolarForm ℝ ℂ where
  length := norm
  angle := Complex.arg
  power length p := length ^ p
  ofPolar := Trigonometry.exact.polar

namespace BranchCut

/-- The principal power of a number: the power of its length at a multiple of its principal
angle. -/
def powerOf {ρ α : Type} [Neg ρ] [Add ρ] [Sub ρ] [Mul ρ] [LT ρ] [DecidableLT ρ]
    (cut : BranchCut ρ) (polar : PolarForm ρ α) (z : α) (p : ρ) : α :=
  polar.ofPolar (polar.power (polar.length z) p) (cut.principal (polar.angle z) * p)

theorem powerOf_double (z : ComplexFloat) (p : Float) :
    BranchCut.double.powerOf .double z p = z.principalPower p := rfl

/-- The cut at π, with a band one billionth wide on either side. -/
noncomputable def exact : BranchCut ℝ where
  pi := Real.pi
  tolerance := 1 / 10 ^ 9

/-- The cut at the numbers that the doubles for π and for one billionth stand for. -/
noncomputable def rounded : BranchCut ℝ where
  pi := (Double.ofFloat BranchCut.double.pi).value
  tolerance := (Double.ofFloat BranchCut.double.tolerance).value

variable {cut : BranchCut ℝ} {θ p x : ℝ}

/-- A principal angle that is not in the band. -/
structure Clears (cut : BranchCut ℝ) (θ : ℝ) : Prop where
  above : -Real.pi < θ
  below : θ ≤ Real.pi
  clear : cut.tolerance ≤ θ + cut.pi

theorem principal_of_clear (h : cut.tolerance ≤ θ + cut.pi) : cut.principal θ = θ := by
  have hband : ¬(-cut.tolerance < θ + cut.pi ∧ θ + cut.pi < cut.tolerance) := fun hband =>
    absurd hband.2 (not_lt.2 h)
  exact if_neg hband

theorem Clears.arg_phase (h : cut.Clears θ) : (exp (θ * I)).arg = θ := by
  rw [arg_exp_mul_I, toIocMod_eq_self]
  exact ⟨h.above, by linarith [h.below]⟩

/-- The power of a phase at a principal angle clear of the band. -/
theorem Clears.powerOf_phase (h : cut.Clears θ) (p : ℝ) :
    cut.powerOf .exact (exp (θ * I)) p = exp ((p * θ : ℝ) * I) := by
  have hlength : PolarForm.exact.length (exp (θ * I)) = 1 := norm_exp_ofReal_mul_I θ
  have hangle : PolarForm.exact.angle (exp (θ * I)) = θ := h.arg_phase
  rw [powerOf, hlength, hangle, principal_of_clear h.clear, mul_comm θ p]
  change ((1 ^ p : ℝ) : ℂ) * _ = _
  rw [Real.one_rpow, ofReal_one, one_mul]

/-- Clear of the band this is the power along the principal branch. -/
theorem powerOf_eq_cpow {z : ℂ} (h : cut.tolerance ≤ z.arg + cut.pi) (p : ℝ) :
    cut.powerOf .exact z p = z ^ (p : ℂ) := by
  have hangle : cut.principal (PolarForm.exact.angle z) = z.arg := principal_of_clear h
  rw [powerOf, hangle, cpow_ofReal]
  change ((‖z‖ ^ p : ℝ) : ℂ) * exp ((z.arg * p : ℝ) * I) = _
  rw [exp_mul_I, ofReal_cos, ofReal_sin]

end BranchCut

/-! ### Matrices with two eigenvalues -/

section Reflections

variable {ι : Type} [Fintype ι] [DecidableEq ι] {J : Matrix ι ι ℂ} {a b z : ℂ} {v : ι → ℂ}

/-- The matrix with one value where a reflection keeps a vector and another where it turns the
vector around. -/
noncomputable def reflected (J : Matrix ι ι ℂ) (a b : ℂ) : Matrix ι ι ℂ :=
  ((a + b) / (2 : ℕ)) • 1 + ((a - b) / (2 : ℕ)) • J

theorem reflected_mulVec : reflected J a b *ᵥ v = ((a + b) / 2) • v + ((a - b) / 2) • (J *ᵥ v) := by
  rw [reflected, Nat.cast_ofNat, add_mulVec, smul_mulVec, smul_mulVec, one_mulVec]

/-- Any function of the values keeps the eigenvectors. -/
theorem reflected_mulVec_eigenvector (hJ : J * J = 1) (hv : v ≠ 0)
    (h : reflected J a b *ᵥ v = z • v) (f : ℂ → ℂ) :
    (z = a ∨ z = b) ∧ reflected J (f a) (f b) *ᵥ v = f z • v := by
  rw [reflected_mulVec] at h ⊢
  set w := J *ᵥ v with hw
  have hback : J *ᵥ w = v := by rw [hw, mulVec_mulVec, hJ, one_mulVec]
  have hturned : ((a + b) / 2) • w + ((a - b) / 2) • v = z • w := by
    have hJh := congrArg (J *ᵥ ·) h
    simpa only [mulVec_add, mulVec_smul, hback, ← hw] using hJh
  have hkept : (a - z) • (v + w) = 0 := by
    calc (a - z) • (v + w)
        = (((a + b) / 2) • v + ((a - b) / 2) • w - z • v) +
            (((a + b) / 2) • w + ((a - b) / 2) • v - z • w) := by module
      _ = 0 := by rw [h, hturned, sub_self, sub_self, add_zero]
  have hflipped : (b - z) • (v - w) = 0 := by
    calc (b - z) • (v - w)
        = (((a + b) / 2) • v + ((a - b) / 2) • w - z • v) -
            (((a + b) / 2) • w + ((a - b) / 2) • v - z • w) := by module
      _ = 0 := by rw [h, hturned, sub_self, sub_self, sub_zero]
  -- The parts of the vector that the reflection keeps and turns around cannot both vanish.
  rcases smul_eq_zero.1 hkept with ha | hkept
  · obtain rfl : a = z := sub_eq_zero.1 ha
    refine ⟨Or.inl rfl, ?_⟩
    rcases smul_eq_zero.1 hflipped with hb | hflipped
    · obtain rfl : b = a := sub_eq_zero.1 hb
      module
    · rw [← sub_eq_zero.1 hflipped]
      module
  · have hw : w = -v := eq_neg_of_add_eq_zero_right hkept
    rcases smul_eq_zero.1 hflipped with hb | hflipped
    · obtain rfl : b = z := sub_eq_zero.1 hb
      refine ⟨Or.inr rfl, ?_⟩
      rw [hw]
      module
    · have hzero : (2 : ℂ) • v = 0 := by
        calc (2 : ℂ) • v = v - -v := by module
          _ = 0 := hw ▸ hflipped
      exact absurd ((smul_eq_zero.1 hzero).resolve_left two_ne_zero) hv

variable {cut : BranchCut ℝ} {p : ℝ} {A B : Matrix ι ι ℂ} {α β : ℝ}

/-- Two matrices turn by the same reflection, the second one by multiples of the angles of the
first, and these angles are clear of the cut. -/
structure TurnsAlong (cut : BranchCut ℝ) (p : ℝ) (A B J : Matrix ι ι ℂ) (α β : ℝ) : Prop where
  reflects : J * J = 1
  base : A = reflected J (exp (α * I)) (exp (β * I))
  root : B = reflected J (exp ((p * α : ℝ) * I)) (exp ((p * β : ℝ) * I))
  clears : cut.Clears α
  clears' : cut.Clears β

/-- Eigenvectors stay, and eigenvalues are raised to the power. -/
theorem TurnsAlong.eigenvector (h : TurnsAlong cut p A B J α β) (hv : v ≠ 0)
    (hz : A *ᵥ v = z • v) :
    cut.tolerance ≤ z.arg + cut.pi ∧ B *ᵥ v = cut.powerOf .exact z p • v := by
  rw [h.base] at hz
  obtain ⟨hvalue, hpower⟩ :=
    reflected_mulVec_eigenvector h.reflects hv hz fun z => cut.powerOf .exact z p
  rw [h.clears.powerOf_phase, h.clears'.powerOf_phase, ← h.root] at hpower
  refine ⟨?_, hpower⟩
  rcases hvalue with rfl | rfl
  · rw [h.clears.arg_phase]
    exact h.clears.clear
  · rw [h.clears'.arg_phase]
    exact h.clears'.clear

end Reflections

/-! ### Gates -/

section Gates

open DenseMatrix Trigonometry

variable {cut : BranchCut ℝ} {p x : ℝ}

/-- The tolerance is not negative, and the cut at or before π by more than it. -/
structure BranchCut.Valid (cut : BranchCut ℝ) : Prop where
  tolerance_nonneg : 0 ≤ cut.tolerance
  tolerance_le : cut.tolerance ≤ cut.pi
  pi_le : cut.pi ≤ Real.pi

/-- Angles between zero and π are clear of a cut at -π. -/
theorem BranchCut.Valid.clears_of_nonneg (h : cut.Valid) {θ : ℝ} (hθ : 0 ≤ θ) (hle : θ ≤ Real.pi) :
    cut.Clears θ where
  above := by linarith [Real.pi_pos]
  below := hle
  clear := by linarith [h.tolerance_le]

theorem BranchCut.Valid.clears_phase (h : cut.Valid) (hx : cut.admitsPhase x = true) :
    cut.Clears x := by
  obtain ⟨hlow, hhigh⟩ := Bool.and_eq_true_iff.1 hx
  have hlow : -cut.pi + cut.tolerance < x := of_decide_eq_true hlow
  have hhigh : x ≤ cut.pi := of_decide_eq_true hhigh
  have htol := h.tolerance_nonneg
  have hpi := h.pi_le
  exact ⟨by linarith, by linarith, by linarith⟩

theorem BranchCut.Valid.clears_rotation (h : cut.Valid) (hx : cut.admitsRotation x = true) :
    cut.Clears (-(x / 2)) ∧ cut.Clears (x / 2) := by
  obtain ⟨hlow, hhigh⟩ := Bool.and_eq_true_iff.1 hx
  have hlow := of_decide_eq_true hlow
  have hhigh := of_decide_eq_true hhigh
  have htol := h.tolerance_nonneg
  have hpi := h.pi_le
  exact ⟨⟨by linarith, by linarith, by linarith⟩, ⟨by linarith, by linarith, by linarith⟩⟩

variable {n : Nat} {A B J : Matrix (Fin n) (Fin n) ℂ}

/-- Rotations by an angle and by a multiple of it, written with both of their phases. -/
theorem turnsAlong_rotation (hcut : cut.Valid) (hJ : J * J = 1)
    (hA : A = reflected J (exp ((-(x / 2) : ℝ) * I)) (exp ((x / 2 : ℝ) * I)))
    (hB : B = reflected J (exp ((-(p * x / 2) : ℝ) * I)) (exp ((p * x / 2 : ℝ) * I)))
    (hx : cut.admitsRotation x = true) : TurnsAlong cut p A B J (-(x / 2)) (x / 2) := by
  obtain ⟨hminus, hplus⟩ := hcut.clears_rotation hx
  refine ⟨hJ, hA, ?_, hminus, hplus⟩
  rw [hB, mul_neg, mul_div_assoc]

/-- Phases at an angle and at a multiple of it. -/
theorem turnsAlong_phase (hcut : cut.Valid) (hJ : J * J = 1)
    (hA : A = reflected J 1 (exp (x * I))) (hB : B = reflected J 1 (exp ((p * x : ℝ) * I)))
    (hx : cut.Clears x) : TurnsAlong cut p A B J 0 x := by
  have hone : exp ((0 : ℝ) * I) = 1 := by rw [ofReal_zero, zero_mul, exp_zero]
  refine ⟨hJ, ?_, ?_, hcut.clears_of_nonneg le_rfl Real.pi_pos.le, hx⟩
  · rw [hA, hone]
  · rw [hB, mul_zero, hone]

/-- A reflection of one qubit in the basis of its states. -/
def reflectionZ : Matrix (Fin 2) (Fin 2) ℂ :=
  !![1, 0; 0, -1]

def reflectionX : Matrix (Fin 2) (Fin 2) ℂ :=
  !![0, 1; 1, 0]

def reflectionY : Matrix (Fin 2) (Fin 2) ℂ :=
  !![0, -I; I, 0]

/-- A reflection of two qubits that turns each state into the one with both bits changed. -/
def reflectionCrossed (outer : ℂ) : Matrix (Fin 4) (Fin 4) ℂ :=
  !![0, 0, 0, outer; 0, 0, 1, 0; 0, 1, 0, 0; outer, 0, 0, 0]

def reflectionZZ : Matrix (Fin 4) (Fin 4) ℂ :=
  !![1, 0, 0, 0; 0, -1, 0, 0; 0, 0, -1, 0; 0, 0, 0, 1]

theorem reflectionX_mul_self : reflectionX * reflectionX = 1 := by
  ext i j
  fin_cases i <;> fin_cases j <;> simp [reflectionX]

theorem reflectionY_mul_self : reflectionY * reflectionY = 1 := by
  ext i j
  fin_cases i <;> fin_cases j <;> simp [reflectionY]

theorem reflectionZ_mul_self : reflectionZ * reflectionZ = 1 := by
  ext i j
  fin_cases i <;> fin_cases j <;> simp [reflectionZ]

theorem reflectionCrossed_mul_self {outer : ℂ} (h : outer * outer = 1) :
    reflectionCrossed outer * reflectionCrossed outer = 1 := by
  ext i j
  fin_cases i <;> fin_cases j <;>
    simp [reflectionCrossed, Matrix.mul_apply, Fin.sum_univ_four, h]

theorem reflectionZZ_mul_self : reflectionZZ * reflectionZZ = 1 := by
  ext i j
  fin_cases i <;> fin_cases j <;> simp [reflectionZZ, Matrix.mul_apply, Fin.sum_univ_four]

section Values

variable (a b : ℂ) (y : ℝ)

theorem reflected_reflectionZ : reflected reflectionZ a b = !![a, 0; 0, b] := by
  ext i j
  fin_cases i <;> fin_cases j <;> simp [reflected, reflectionZ] <;> ring

theorem reflected_reflectionZZ :
    reflected reflectionZZ a b = !![a, 0, 0, 0; 0, b, 0, 0; 0, 0, b, 0; 0, 0, 0, a] := by
  ext i j
  fin_cases i <;> fin_cases j <;> simp [reflected, reflectionZZ] <;> ring

theorem reflected_reflectionX :
    reflected reflectionX a b = !![(a + b) / 2, (a - b) / 2; (a - b) / 2, (a + b) / 2] := by
  ext i j
  fin_cases i <;> fin_cases j <;> simp [reflected, reflectionX]

theorem reflected_reflectionY :
    reflected reflectionY a b =
      !![(a + b) / 2, -((a - b) / 2 * I); (a - b) / 2 * I, (a + b) / 2] := by
  ext i j
  fin_cases i <;> fin_cases j <;> simp [reflected, reflectionY]

theorem reflected_reflectionCrossed (outer : ℂ) :
    reflected (reflectionCrossed outer) a b =
      !![(a + b) / 2, 0, 0, (a - b) / 2 * outer; 0, (a + b) / 2, (a - b) / 2, 0;
        0, (a - b) / 2, (a + b) / 2, 0; (a - b) / 2 * outer, 0, 0, (a + b) / 2] := by
  ext i j
  fin_cases i <;> fin_cases j <;> simp [reflected, reflectionCrossed]

theorem half_sum_phases :
    (exp ((-y : ℝ) * I) + exp (y * I)) / 2 = exact.real (exact.cos y) := by
  rw [← exact_phase, ← exact_phase, phase_add_phase]

theorem half_difference_phases :
    (exp ((-y : ℝ) * I) - exp (y * I)) / 2 = exact.cartesian 0 (-exact.sin y) := by
  rw [← exact_phase, ← exact_phase, phase_sub_phase]

end Values

section Rotations

variable (x : ℝ)

theorem toMatrix_rotationX : (exact.rotationX (exact.half x)).toMatrix 2 =
    reflected reflectionX (exp ((-(x / 2) : ℝ) * I)) (exp ((x / 2 : ℝ) * I)) := by
  rw [reflected_reflectionX, half_sum_phases, half_difference_phases, ← exact_half]
  exact toMatrix_ofRows_two _ _ _ _

theorem toMatrix_rotationY : (exact.rotationY (exact.half x)).toMatrix 2 =
    reflected reflectionY (exp ((-(x / 2) : ℝ) * I)) (exp ((x / 2 : ℝ) * I)) := by
  have hturn : exact.cartesian 0 (-exact.sin (x / 2)) * I = exact.real (exact.sin (x / 2)) := by
    rw [exact_cartesian, exact_real]
    push_cast
    linear_combination -(exact.sin (x / 2) : ℂ) * I_mul_I
  have hback : -exact.real (exact.sin (x / 2)) = exact.real (-exact.sin (x / 2)) := by
    rw [exact_real, exact_real, ofReal_neg]
  rw [reflected_reflectionY, half_sum_phases, half_difference_phases, hturn, hback, ← exact_half]
  exact toMatrix_ofRows_two _ _ _ _

theorem toMatrix_rotationZ :
    (ofRows [[exact.phase (-exact.half x), 0], [0, exact.phase (exact.half x)]]).toMatrix 2 =
      reflected reflectionZ (exp ((-(x / 2) : ℝ) * I)) (exp ((x / 2 : ℝ) * I)) := by
  rw [toMatrix_ofRows_two, reflected_reflectionZ, exact_phase, exact_phase, exact_half]

theorem toMatrix_rotationXX :
    (crossed (exact.real (exact.cos (exact.half x)))
      (exact.cartesian 0 (-exact.sin (exact.half x)))
      (exact.cartesian 0 (-exact.sin (exact.half x)))).toMatrix 4 =
    reflected (reflectionCrossed 1) (exp ((-(x / 2) : ℝ) * I)) (exp ((x / 2 : ℝ) * I)) := by
  rw [reflected_reflectionCrossed, half_sum_phases, half_difference_phases, mul_one, ← exact_half]
  exact toMatrix_ofRows_four _ _ _ _ _ _ _ _ _ _ _ _ _ _ _ _

theorem toMatrix_rotationYY :
    (crossed (exact.real (exact.cos (exact.half x)))
      (exact.cartesian 0 (exact.sin (exact.half x)))
      (exact.cartesian 0 (-exact.sin (exact.half x)))).toMatrix 4 =
    reflected (reflectionCrossed (-1)) (exp ((-(x / 2) : ℝ) * I)) (exp ((x / 2 : ℝ) * I)) := by
  rw [reflected_reflectionCrossed, half_sum_phases, half_difference_phases, mul_neg_one,
    neg_cartesian, ← exact_half]
  exact toMatrix_ofRows_four _ _ _ _ _ _ _ _ _ _ _ _ _ _ _ _

theorem toMatrix_rotationZZ :
    (ofRows [[exact.phase (-exact.half x), 0, 0, 0], [0, exact.phase (exact.half x), 0, 0],
      [0, 0, exact.phase (exact.half x), 0], [0, 0, 0, exact.phase (-exact.half x)]]).toMatrix 4 =
      reflected reflectionZZ (exp ((-(x / 2) : ℝ) * I)) (exp ((x / 2 : ℝ) * I)) := by
  rw [toMatrix_ofRows_four, reflected_reflectionZZ, exact_phase, exact_phase, exact_half]

theorem toMatrix_phase :
    (ofRows [[1, 0], [0, exact.phase x]]).toMatrix 2 = reflected reflectionZ 1 (exp (x * I)) := by
  rw [toMatrix_ofRows_two, reflected_reflectionZ, exact_phase]

end Rotations

section Fixed

theorem phase_pi : exact.phase Real.pi = -1 := by
  rw [exact_phase, exp_pi_mul_I]

theorem phase_half_pi : exact.phase (Real.pi / 2) = I := by
  rw [exact_phase, ofReal_div, ofReal_ofNat, exp_pi_div_two_mul_I]

/-- Z, S and T are phase gates. -/
theorem toMatrix_pauliZ :
    (pauliZ : DenseMatrix ℂ).toMatrix 2 = reflected reflectionZ 1 (exp (Real.pi * I)) := by
  rw [← toMatrix_phase, phase_pi]
  rfl

theorem toMatrix_s :
    (ofRows [[1, 0], [0, exact.i]]).toMatrix 2 =
      reflected reflectionZ 1 (exp ((Real.pi / 2 : ℝ) * I)) := by
  rw [← toMatrix_phase, phase_half_pi, exact_i]

theorem toMatrix_t :
    (ofRows [[1, 0], [0, exact.phase (exact.half (exact.half exact.pi))]]).toMatrix 2 =
      reflected reflectionZ 1 (exp ((Real.pi / 4 : ℝ) * I)) := by
  rw [← toMatrix_phase, exact_half, exact_half]
  have hquarter : exact.pi / 2 / 2 = Real.pi / 4 := by
    change Real.pi / 2 / 2 = _
    ring
  rw [hquarter]

theorem toMatrix_pauliX :
    (pauliX : DenseMatrix ℂ).toMatrix 2 = reflected reflectionX 1 (exp (Real.pi * I)) := by
  rw [reflected_reflectionX, exp_pi_mul_I]
  refine (toMatrix_ofRows_two _ _ _ _).trans ?_
  norm_num

theorem toMatrix_sx :
    (ofRows [[exact.cartesian (exact.half 1) (exact.half 1),
        exact.cartesian (exact.half 1) (-exact.half 1)],
      [exact.cartesian (exact.half 1) (-exact.half 1),
        exact.cartesian (exact.half 1) (exact.half 1)]]).toMatrix 2 =
      reflected reflectionX 1 (exp ((Real.pi / 2 : ℝ) * I)) := by
  have hplus : exact.cartesian (1 / 2) (1 / 2) = (1 + I) / 2 := by
    rw [exact_cartesian]
    push_cast
    ring
  have hminus : exact.cartesian (1 / 2) (-(1 / 2)) = (1 - I) / 2 := by
    rw [exact_cartesian]
    push_cast
    ring
  rw [reflected_reflectionX, ofReal_div, ofReal_ofNat, exp_pi_div_two_mul_I, toMatrix_ofRows_two,
    exact_half, hplus, hminus]

end Fixed

end Gates

end GateAlgebra
