import Mathlib.Analysis.SpecialFunctions.Trigonometric.Basic
import GateAlgebra.Lowering.Expansion
import GateAlgebra.Proofs.Exponent
import GateAlgebra.Proofs.LeafMatrix
import GateAlgebra.Proofs.Spectral
import GateAlgebra.Proofs.SquareMatrix
/-!
Matrices without rounding.  Angles are real numbers, entries are complex ones, and a power that
is no whole one takes the principal power of every eigenvalue.
-/

namespace GateAlgebra

open scoped ComplexConjugate

/-- Angles in real numbers. -/
noncomputable def Trigonometry.exact : Trigonometry ℝ ℂ where
  half x := x / (2 : Nat)
  cos := Real.cos
  sin := Real.sin
  pi := Real.pi
  invSqrtTwo := (√(2 : Nat))⁻¹
  cartesian re im := ⟨re, im⟩
  polar length angle := length * Complex.exp (angle * Complex.I)

/-- What numbers the parameters of gates stand for, and what unitary matrices custom gates
have. -/
structure Reading where
  angle : Scalar → Except CircuitError ℝ
  custom : CustomGate → Except CircuitError (DenseMatrix ℂ)
  /-- The constant of a quarter turn backwards is what it stands for. -/
  angle_backQuarter : angle backQuarter = .ok (-(Real.pi / 2))
  rows_custom : ∀ g m, custom g = .ok m → m.rows = dimension g.numQubits
  isUnitary_custom : ∀ g m, custom g = .ok m → m.IsUnitary

/-- Numbers stand for themselves, except for the constant of a quarter turn backwards. -/
noncomputable def plainAngle (s : Scalar) : Except CircuitError ℝ :=
  if s == backQuarter then .ok (-(Real.pi / (2 : Nat)))
  else s.real?.elim (.error (.unbound s.text)) fun x => .ok ((Double.ofFloat x).value : ℝ)

theorem plainAngle_backQuarter : plainAngle backQuarter = .ok (-(Real.pi / 2)) := by
  rw [plainAngle, if_pos (by decide), Nat.cast_ofNat]

/-- Numbers stand for themselves, and there are no custom gates. -/
noncomputable def Reading.plain : Reading where
  angle := plainAngle
  custom g := .error (.notUnitary g.name)
  angle_backQuarter := plainAngle_backQuarter
  rows_custom _ _ h := nomatch h
  isUnitary_custom _ _ h := nomatch h

namespace DenseMatrix

/-- The power of a matrix by the principal powers of its eigenvalues. -/
noncomputable def principalPower (m : DenseMatrix ℂ) (p : Rat) : DenseMatrix ℂ :=
  ofMatrix (GateAlgebra.principalPower (m.toMatrix m.rows) p)

/-- The power of a matrix. -/
noncomputable def exactPower (m : DenseMatrix ℂ) (e : Exponent) : DenseMatrix ℂ :=
  match e.natural? with
  | some n => m.integerPower (· * ·) n
  | none => m.principalPower e.number

end DenseMatrix

/-- The matrices of leaves for a reading of parameters. -/
noncomputable def LeafMatrices.exact (reading : Reading) : LeafMatrices ℂ where
  gate := Trigonometry.exact.gateMatrix reading.angle
  custom := reading.custom
  observable := Trigonometry.exact.observableMatrix
  power m e := .ok (m.exactPower e)

namespace DenseMatrix

theorem isUnitary_ofRows_two {p q r s : ℂ} (hp : conj p * p + conj r * r = 1)
    (hq : conj q * q + conj s * s = 1) (hpq : conj p * q + conj r * s = 0) :
    (ofRows [[p, q], [r, s]]).IsUnitary := by
  have hside : (ofRows [[p, q], [r, s]]).HasSide 2 := ⟨rfl, rfl⟩
  have hqp : conj q * p + conj s * r = 0 := by
    have hstar := congrArg conj hpq
    simpa only [map_add, map_mul, map_zero, Complex.conj_conj, mul_comm] using hstar
  refine hside.isUnitary_iff.2 (Matrix.mem_unitaryGroup_iff'.2 ?_)
  rw [toMatrix_ofRows_two]
  ext i j
  fin_cases i <;> fin_cases j
  all_goals simpa [Matrix.mul_apply, Fin.sum_univ_two, Matrix.star_apply] using by assumption

theorem isUnitary_crossed {c outer inner : ℂ} (houter : conj c * c + conj outer * outer = 1)
    (hinner : conj c * c + conj inner * inner = 1) (hcross : conj c * outer + conj outer * c = 0)
    (hcross' : conj c * inner + conj inner * c = 0) :
    (Trigonometry.crossed c outer inner).IsUnitary := by
  have hside : (Trigonometry.crossed c outer inner).HasSide 4 := ⟨rfl, rfl⟩
  refine hside.isUnitary_iff.2 (Matrix.mem_unitaryGroup_iff'.2 ?_)
  rw [Trigonometry.crossed, toMatrix_ofRows_four]
  ext i j
  fin_cases i <;> fin_cases j <;>
    simp [Matrix.mul_apply, Fin.sum_univ_four, Matrix.star_apply]
  all_goals
    first
      | linear_combination houter
      | linear_combination hinner
      | linear_combination hcross
      | linear_combination hcross'

theorem isUnitary_exchange {factor : ℂ} (h : conj factor * factor = 1) :
    (Trigonometry.exchange factor).IsUnitary := by
  have hside : (Trigonometry.exchange factor).HasSide 4 := ⟨rfl, rfl⟩
  refine hside.isUnitary_iff.2 (Matrix.mem_unitaryGroup_iff'.2 ?_)
  rw [Trigonometry.exchange, toMatrix_ofRows_four]
  ext i j
  fin_cases i <;> fin_cases j <;>
    simp [Matrix.mul_apply, Fin.sum_univ_four, Matrix.star_apply, h]

theorem isUnitary_ofRows_diagonal {p q r s : ℂ} (hp : conj p * p = 1) (hq : conj q * q = 1)
    (hr : conj r * r = 1) (hs : conj s * s = 1) :
    (ofRows [[p, 0, 0, 0], [0, q, 0, 0], [0, 0, r, 0], [0, 0, 0, s]]).IsUnitary := by
  have hside : (ofRows [[p, 0, 0, 0], [0, q, 0, 0], [0, 0, r, 0], [0, 0, 0, s]]).HasSide 4 :=
    ⟨rfl, rfl⟩
  refine hside.isUnitary_iff.2 (Matrix.mem_unitaryGroup_iff'.2 ?_)
  rw [toMatrix_ofRows_four]
  ext i j
  fin_cases i <;> fin_cases j <;>
    simp [Matrix.mul_apply, Fin.sum_univ_four, Matrix.star_apply, hp, hq, hr, hs]

end DenseMatrix

namespace Trigonometry

open Complex

theorem exact_i : exact.i = I := rfl

theorem exact_real (x : ℝ) : exact.real x = x := rfl

theorem exact_phase (x : ℝ) : exact.phase x = exp (x * I) := by
  rw [phase]
  exact (congrArg (· * _) ofReal_one).trans (one_mul _)

theorem exact_cartesian (re im : ℝ) : exact.cartesian re im = re + im * I :=
  Complex.mk_eq_add_mul_I re im

theorem exact_polar (length angle : ℝ) :
    exact.polar length angle = length * exp (angle * I) := rfl

theorem conj_phase_mul (x : ℝ) : conj (exp (x * I)) * exp (x * I) = 1 := by
  rw [Complex.conj_mul', Complex.norm_exp_ofReal_mul_I, Complex.ofReal_one, one_pow]

theorem cos_sq_add_sin_sq (x : ℝ) : (Real.cos x : ℂ) ^ 2 + (Real.sin x : ℂ) ^ 2 = 1 := by
  exact_mod_cast Real.cos_sq_add_sin_sq x

theorem exact_half (x : ℝ) : exact.half x = x / 2 :=
  congrArg (x / ·) Nat.cast_ofNat

theorem exact_cos (x : ℝ) : exact.cos x = Real.cos x := rfl

theorem exact_sin (x : ℝ) : exact.sin x = Real.sin x := rfl

theorem exact_invSqrtTwo_sq : (exact.invSqrtTwo : ℂ) ^ 2 = 1 / 2 := by
  have h : ((√2)⁻¹) ^ 2 = (1 / 2 : ℝ) := by
    rw [inv_pow, Real.sq_sqrt (by norm_num)]
    norm_num
  rw [← ofReal_pow, show exact.invSqrtTwo = (√2)⁻¹ from congrArg (√·)⁻¹ Nat.cast_ofNat, h]
  norm_num

theorem isUnitary_rotationX (x : ℝ) : (exact.rotationX x).IsUnitary := by
  have hone := cos_sq_add_sin_sq x
  apply DenseMatrix.isUnitary_ofRows_two <;>
    simp only [exact_cartesian, exact_real, exact_cos, exact_sin, map_add, map_mul, map_neg,
      map_zero, conj_ofReal, conj_I, ofReal_neg, ofReal_zero]
  · linear_combination hone - Real.sin x ^ 2 * I_mul_I
  · linear_combination hone - Real.sin x ^ 2 * I_mul_I
  · ring

theorem isUnitary_rotationY (x : ℝ) : (exact.rotationY x).IsUnitary := by
  have hone := cos_sq_add_sin_sq x
  apply DenseMatrix.isUnitary_ofRows_two <;>
    simp only [exact_real, exact_cos, exact_sin, map_neg, conj_ofReal, ofReal_neg]
  · linear_combination hone
  · linear_combination hone
  · ring

theorem isUnitary_general (x phi lambda : ℝ) : (exact.general x phi lambda).IsUnitary := by
  have hone := cos_sq_add_sin_sq x
  have hphi := conj_phase_mul phi
  have hlambda := conj_phase_mul lambda
  apply DenseMatrix.isUnitary_ofRows_two <;>
    simp only [exact_real, exact_polar, exact_cos, exact_sin, map_neg, map_mul, conj_ofReal,
      ofReal_add, add_mul, exp_add]
  · linear_combination hone + Real.sin x ^ 2 * hphi
  · linear_combination hone + Real.cos x ^ 2 * hphi +
      (Real.sin x ^ 2 + Real.cos x ^ 2 * conj (exp (phi * I)) * exp (phi * I)) * hlambda
  · linear_combination Real.sin x * Real.cos x * exp (lambda * I) * hphi

theorem isUnitary_hadamard :
    (DenseMatrix.ofRows [[exact.real exact.invSqrtTwo, exact.real exact.invSqrtTwo],
      [exact.real exact.invSqrtTwo, -exact.real exact.invSqrtTwo]]).IsUnitary := by
  have hhalf := exact_invSqrtTwo_sq
  apply DenseMatrix.isUnitary_ofRows_two <;>
    simp only [exact_real, map_neg, conj_ofReal]
  · linear_combination 2 * hhalf
  · linear_combination 2 * hhalf
  · ring

/-- The square root of X. -/
theorem isUnitary_sx :
    (DenseMatrix.ofRows [[exact.cartesian (exact.half 1) (exact.half 1),
        exact.cartesian (exact.half 1) (-exact.half 1)],
      [exact.cartesian (exact.half 1) (-exact.half 1),
        exact.cartesian (exact.half 1) (exact.half 1)]]).IsUnitary := by
  apply DenseMatrix.isUnitary_ofRows_two <;>
    simp only [exact_cartesian, exact_half, map_add, map_mul, map_neg, map_div₀, map_one,
      conj_ofNat, conj_I, ofReal_neg, ofReal_div, ofReal_one, ofReal_ofNat]
  · linear_combination -(1 / 2) * I_mul_I
  · linear_combination -(1 / 2) * I_mul_I
  · linear_combination (1 / 2) * I_mul_I

theorem isUnitary_diagonal_two {p q : ℂ} (hp : conj p * p = 1) (hq : conj q * q = 1) :
    (DenseMatrix.ofRows [[p, 0], [0, q]]).IsUnitary :=
  DenseMatrix.isUnitary_ofRows_two (by simpa using hp) (by simpa using hq) (by simp)

theorem isUnitary_crossed_turn {c outer inner : ℝ} (houter : c ^ 2 + outer ^ 2 = 1)
    (hinner : c ^ 2 + inner ^ 2 = 1) :
    (crossed (exact.real c) (exact.cartesian 0 outer) (exact.cartesian 0 inner)).IsUnitary := by
  have houter : (c : ℂ) ^ 2 + (outer : ℂ) ^ 2 = 1 := by exact_mod_cast houter
  have hinner : (c : ℂ) ^ 2 + (inner : ℂ) ^ 2 = 1 := by exact_mod_cast hinner
  apply DenseMatrix.isUnitary_crossed <;>
    simp only [exact_cartesian, exact_real, map_add, map_mul, map_zero, conj_ofReal, conj_I,
      ofReal_zero]
  · linear_combination houter - outer ^ 2 * I_mul_I
  · linear_combination hinner - inner ^ 2 * I_mul_I
  · ring
  · ring

/-- Over exact numbers the matrices of gates are unitary. -/
theorem isUnitary_gateMatrix {ε : Type} {read : Scalar → Except ε ℝ} {g : Gate}
    {m : DenseMatrix ℂ} (h : exact.gateMatrix read g = .ok m) : m.IsUnitary := by
  have hi : conj exact.i * exact.i = 1 := by
    rw [exact_i, conj_I, neg_mul, I_mul_I, neg_neg]
  have hphase : ∀ x, conj (exact.phase x) * exact.phase x = 1 := fun x => by
    rw [exact_phase, conj_phase_mul]
  have hturn : ∀ x : ℝ, Real.cos x ^ 2 + (-Real.sin x) ^ 2 = 1 := fun x => by
    rw [neg_sq, Real.cos_sq_add_sin_sq]
  cases g with
  | i =>
      obtain rfl := Except.ok.inj h
      exact DenseMatrix.isUnitary_identity 2
  | x =>
      obtain rfl := Except.ok.inj h
      exact DenseMatrix.isUnitary_ofRows_two (by simp) (by simp) (by simp)
  | y =>
      obtain rfl := Except.ok.inj h
      exact DenseMatrix.isUnitary_ofRows_two (by simp [hi]) (by simp [hi]) (by simp)
  | z =>
      obtain rfl := Except.ok.inj h
      exact isUnitary_diagonal_two (by simp) (by simp)
  | h =>
      obtain rfl := Except.ok.inj h
      exact isUnitary_hadamard
  | s =>
      obtain rfl := Except.ok.inj h
      exact isUnitary_diagonal_two (by simp) hi
  | t =>
      obtain rfl := Except.ok.inj h
      exact isUnitary_diagonal_two (by simp) (hphase _)
  | sx =>
      obtain rfl := Except.ok.inj h
      exact isUnitary_sx
  | rx angle =>
      obtain ⟨value, -, hm⟩ := bind_eq_ok_iff.1 h
      obtain rfl := Except.ok.inj hm
      exact isUnitary_rotationX _
  | ry angle =>
      obtain ⟨value, -, hm⟩ := bind_eq_ok_iff.1 h
      obtain rfl := Except.ok.inj hm
      exact isUnitary_rotationY _
  | rz angle =>
      obtain ⟨value, -, hm⟩ := bind_eq_ok_iff.1 h
      obtain rfl := Except.ok.inj hm
      exact isUnitary_diagonal_two (hphase _) (hphase _)
  | p angle =>
      obtain ⟨value, -, hm⟩ := bind_eq_ok_iff.1 h
      obtain rfl := Except.ok.inj hm
      exact isUnitary_diagonal_two (by simp) (hphase _)
  | u theta phi lambda =>
      obtain ⟨_, -, h⟩ := bind_eq_ok_iff.1 h
      obtain ⟨_, -, h⟩ := bind_eq_ok_iff.1 h
      obtain ⟨_, -, hm⟩ := bind_eq_ok_iff.1 h
      obtain rfl := Except.ok.inj hm
      exact isUnitary_general _ _ _
  | swap =>
      obtain rfl := Except.ok.inj h
      exact DenseMatrix.isUnitary_exchange (by simp)
  | iswap =>
      obtain rfl := Except.ok.inj h
      exact DenseMatrix.isUnitary_exchange hi
  | rxx angle =>
      obtain ⟨value, -, hm⟩ := bind_eq_ok_iff.1 h
      obtain rfl := Except.ok.inj hm
      exact isUnitary_crossed_turn (hturn _) (hturn _)
  | ryy angle =>
      obtain ⟨value, -, hm⟩ := bind_eq_ok_iff.1 h
      obtain rfl := Except.ok.inj hm
      exact isUnitary_crossed_turn (Real.cos_sq_add_sin_sq _) (hturn _)
  | rzz angle =>
      obtain ⟨value, -, hm⟩ := bind_eq_ok_iff.1 h
      obtain rfl := Except.ok.inj hm
      exact DenseMatrix.isUnitary_ofRows_diagonal (hphase _) (hphase _) (hphase _) (hphase _)

end Trigonometry

end GateAlgebra
