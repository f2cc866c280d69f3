import Mathlib.Algebra.Star.Basic
import GateAlgebra.DenseMatrix.Basic
/-!
Laws of dense matrices: what keeps a matrix square, and over a commutative ring with an
involution control blocks of control blocks, tensor powers, and adjoints of both.
-/

namespace GateAlgebra

/-- The involution of a ring conjugates. -/
instance starConj {R : Type} [Star R] : Conj R := ⟨star⟩

namespace DenseMatrix

section Square

variable {α : Type} {m : DenseMatrix α}

/-- A matrix with as many columns as rows. -/
def IsSquare (m : DenseMatrix α) : Prop :=
  m.rows = m.cols

theorem isSquare_control [Zero α] [One α] {n : Nat} : (m.control n).IsSquare := rfl

theorem IsSquare.adjoint [Zero α] [Conj α] (h : m.IsSquare) : m.adjoint.IsSquare :=
  h.symm

theorem IsSquare.tensorPower [Zero α] [One α] [Mul α] (h : m.IsSquare) (n : Nat) :
    (m.tensorPower n).IsSquare := by
  induction n with
  | zero => rfl
  | succ n ih => exact congrArg₂ (· * ·) ih h

theorem shape_mul [Zero α] [Add α] [Mul α] (a b : DenseMatrix α) :
    (a * b).rows = a.rows ∧ (a * b).cols = b.cols :=
  ⟨rfl, rfl⟩

section Powers

variable {product : DenseMatrix α → DenseMatrix α → DenseMatrix α}

/-- Repeated squaring keeps what the product keeps. -/
theorem squarePower_keeps {P : DenseMatrix α → Prop}
    (hproduct : ∀ a b, P a → P b → P (product a b)) {result base : DenseMatrix α}
    (hresult : P result) (hbase : P base) (n : Nat) : P (squarePower product result base n) := by
  induction n using Nat.strong_induction_on generalizing result base with
  | h n ih =>
      have hnext : P (if n % 2 = 1 then product result base else result) := by
        split
        · exact hproduct result base hresult hbase
        · exact hresult
      unfold squarePower
      dsimp only
      split
      · exact hresult
      · rename_i hn
        have hhalf : n / 2 < n := Nat.div_lt_self (Nat.pos_of_ne_zero hn) Nat.one_lt_two
        split
        · exact hnext
        · exact ih (n / 2) hhalf hnext (hproduct base base hbase hbase)

variable (hproduct : ∀ a b, (product a b).rows = a.rows ∧ (product a b).cols = b.cols)

include hproduct

theorem IsSquare.sides_integerPower [Zero α] [One α] (h : m.IsSquare) (n : Nat) :
    (m.integerPower product n).rows = m.rows ∧ (m.integerPower product n).cols = m.rows := by
  have hkeeps : ∀ a b : DenseMatrix α, a.rows = m.rows ∧ a.cols = m.rows →
      b.rows = m.rows ∧ b.cols = m.rows →
      (product a b).rows = m.rows ∧ (product a b).cols = m.rows := by
    rintro a b ⟨ha, -⟩ ⟨-, hb⟩
    obtain ⟨hrows, hcols⟩ := hproduct a b
    exact ⟨hrows.trans ha, hcols.trans hb⟩
  have hidentity : (identity m.rows : DenseMatrix α).rows = m.rows ∧
      (identity m.rows : DenseMatrix α).cols = m.rows := ⟨rfl, rfl⟩
  exact squarePower_keeps hkeeps hidentity ⟨rfl, h.symm⟩ n

theorem IsSquare.integerPower [Zero α] [One α] (h : m.IsSquare) (n : Nat) :
    (m.integerPower product n).IsSquare := by
  obtain ⟨hrows, hcols⟩ := h.sides_integerPower hproduct n
  exact hrows.trans hcols.symm

end Powers

end Square

section Identity

variable {R : Type} [Zero R]

theorem entry_diagonal {n i j : Nat} (z : Nat → R) (hi : i < n) (hj : j < n) :
    (diagonal n z).entry i j = if i = j then z i else 0 :=
  entry_ofFn _ hi hj

variable [One R]

@[simp] theorem rows_identity (n : Nat) : (identity n : DenseMatrix R).rows = n := rfl

@[simp] theorem cols_identity (n : Nat) : (identity n : DenseMatrix R).cols = n := rfl

theorem entry_identity {n i j : Nat} (hi : i < n) (hj : j < n) :
    (identity n : DenseMatrix R).entry i j = if i = j then 1 else 0 :=
  entry_diagonal _ hi hj

end Identity

section Tensor

variable {R : Type} [CommRing R] (a b c m : DenseMatrix R)

theorem entry_tensor {i j : Nat} (hi : i < a.rows * b.rows) (hj : j < a.cols * b.cols) :
    (a.tensor b).entry i j =
      a.entry (i / b.rows) (j / b.cols) * b.entry (i % b.rows) (j % b.cols) :=
  entry_ofFn _ hi hj

/-- An index of a tensor product is a pair of indices. -/
theorem div_mod_lt {i rows rows' : Nat} (h : i < rows * rows') :
    i / rows' < rows ∧ i % rows' < rows' := by
  refine ⟨Nat.div_lt_of_lt_mul (Nat.mul_comm rows rows' ▸ h), Nat.mod_lt i ?_⟩
  exact Nat.pos_of_ne_zero fun hzero => by simp [hzero] at h

/-- The index of the middle factor is the same from both sides. -/
theorem mod_mul_div (i b c : Nat) : i % (b * c) / c = i / c % b := by
  rw [Nat.mul_comm, Nat.mod_mul_right_div_self]

theorem tensor_assoc : (a.tensor b).tensor c = a.tensor (b.tensor c) := by
  refine ext_entry (Nat.mul_assoc _ _ _) (Nat.mul_assoc _ _ _) fun i j hi hj => ?_
  have hrow : i < a.rows * (b.rows * c.rows) := Nat.mul_assoc a.rows b.rows c.rows ▸ hi
  have hcol : j < a.cols * (b.cols * c.cols) := Nat.mul_assoc a.cols b.cols c.cols ▸ hj
  calc ((a.tensor b).tensor c).entry i j
      = a.entry (i / c.rows / b.rows) (j / c.cols / b.cols) *
          b.entry (i / c.rows % b.rows) (j / c.cols % b.cols) *
          c.entry (i % c.rows) (j % c.cols) := by
        rw [entry_tensor _ _ hi hj, entry_tensor _ _ (div_mod_lt hi).1 (div_mod_lt hj).1]
    _ = a.entry (i / (b.rows * c.rows)) (j / (b.cols * c.cols)) *
          (b.tensor c).entry (i % (b.rows * c.rows)) (j % (b.cols * c.cols)) := by
        rw [entry_tensor _ _ (div_mod_lt hrow).2 (div_mod_lt hcol).2, mod_mul_div,
          mod_mul_div, Nat.mod_mul_left_mod, Nat.mod_mul_left_mod, Nat.div_div_eq_div_mul,
          Nat.div_div_eq_div_mul, Nat.mul_comm c.rows, Nat.mul_comm c.cols, mul_assoc]
    _ = (a.tensor (b.tensor c)).entry i j := (entry_tensor a (b.tensor c) hrow hcol).symm

theorem tensor_identity_one : m.tensor (identity 1) = m := by
  refine ext_entry (Nat.mul_one _) (Nat.mul_one _) fun i j hi hj => ?_
  rw [entry_tensor _ _ hi hj, rows_identity, cols_identity, Nat.div_one, Nat.div_one,
    Nat.mod_one, Nat.mod_one, entry_identity Nat.one_pos Nat.one_pos, if_pos rfl, mul_one]

theorem tensorPower_succ (n : Nat) : m.tensorPower (n + 1) = (m.tensorPower n).tensor m := rfl

theorem tensorPower_add (n k : Nat) :
    m.tensorPower (n + k) = (m.tensorPower n).tensor (m.tensorPower k) := by
  induction k with
  | zero => exact (tensor_identity_one (m.tensorPower n)).symm
  | succ k ih =>
      rw [← Nat.add_assoc, tensorPower_succ, ih, tensor_assoc, tensorPower_succ]

/-- Copies of copies. -/
theorem tensorPower_tensorPower (k n : Nat) :
    (m.tensorPower k).tensorPower n = m.tensorPower (n * k) := by
  induction n with
  | zero => rw [Nat.zero_mul]; rfl
  | succ n ih => rw [tensorPower_succ, ih, Nat.succ_mul, tensorPower_add]

end Tensor

section Control

variable {R : Type} [CommRing R] {m : DenseMatrix R} {n i j : Nat}

theorem rows_control : (m.control n).rows = m.rows * dimension n := rfl

theorem entry_control (hi : i < m.rows * dimension n) (hj : j < m.rows * dimension n) :
    (m.control n).entry i j =
      if m.rows * dimension n - m.rows ≤ i ∧ m.rows * dimension n - m.rows ≤ j then
        m.entry (i - (m.rows * dimension n - m.rows))
          (if m.cols = 1 then 0 else j - (m.rows * dimension n - m.rows))
      else if i = j then 1 else 0 :=
  entry_ofFn _ hi hj

/-- A square matrix fills its block as it is. -/
theorem IsSquare.entry_control (h : m.IsSquare) (hi : i < m.rows * dimension n)
    (hj : j < m.rows * dimension n) :
    (m.control n).entry i j =
      if m.rows * dimension n - m.rows ≤ i ∧ m.rows * dimension n - m.rows ≤ j then
        m.entry (i - (m.rows * dimension n - m.rows)) (j - (m.rows * dimension n - m.rows))
      else if i = j then 1 else 0 := by
  rw [DenseMatrix.entry_control hi hj]
  by_cases hone : m.cols = 1
  · have hcolumn : j - (m.rows * dimension n - m.rows) = 0 := by
      have hrows : m.rows = 1 := h.trans hone
      omega
    rw [if_pos hone, hcolumn]
  · rw [if_neg hone]

/-- Controls in front of controls. -/
theorem control_control (m : DenseMatrix R) (k n : Nat) :
    (m.control k).control n = m.control (n + k) := by
  have hdim : m.rows * dimension (n + k) = m.rows * dimension k * dimension n := by
    rw [dimension_add, Nat.mul_comm (dimension n), Nat.mul_assoc]
  refine ext_entry hdim.symm hdim.symm fun i j hi hj => ?_
  have hi : i < m.rows * dimension k * dimension n := hi
  have hj : j < m.rows * dimension k * dimension n := hj
  have hright := DenseMatrix.entry_control (hdim.symm ▸ hi) (hdim.symm ▸ hj)
  have hinner : m.rows ≤ m.rows * dimension k := Nat.le_mul_of_pos_right _ (dimension_pos k)
  have houter : m.rows * dimension k ≤ m.rows * dimension k * dimension n :=
    Nat.le_mul_of_pos_right _ (dimension_pos n)
  rw [hdim] at hright
  rw [hright, isSquare_control.entry_control hi hj, rows_control]
  generalize m.rows * dimension k * dimension n = whole at hi hj houter ⊢
  -- Outside of the outer block both sides are the identity; inside it, the inner block sits in
  -- the last corner, which is the last corner of the whole.
  by_cases hblock : whole - m.rows * dimension k ≤ i ∧ whole - m.rows * dimension k ≤ j
  · rw [if_pos hblock, DenseMatrix.entry_control (by omega) (by omega)]
    generalize m.rows * dimension k = inner at hinner houter hblock ⊢
    have hwithin :
        (inner - m.rows ≤ i - (whole - inner) ∧ inner - m.rows ≤ j - (whole - inner)) ↔
          whole - m.rows ≤ i ∧ whole - m.rows ≤ j := by omega
    have hdiagonal : i - (whole - inner) = j - (whole - inner) ↔ i = j := by omega
    have hshift : ∀ l, l - (whole - inner) - (inner - m.rows) = l - (whole - m.rows) := by omega
    simp only [hwithin, hdiagonal, hshift]
  · have hoff : ¬(whole - m.rows ≤ i ∧ whole - m.rows ≤ j) := by omega
    rw [if_neg hblock, if_neg hoff]

end Control

section Adjoint

variable {R : Type} [CommRing R] [StarRing R] {a b m : DenseMatrix R}

@[simp] theorem rows_adjoint : m.adjoint.rows = m.cols := rfl

@[simp] theorem cols_adjoint : m.adjoint.cols = m.rows := rfl

theorem entry_adjoint {i j : Nat} (hi : i < m.cols) (hj : j < m.rows) :
    m.adjoint.entry i j = star (m.entry j i) :=
  entry_ofFn _ hi hj

theorem adjoint_adjoint (m : DenseMatrix R) : m.adjoint.adjoint = m := by
  refine ext_entry rfl rfl fun i j hi hj => ?_
  rw [entry_adjoint (m := m.adjoint) hi hj, entry_adjoint (m := m) hj hi, star_star]

theorem adjoint_identity (n : Nat) : (identity n : DenseMatrix R).adjoint = identity n := by
  refine ext_entry rfl rfl fun i j hi hj => ?_
  have hi : i < n := hi
  have hj : j < n := hj
  rw [entry_adjoint (m := identity n) hi hj, entry_identity hj hi, entry_identity hi hj]
  by_cases hdiagonal : i = j
  · rw [if_pos hdiagonal.symm, if_pos hdiagonal, star_one]
  · rw [if_neg (Ne.symm hdiagonal), if_neg hdiagonal, star_zero]

theorem adjoint_tensor (a b : DenseMatrix R) :
    (a.tensor b).adjoint = a.adjoint.tensor b.adjoint := by
  refine ext_entry rfl rfl fun i j hi hj => ?_
  have hi : i < a.cols * b.cols := hi
  have hj : j < a.rows * b.rows := hj
  obtain ⟨hia, hib⟩ := div_mod_lt hi
  obtain ⟨hja, hjb⟩ := div_mod_lt hj
  rw [entry_adjoint (m := a.tensor b) hi hj, entry_tensor a b hj hi, star_mul',
    entry_tensor a.adjoint b.adjoint hi hj, rows_adjoint, cols_adjoint, entry_adjoint hia hja,
    entry_adjoint hib hjb]

theorem adjoint_tensorPower (m : DenseMatrix R) (n : Nat) :
    (m.tensorPower n).adjoint = m.adjoint.tensorPower n := by
  induction n with
  | zero => exact adjoint_identity 1
  | succ n ih => rw [tensorPower_succ, adjoint_tensor, ih, tensorPower_succ]

/-- The adjoint of a control block is the control block of the adjoint. -/
theorem IsSquare.adjoint_control (h : m.IsSquare) (n : Nat) :
    (m.control n).adjoint = m.adjoint.control n := by
  have hrows : m.adjoint.rows = m.rows := h.symm
  refine ext_entry (congrArg (· * dimension n) h) (congrArg (· * dimension n) h)
    fun i j hi hj => ?_
  have hi : i < m.rows * dimension n := hi
  have hj : j < m.rows * dimension n := hj
  rw [entry_adjoint (m := m.control n) hi hj, h.entry_control hj hi,
    h.adjoint.entry_control (hrows.symm ▸ hi) (hrows.symm ▸ hj), hrows]
  generalize hoffset : m.rows * dimension n - m.rows = offset
  by_cases hblock : offset ≤ i ∧ offset ≤ j
  · rw [if_pos hblock.symm, if_pos hblock, entry_adjoint (h ▸ by omega) (by omega)]
  · rw [if_neg fun hblock' => hblock hblock'.symm, if_neg hblock]
    by_cases hdiagonal : i = j
    · rw [if_pos hdiagonal.symm, if_pos hdiagonal, star_one]
    · rw [if_neg (Ne.symm hdiagonal), if_neg hdiagonal, star_zero]

end Adjoint

end DenseMatrix

end GateAlgebra
