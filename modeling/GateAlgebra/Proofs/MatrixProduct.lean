import Mathlib.Algebra.BigOperators.Intervals
import Mathlib.Algebra.BigOperators.Ring.Finset
import Mathlib.Algebra.Star.BigOperators
import GateAlgebra.Proofs.DenseMatrix
/-!
Products of dense matrices over a semiring, and over a commutative ring with an involution.
There products go through control blocks and tensor products factor by factor, so controls and
copies of unitary matrices are unitary.
-/

namespace GateAlgebra

open Finset

theorem sumBelow_eq_sum {R : Type} [AddCommMonoid R] (f : Nat → R) (n : Nat) :
    sumBelow f n = ∑ k ∈ range n, f k := by
  induction n with
  | zero => rfl
  | succ n ih => rw [sumBelow, ih, sum_range_succ]

namespace DenseMatrix

section Semiring

variable {R : Type} [Semiring R] {a b c : DenseMatrix R} {n i j : Nat}

@[simp] theorem rows_mul (a b : DenseMatrix R) : (a * b).rows = a.rows := rfl

@[simp] theorem cols_mul (a b : DenseMatrix R) : (a * b).cols = b.cols := rfl

theorem entry_mul (a b : DenseMatrix R) (hi : i < a.rows) (hj : j < b.cols) :
    (a * b).entry i j = ∑ k ∈ range a.cols, a.entry i k * b.entry k j :=
  (entry_ofFn _ hi hj).trans (sumBelow_eq_sum _ _)

theorem sum_identity_mul (f : Nat → R) (hi : i < n) :
    ∑ k ∈ range n, (identity n : DenseMatrix R).entry i k * f k = f i := by
  rw [sum_eq_single_of_mem i (mem_range.2 hi)]
  · rw [entry_identity hi hi, if_pos rfl, one_mul]
  · intro k hk hne
    rw [entry_identity hi (mem_range.1 hk), if_neg (Ne.symm hne), zero_mul]

theorem identity_mul (m : DenseMatrix R) : identity m.rows * m = m := by
  refine ext_entry rfl rfl fun i j hi hj => ?_
  have hi : i < m.rows := hi
  have hj : j < m.cols := hj
  rw [entry_mul (identity m.rows) m hi hj]
  exact sum_identity_mul (m.entry · j) hi

protected theorem mul_assoc (h : a.cols = b.rows) : a * b * c = a * (b * c) := by
  refine ext_entry rfl rfl fun i j hi hj => ?_
  have hi : i < a.rows := hi
  have hj : j < c.cols := hj
  calc (a * b * c).entry i j
      = ∑ k ∈ range b.cols, ∑ l ∈ range a.cols, a.entry i l * b.entry l k * c.entry k j := by
        rw [entry_mul (a * b) c hi hj]
        refine sum_congr rfl fun k hk => ?_
        rw [entry_mul a b hi (mem_range.1 hk), sum_mul]
    _ = ∑ l ∈ range a.cols, ∑ k ∈ range b.cols, a.entry i l * (b.entry l k * c.entry k j) := by
        rw [sum_comm]
        simp only [mul_assoc]
    _ = (a * (b * c)).entry i j := by
        rw [entry_mul a (b * c) hi hj]
        refine sum_congr rfl fun l hl => ?_
        rw [entry_mul b c (h ▸ mem_range.1 hl) hj, mul_sum]

end Semiring

variable {R : Type} [CommRing R] {a b c d m : DenseMatrix R} {n i j : Nat}

@[simp] theorem rows_tensor (a b : DenseMatrix R) : (a.tensor b).rows = a.rows * b.rows := rfl

section Control

/-- An index of a control block is above the last block or in it. -/
theorem control_index_cases {side i : Nat} (n : Nat) (hi : i < side * dimension n) :
    i < side * dimension n - side ∨ ∃ k < side, i = side * dimension n - side + k := by
  have hblock : side ≤ side * dimension n := Nat.le_mul_of_pos_right _ (dimension_pos n)
  by_cases habove : i < side * dimension n - side
  · exact Or.inl habove
  · exact Or.inr ⟨i - (side * dimension n - side), by omega, by omega⟩

/-- Outside of its last block the matrix is the identity. -/
theorem entry_control_outside {side : Nat} (hside : m.rows = side) (hi : i < side * dimension n)
    (hj : j < side * dimension n)
    (h : i < side * dimension n - side ∨ j < side * dimension n - side) :
    (m.control n).entry i j = if i = j then 1 else 0 := by
  subst hside
  rw [entry_control hi hj, if_neg (by omega)]

theorem IsSquare.entry_control_block (h : m.IsSquare) {side : Nat} (hside : m.rows = side)
    (hi : i < side) (hj : j < side) :
    (m.control n).entry (side * dimension n - side + i) (side * dimension n - side + j) =
      m.entry i j := by
  subst hside
  have hblock : m.rows ≤ m.rows * dimension n := Nat.le_mul_of_pos_right _ (dimension_pos n)
  rw [h.entry_control (by omega) (by omega), if_pos (by omega), Nat.add_sub_cancel_left,
    Nat.add_sub_cancel_left]

/-- Above the block there are ones. -/
theorem control_diagonal (k n : Nat) (z : Nat → R) :
    (diagonal k z).control n = diagonal (k * dimension n) fun i =>
      if i < k * dimension n - k then 1 else z (i - (k * dimension n - k)) := by
  have hside : (diagonal k z).rows = k := rfl
  have hsquare : (diagonal k z).IsSquare := rfl
  refine ext_entry rfl rfl fun i j hi hj => ?_
  have hi : i < k * dimension n := hi
  have hj : j < k * dimension n := hj
  rw [entry_diagonal _ hi hj]
  rcases control_index_cases n hi with habove | ⟨i', hi', rfl⟩
  · rw [entry_control_outside rfl hi hj (Or.inl habove), if_pos habove]
  · rw [if_neg (Nat.not_lt.2 (Nat.le_add_right _ i')), Nat.add_sub_cancel_left]
    rcases control_index_cases n hj with hleft | ⟨j', hj', rfl⟩
    · have hne : k * dimension n - k + i' ≠ j := by omega
      rw [entry_control_outside rfl hi hj (Or.inr hleft), if_neg hne, if_neg hne]
    · rw [hsquare.entry_control_block hside hi' hj', entry_diagonal z hi' hj']
      simp only [Nat.add_left_cancel_iff]

theorem control_identity (k n : Nat) :
    (identity k : DenseMatrix R).control n = identity (k * dimension n) := by
  rw [identity, control_diagonal]
  simp only [ite_self, identity]

/-- Control blocks multiply.  A row above the block has a one on the diagonal and zeros; a row
in the block has zeros in front of the block. -/
theorem control_mul (ha : a.IsSquare) (hb : b.IsSquare) (hsides : a.cols = b.rows) (n : Nat) :
    a.control n * b.control n = (a * b).control n := by
  have hrows : b.rows = a.rows := hsides.symm.trans ha.symm
  have hsquare : (a * b).IsSquare := ha.trans (hsides.trans hb)
  refine ext_entry rfl (congrArg (· * dimension n) hrows) fun i j hi hj => ?_
  have hi : i < a.rows * dimension n := hi
  have hj : j < b.rows * dimension n := hj
  rw [entry_mul (a.control n) (b.control n) hi hj]
  change ∑ k ∈ range (a.rows * dimension n), _ = _
  have hblock : a.rows ≤ a.rows * dimension n := Nat.le_mul_of_pos_right _ (dimension_pos n)
  have hwhole : a.rows * dimension n = a.rows * dimension n - a.rows + a.rows := by omega
  rw [hrows] at hj
  rcases control_index_cases n hi with habove | ⟨i', hi', rfl⟩
  · have hdiagonal : ∀ k ∈ range (a.rows * dimension n), k ≠ i →
        (a.control n).entry i k * (b.control n).entry k j = 0 := by
      intro k hk hne
      rw [entry_control_outside rfl hi (mem_range.1 hk) (Or.inl habove), if_neg hne.symm,
        zero_mul]
    rw [sum_eq_single_of_mem i (mem_range.2 hi) hdiagonal,
      entry_control_outside rfl hi hi (Or.inl habove), if_pos rfl, one_mul,
      entry_control_outside hrows hi hj (Or.inl habove),
      entry_control_outside (rows_mul a b) hi hj (Or.inl habove)]
  · have hfront : ∀ k ∈ range (a.rows * dimension n - a.rows),
        (a.control n).entry (a.rows * dimension n - a.rows + i') k *
          (b.control n).entry k j = 0 := by
      intro k hk
      have hk := mem_range.1 hk
      rw [entry_control_outside rfl hi (by omega) (Or.inr hk), if_neg (by omega), zero_mul]
    rw [hwhole, sum_range_add, ← hwhole, sum_eq_zero hfront, zero_add]
    have hleft : ∀ k ∈ range a.rows,
        (a.control n).entry (a.rows * dimension n - a.rows + i')
          (a.rows * dimension n - a.rows + k) = a.entry i' k := fun k hk =>
      ha.entry_control_block rfl hi' (mem_range.1 hk)
    rcases control_index_cases n hj with hright | ⟨j', hj', rfl⟩
    · rw [entry_control_outside (rows_mul a b) hi hj (Or.inr hright), if_neg (by omega)]
      refine sum_eq_zero fun k hk => ?_
      have hk := mem_range.1 hk
      rw [entry_control_outside hrows (by omega) hj (Or.inr hright), if_neg (by omega), mul_zero]
    · rw [hsquare.entry_control_block (rows_mul a b) hi' hj',
        entry_mul a b hi' (hb ▸ hrows.symm ▸ hj'), ← ha]
      refine sum_congr rfl fun k hk => ?_
      rw [hleft k hk, hb.entry_control_block hrows (mem_range.1 hk) hj']

end Control

section Tensor

/-- A sum over the pairs of two indices. -/
theorem sum_range_mul (f : Nat → Nat → R) (k n : Nat) :
    ∑ index ∈ range (k * n), f (index / n) (index % n) =
      ∑ i ∈ range k, ∑ j ∈ range n, f i j := by
  induction k with
  | zero => simp
  | succ k ih =>
      rw [Nat.succ_mul, sum_range_add, ih, sum_range_succ]
      congr 1
      refine sum_congr rfl fun j hj => ?_
      have hj := mem_range.1 hj
      have hdiv : (k * n + j) / n = k := by
        rw [Nat.mul_comm, Nat.mul_add_div (by omega), Nat.div_eq_of_lt hj, Nat.add_zero]
      have hmod : (k * n + j) % n = j := by
        rw [Nat.mul_comm, Nat.mul_add_mod, Nat.mod_eq_of_lt hj]
      rw [hdiv, hmod]

theorem tensor_diagonal (k n : Nat) (w z : Nat → R) :
    (diagonal k w).tensor (diagonal n z) =
      diagonal (k * n) fun i => w (i / n) * z (i % n) := by
  refine ext_entry rfl rfl fun i j hi hj => ?_
  have hi : i < k * n := hi
  have hj : j < k * n := hj
  obtain ⟨hik, hin⟩ := div_mod_lt hi
  obtain ⟨hjk, hjn⟩ := div_mod_lt hj
  have hfactors := entry_tensor (diagonal k w) (diagonal n z) hi hj
  rw [hfactors, entry_diagonal _ hi hj]
  refine (congrArg₂ (· * ·) (entry_diagonal w hik hjk) (entry_diagonal z hin hjn)).trans ?_
  have hpair : i = j ↔ i % n = j % n ∧ i / n = j / n := by
    refine ⟨fun h => h ▸ ⟨rfl, rfl⟩, fun ⟨hmod, hdiv⟩ => ?_⟩
    rw [← Nat.div_add_mod i n, hdiv, hmod, Nat.div_add_mod]
  simp only [hpair, ite_and, ite_mul, mul_ite, mul_zero, zero_mul]

theorem tensor_identity (k n : Nat) :
    (identity k : DenseMatrix R).tensor (identity n) = identity (k * n) := by
  rw [identity, identity, tensor_diagonal]
  simp only [mul_one, identity]

/-- Tensor products multiply factor by factor. -/
theorem tensor_mul (hab : a.cols = c.rows) (hcd : b.cols = d.rows) :
    a.tensor b * c.tensor d = (a * c).tensor (b * d) := by
  refine ext_entry rfl rfl fun i j hi hj => ?_
  have hi : i < a.rows * b.rows := hi
  have hj : j < c.cols * d.cols := hj
  obtain ⟨hia, hib⟩ := div_mod_lt hi
  obtain ⟨hjc, hjd⟩ := div_mod_lt hj
  calc (a.tensor b * c.tensor d).entry i j
      = ∑ index ∈ range (a.cols * b.cols),
          (a.entry (i / b.rows) (index / b.cols) * b.entry (i % b.rows) (index % b.cols)) *
            (c.entry (index / b.cols) (j / d.cols) * d.entry (index % b.cols) (j % d.cols)) := by
        rw [entry_mul (a.tensor b) (c.tensor d) hi hj]
        refine sum_congr rfl fun index hindex => ?_
        have hindex : index < a.cols * b.cols := mem_range.1 hindex
        rw [entry_tensor a b hi hindex, entry_tensor c d (hab ▸ hcd ▸ hindex) hj, ← hcd]
    _ = ∑ k ∈ range a.cols, ∑ l ∈ range b.cols,
          (a.entry (i / b.rows) k * c.entry k (j / d.cols)) *
            (b.entry (i % b.rows) l * d.entry l (j % d.cols)) := by
        rw [sum_range_mul (fun k l => (a.entry (i / b.rows) k * b.entry (i % b.rows) l) *
          (c.entry k (j / d.cols) * d.entry l (j % d.cols)))]
        simp only [mul_mul_mul_comm]
    _ = (a * c).entry (i / b.rows) (j / d.cols) * (b * d).entry (i % b.rows) (j % d.cols) := by
        rw [← sum_mul_sum, ← entry_mul a c hia hjc, ← entry_mul b d hib hjd]
    _ = ((a * c).tensor (b * d)).entry i j := (entry_tensor (a * c) (b * d) hi hj).symm

end Tensor

section Unitary

variable [StarRing R]

theorem adjoint_mul (hsides : a.cols = b.rows) : (a * b).adjoint = b.adjoint * a.adjoint := by
  refine ext_entry rfl rfl fun i j hi hj => ?_
  have hi : i < b.cols := hi
  have hj : j < a.rows := hj
  rw [entry_adjoint (m := a * b) hi hj, entry_mul a b hj hi, entry_mul b.adjoint a.adjoint hi hj,
    star_sum, cols_adjoint, hsides]
  refine sum_congr rfl fun k hk => ?_
  have hk := mem_range.1 hk
  rw [entry_adjoint hi hk, entry_adjoint (hsides ▸ hk) hj, star_mul]

/-- A square matrix whose adjoint is its inverse. -/
structure IsUnitary (m : DenseMatrix R) : Prop where
  square : m.IsSquare
  adjoint_mul_self : m.adjoint * m = identity m.rows
  mul_adjoint_self : m * m.adjoint = identity m.rows

theorem isUnitary_identity (n : Nat) : (identity n : DenseMatrix R).IsUnitary where
  square := rfl
  adjoint_mul_self := by rw [adjoint_identity]; exact identity_mul (identity n)
  mul_adjoint_self := by rw [adjoint_identity]; exact identity_mul (identity n)

namespace IsUnitary

theorem adjoint (h : m.IsUnitary) : m.adjoint.IsUnitary where
  square := h.square.adjoint
  adjoint_mul_self := by rw [adjoint_adjoint, h.mul_adjoint_self, rows_adjoint, h.square]
  mul_adjoint_self := by rw [adjoint_adjoint, h.adjoint_mul_self, rows_adjoint, h.square]

/-- In the product of `a * b` and its adjoint, in either order, the inner pair cancels first. -/
theorem mul (ha : a.IsUnitary) (hb : b.IsUnitary) (hsides : a.cols = b.rows) :
    (a * b).IsUnitary where
  square := ha.square.trans (hsides.trans hb.square)
  adjoint_mul_self := by
    have hrows : a.rows = b.rows := ha.square.trans hsides
    calc (a * b).adjoint * (a * b)
        = b.adjoint * (a.adjoint * (a * b)) := by
          rw [adjoint_mul hsides, DenseMatrix.mul_assoc (b := a.adjoint) hsides.symm]
      _ = b.adjoint * (identity b.rows * b) := by
          rw [← DenseMatrix.mul_assoc (a := a.adjoint) (b := a) rfl, ha.adjoint_mul_self, hrows]
      _ = identity (a * b).rows := by
          rw [identity_mul, hb.adjoint_mul_self, rows_mul, hrows]
  mul_adjoint_self := by
    calc a * b * (a * b).adjoint
        = a * (b * b.adjoint * a.adjoint) := by
          rw [adjoint_mul hsides, DenseMatrix.mul_assoc hsides,
            DenseMatrix.mul_assoc (a := b) (b := b.adjoint) rfl]
      _ = a * (identity a.adjoint.rows * a.adjoint) := by
          rw [hb.mul_adjoint_self, rows_adjoint, hsides]
      _ = identity (a * b).rows := by
          rw [identity_mul, ha.mul_adjoint_self, rows_mul]

theorem control (h : m.IsUnitary) (n : Nat) : (m.control n).IsUnitary where
  square := isSquare_control
  adjoint_mul_self := by
    rw [h.square.adjoint_control, control_mul h.square.adjoint h.square rfl, h.adjoint_mul_self,
      control_identity, rows_control]
  mul_adjoint_self := by
    rw [h.square.adjoint_control, control_mul h.square h.square.adjoint rfl, h.mul_adjoint_self,
      control_identity, rows_control]

theorem tensor (ha : a.IsUnitary) (hb : b.IsUnitary) : (a.tensor b).IsUnitary where
  square := congrArg₂ (· * ·) ha.square hb.square
  adjoint_mul_self := by
    rw [adjoint_tensor, tensor_mul rfl rfl, ha.adjoint_mul_self, hb.adjoint_mul_self,
      tensor_identity, rows_tensor]
  mul_adjoint_self := by
    rw [adjoint_tensor, tensor_mul rfl rfl, ha.mul_adjoint_self, hb.mul_adjoint_self,
      tensor_identity, rows_tensor]

theorem tensorPower (h : m.IsUnitary) (n : Nat) : (m.tensorPower n).IsUnitary := by
  induction n with
  | zero => exact isUnitary_identity 1
  | succ n ih => exact ih.tensor h

theorem integerPower (h : m.IsUnitary) (n : Nat) : (m.integerPower (· * ·) n).IsUnitary := by
  have hkeeps : ∀ a b : DenseMatrix R, a.IsUnitary ∧ a.rows = m.rows →
      b.IsUnitary ∧ b.rows = m.rows → (a * b).IsUnitary ∧ (a * b).rows = m.rows := by
    rintro a b ⟨ha, hrows⟩ ⟨hb, hrows'⟩
    exact ⟨ha.mul hb (ha.square.symm.trans (hrows.trans hrows'.symm)), hrows⟩
  exact (squarePower_keeps hkeeps ⟨isUnitary_identity m.rows, rfl⟩ ⟨h, rfl⟩ n).1

end IsUnitary

end Unitary

end DenseMatrix

end GateAlgebra
