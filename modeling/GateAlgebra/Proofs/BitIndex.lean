import Mathlib.Data.Fintype.BigOperators
import Mathlib.LinearAlgebra.Matrix.Reindex
import GateAlgebra.Proofs.DiagonalForm
import GateAlgebra.Proofs.Eigenvalues
import GateAlgebra.Proofs.TensorPower
import GateAlgebra.Proofs.Window
/-!
Dense matrices as matrices of bit strings.  The rows of a dense matrix are numbered, the first bit
the most significant, and an index is known by its bits; so products, adjoints, control blocks,
copies and powers are the same on either side.
-/

namespace GateAlgebra

section Bits

variable {n k : Nat} {index : Nat}

/-- The bits of an index, the most significant one first. -/
def bitsOf (n index : Nat) : Bits n :=
  fun q => decide (qubitBit n q index = 1)

theorem bitsOf_apply (q : Fin n) : bitsOf n index q = index.testBit (n - 1 - q) := by
  rw [bitsOf, qubitBit_eq]
  cases index.testBit (n - 1 - q) <;> rfl

theorem bitsOf_injective : Function.Injective fun i : Fin (dimension n) => bitsOf n i := by
  intro i j h
  refine Fin.ext (eq_of_qubitBit i.2 j.2 fun q hq => ?_)
  have hbit : bitsOf n i ⟨q, hq⟩ = bitsOf n j ⟨q, hq⟩ := congrFun h ⟨q, hq⟩
  rw [bitsOf_apply, bitsOf_apply] at hbit
  rw [qubitBit_eq, qubitBit_eq, hbit]

/-- Indices are bit strings. -/
noncomputable def bitsEquiv (n : Nat) : Fin (dimension n) ≃ Bits n :=
  .ofBijective (fun i => bitsOf n i)
    ((Fintype.bijective_iff_injective_and_card _).2 ⟨bitsOf_injective, by
      rw [Fintype.card_fin, Fintype.card_fun, Fintype.card_bool, Fintype.card_fin]
      rfl⟩)

theorem bitsEquiv_apply (i : Fin (dimension n)) : bitsEquiv n i = bitsOf n i := rfl

/-- The first bits are those of the quotient, and the others those of the remainder. -/
theorem bitsOf_castAdd (q : Fin n) :
    bitsOf (n + k) index (q.castAdd k) = bitsOf n (index / dimension k) q := by
  rw [bitsOf_apply, bitsOf_apply, dimension, Nat.pow_eq, Nat.testBit_div_two_pow, Fin.val_castAdd]
  congr 1
  omega

theorem bitsOf_natAdd (q : Fin k) :
    bitsOf (n + k) index (q.natAdd n) = bitsOf k (index % dimension k) q := by
  rw [bitsOf_apply, bitsOf_apply, dimension, Nat.pow_eq, Nat.testBit_mod_two_pow, Fin.val_natAdd,
    decide_eq_true (by omega), Bool.true_and]
  congr 1
  omega

theorem bitsOf_last : bitsOf n (dimension n - 1) = fun _ => true := by
  funext q
  rw [bitsOf_apply, dimension, Nat.pow_eq, Nat.testBit_two_pow_sub_one]
  exact decide_eq_true (by omega)

/-- All of the first bits are ones in the last block alone. -/
theorem forall_bitsOf_castAdd (hindex : index < dimension (n + k)) :
    (∀ q : Fin n, bitsOf (n + k) index (q.castAdd k) = true) ↔
      dimension k * dimension n - dimension k ≤ index := by
  have hk := dimension_pos k
  have hn := dimension_pos n
  rw [dimension_add, Nat.mul_comm] at hindex
  have hquotient : index / dimension k < dimension n := Nat.div_lt_of_lt_mul hindex
  have hones : (∀ q : Fin n, bitsOf (n + k) index (q.castAdd k) = true) ↔
      index / dimension k = dimension n - 1 := by
    simp only [bitsOf_castAdd]
    constructor
    · intro h
      have hlast : dimension n - 1 < dimension n := by omega
      have hbits : bitsOf n (index / dimension k) = bitsOf n (dimension n - 1) := by
        rw [bitsOf_last]
        exact funext h
      have hfin : (⟨_, hquotient⟩ : Fin (dimension n)) = ⟨_, hlast⟩ := bitsOf_injective hbits
      exact Fin.ext_iff.1 hfin
    · intro h q
      rw [h, bitsOf_last]
  have hoffset : dimension k * dimension n - dimension k = (dimension n - 1) * dimension k := by
    rw [Nat.sub_mul, Nat.one_mul, Nat.mul_comm]
  rw [hones, hoffset, ← Nat.le_div_iff_mul_le hk]
  omega

/-- The place of an index in the last block. -/
theorem sub_last (hindex : index < dimension k * dimension n)
    (h : dimension k * dimension n - dimension k ≤ index) :
    index - (dimension k * dimension n - dimension k) = index % dimension k := by
  have hn := dimension_pos n
  have hoffset : dimension k * dimension n - dimension k = dimension k * (dimension n - 1) := by
    rw [Nat.mul_sub, Nat.mul_one]
  have hrest : index - dimension k * (dimension n - 1) < dimension k := by
    rw [← hoffset]
    omega
  rw [hoffset] at h ⊢
  rw [← Nat.mod_eq_of_lt hrest, Nat.sub_mul_mod h]

end Bits

namespace DenseMatrix

section Ring

variable {R : Type} [CommRing R] {a b m : DenseMatrix R} {n k : Nat}

/-- A dense matrix by the bits of its rows and columns. -/
noncomputable def bitMatrix (n : Nat) (m : DenseMatrix R) : BitMatrix R n :=
  Matrix.reindexAlgEquiv R R (bitsEquiv n) (m.toMatrix (dimension n))

theorem bitMatrix_apply (i j : Fin (dimension n)) :
    m.bitMatrix n (bitsOf n i) (bitsOf n j) = m.entry i j := by
  rw [← bitsEquiv_apply, ← bitsEquiv_apply, bitMatrix, Matrix.coe_reindexAlgEquiv,
    Matrix.reindex_apply, Matrix.submatrix_apply, Equiv.symm_apply_apply, Equiv.symm_apply_apply]
  rfl

omit [CommRing R] in
/-- Matrices of bit strings agree if they do at the bits of indices. -/
theorem bitMatrix_ext {A B : BitMatrix R n}
    (h : ∀ i j : Fin (dimension n), A (bitsOf n i) (bitsOf n j) = B (bitsOf n i) (bitsOf n j)) :
    A = B := by
  funext x y
  obtain ⟨i, rfl⟩ := (bitsEquiv n).surjective x
  obtain ⟨j, rfl⟩ := (bitsEquiv n).surjective y
  exact h i j

theorem bitMatrix_injective (ha : a.HasSide (dimension n)) (hb : b.HasSide (dimension n))
    (h : a.bitMatrix n = b.bitMatrix n) : a = b :=
  ha.ext hb ((Matrix.reindexAlgEquiv R R (bitsEquiv n)).injective h)

@[simp] theorem bitMatrix_identity : (identity (dimension n) : DenseMatrix R).bitMatrix n = 1 := by
  rw [bitMatrix, toMatrix_identity, map_one]

theorem bitMatrix_mul (ha : a.HasSide (dimension n)) (hb : b.HasSide (dimension n)) :
    (a * b).bitMatrix n = a.bitMatrix n * b.bitMatrix n := by
  rw [bitMatrix, ha.toMatrix_mul hb, map_mul]
  rfl

theorem HasSide.control (hm : m.HasSide (dimension k)) (n : Nat) :
    (m.control n).HasSide (dimension (n + k)) := by
  have hside : m.rows * dimension n = dimension (n + k) := by
    rw [hm.rows, dimension_add, Nat.mul_comm]
  exact ⟨hside, hside⟩

/-- The last block of a control matrix is where the first bits are ones. -/
theorem bitMatrix_control (hm : m.HasSide (dimension k)) (n : Nat) :
    (m.control n).bitMatrix (n + k) = blockControl n (m.bitMatrix k) := by
  refine bitMatrix_ext fun i j => ?_
  have hside : dimension (n + k) = dimension k * dimension n := by
    rw [dimension_add, Nat.mul_comm]
  have hi : i < m.rows * dimension n := hm.rows ▸ hside ▸ i.2
  have hj : j < m.rows * dimension n := hm.rows ▸ hside ▸ j.2
  rw [bitMatrix_apply, hm.isSquare.entry_control hi hj, hm.rows, blockControl]
  simp only [forall_bitsOf_castAdd i.2, forall_bitsOf_castAdd j.2, bitsOf_natAdd]
  rw [hm.rows] at hi hj
  by_cases hblock : dimension k * dimension n - dimension k ≤ i ∧
      dimension k * dimension n - dimension k ≤ j
  · rw [if_pos hblock, if_pos hblock, sub_last hi hblock.1, sub_last hj hblock.2]
    exact (bitMatrix_apply ⟨_, Nat.mod_lt i (dimension_pos k)⟩
      ⟨_, Nat.mod_lt j (dimension_pos k)⟩).symm
  · rw [if_neg hblock, if_neg hblock]
    exact if_congr (by rw [← Fin.ext_iff, ← bitsOf_injective.eq_iff]) rfl rfl

/-- The bits of one of the copies. -/
theorem bitsOf_copy {index : Nat} (p : Fin n) (q : Fin k) :
    bitsOf (n * k) index (finProdFinEquiv (p, q)) =
      bitsOf k (index / dimension (k * (n - 1 - p)) % dimension k) q := by
  rw [bitsOf_apply, bitsOf_apply, dimension, dimension, Nat.pow_eq, Nat.pow_eq,
    Nat.testBit_mod_two_pow, decide_eq_true (by omega), Bool.true_and, Nat.testBit_div_two_pow,
    finProdFinEquiv_apply_val]
  congr 1
  obtain ⟨after, hafter⟩ := Nat.exists_eq_add_of_lt p.2
  have hplaces : n * k = k * p + k * after + k :=
    calc n * k = (p + after + 1) * k := congrArg (· * k) hafter
      _ = k * p + k * after + k := by ring
  have hlater : n - 1 - p = after := by omega
  rw [hlater, hplaces]
  dsimp only
  omega

theorem HasSide.tensorPower (hm : m.HasSide (dimension k)) (n : Nat) :
    (m.tensorPower n).HasSide (dimension (n * k)) := by
  have hrows : (m.tensorPower n).rows = dimension (n * k) := by
    rw [rows_tensorPower, hm.rows, dimension_mul]
  exact ⟨hrows, (hm.isSquare.tensorPower n).symm.trans hrows⟩

/-- An entry of copies is the product of an entry for each copy. -/
theorem entry_tensorPower (hm : m.HasSide (dimension k)) {i j : Nat} (hi : i < dimension (n * k))
    (hj : j < dimension (n * k)) :
    (m.tensorPower n).entry i j = ∏ p : Fin n,
      m.entry (i / dimension (k * (n - 1 - p)) % dimension k)
        (j / dimension (k * (n - 1 - p)) % dimension k) := by
  induction n generalizing i j with
  | zero =>
      rw [Nat.zero_mul] at hi hj
      exact (entry_identity hi hj).trans (if_pos (by rw [Nat.lt_one_iff.1 hi, Nat.lt_one_iff.1 hj]))
  | succ n ih =>
      have hfront := hm.tensorPower n
      have hdim : dimension ((n + 1) * k) = dimension (n * k) * dimension k := by
        rw [Nat.succ_mul, dimension_add]
      have hquotient : ∀ {l : Nat}, l < dimension ((n + 1) * k) →
          l / dimension k < dimension (n * k) :=
        fun hl => Nat.div_lt_of_lt_mul (by rwa [Nat.mul_comm, ← hdim])
      have hearlier : ∀ (l : Nat) (p : Fin n),
          l / dimension k / dimension (k * (n - 1 - p)) =
            l / dimension (k * (n + 1 - 1 - p.castSucc)) := by
        intro l p
        have hplaces : k + k * (n - 1 - p) = k * (n + 1 - 1 - p.castSucc) := by
          rw [Fin.val_castSucc, Nat.add_comm, ← Nat.mul_succ]
          congr 1
          omega
        rw [Nat.div_div_eq_div_mul, ← dimension_add, hplaces]
      have hlast : ∀ l : Nat, l / dimension (k * (n + 1 - 1 - Fin.last n)) = l := by
        intro l
        rw [Fin.val_last, Nat.add_sub_cancel, Nat.sub_self, Nat.mul_zero, dimension_zero,
          Nat.div_one]
      rw [tensorPower_succ, entry_tensor _ m (by rwa [hfront.rows, hm.rows, ← hdim])
        (by rwa [hfront.cols, hm.cols, ← hdim]), hm.rows, hm.cols, ih (hquotient hi) (hquotient hj),
        Fin.prod_univ_castSucc, hlast, hlast]
      simp only [hearlier]

theorem bitMatrix_tensorPower (hm : m.HasSide (dimension k)) (n : Nat) :
    (m.tensorPower n).bitMatrix (n * k) = GateAlgebra.tensorPower n (m.bitMatrix k) := by
  refine bitMatrix_ext fun i j => ?_
  rw [bitMatrix_apply, entry_tensorPower hm i.2 j.2, GateAlgebra.tensorPower]
  simp only [bitsOf_copy]
  refine Finset.prod_congr rfl fun p _ => ?_
  exact (bitMatrix_apply ⟨_, Nat.mod_lt _ (dimension_pos k)⟩
    ⟨_, Nat.mod_lt _ (dimension_pos k)⟩).symm

end Ring

section Star

variable {R : Type} [CommRing R] [StarRing R] {m : DenseMatrix R} {n : Nat}

theorem bitMatrix_adjoint (hm : m.HasSide (dimension n)) :
    m.adjoint.bitMatrix n = (m.bitMatrix n).conjTranspose := by
  rw [bitMatrix, hm.toMatrix_adjoint]
  rfl

theorem bitMatrix_mem_unitary (hm : m.HasSide (dimension n)) (hunitary : m.IsUnitary) :
    m.bitMatrix n ∈ Matrix.unitaryGroup (Bits n) R := by
  rw [Matrix.mem_unitaryGroup_iff, Matrix.star_eq_conjTranspose, ← bitMatrix_adjoint hm,
    ← bitMatrix_mul hm hm.adjoint, hunitary.mul_adjoint_self, hm.rows, bitMatrix_identity]

end Star

section Powers

open scoped Matrix.Norms.L2Operator

variable {ι κ : Type} [Fintype ι] [DecidableEq ι] [Fintype κ] [DecidableEq κ]

/-- Powers are taken eigenvalue by eigenvalue, whatever the rows are called. -/
theorem principalPower_reindex (f : ι ≃ κ) {A : Matrix ι ι ℂ} (hA : A ∈ unitary (Matrix ι ι ℂ))
    (p : Rat) :
    GateAlgebra.principalPower (Matrix.reindexAlgEquiv ℂ ℂ f A) p =
      Matrix.reindexAlgEquiv ℂ ℂ f (GateAlgebra.principalPower A p) := by
  obtain ⟨Q, z, rfl⟩ := exists_eq_diagonalIn hA
  have hstar : ∀ B : Matrix ι ι ℂ, star (Matrix.reindexAlgEquiv ℂ ℂ f B) =
      Matrix.reindexAlgEquiv ℂ ℂ f (star B) := fun _ => rfl
  let Q' : unitary (Matrix κ κ ℂ) := ⟨Matrix.reindexAlgEquiv ℂ ℂ f Q, by
    rw [Unitary.mem_iff, hstar, ← map_mul, ← map_mul, (Unitary.mem_iff.1 Q.2).1,
      (Unitary.mem_iff.1 Q.2).2, map_one]
    exact ⟨rfl, rfl⟩⟩
  have hform : ∀ z : ι → ℂ, Matrix.reindexAlgEquiv ℂ ℂ f (diagonalIn Q z) =
      diagonalIn Q' (z ∘ f.symm) := by
    intro z
    have hdiagonal : Matrix.reindexAlgEquiv ℂ ℂ f (Matrix.diagonal z) =
        Matrix.diagonal (z ∘ f.symm) :=
      Matrix.submatrix_diagonal_equiv z f.symm
    rw [diagonalIn_eq, diagonalIn_eq, map_mul, map_mul, hdiagonal, hstar]
  rw [hform, principalPower_diagonalIn, principalPower_diagonalIn, hform]
  rfl

variable {m : DenseMatrix ℂ} {n : Nat}

/-- A whole power of a unitary matrix is principal as well. -/
theorem HasSide.toMatrix_exactPower (hm : m.HasSide n) (hunitary : m.IsUnitary) (e : Exponent) :
    (m.exactPower e).toMatrix n = GateAlgebra.principalPower (m.toMatrix n) e.number := by
  obtain rfl := hm.rows
  obtain ⟨q, z, hq, rfl⟩ := hunitary.exists_eq_eigenform
  rw [hq.exactPower_eigenform]
  refine hq.toMatrix_eigenform.trans ?_
  refine Eq.trans ?_ (congrArg (GateAlgebra.principalPower · e.number) hq.toMatrix_eigenform.symm)
  exact (principalPower_diagonalIn _ _ _).symm

theorem bitMatrix_exactPower (hm : m.HasSide (dimension n)) (hunitary : m.IsUnitary)
    (e : Exponent) :
    (m.exactPower e).bitMatrix n = GateAlgebra.principalPower (m.bitMatrix n) e.number := by
  rw [bitMatrix, bitMatrix, hm.toMatrix_exactPower hunitary,
    principalPower_reindex _ (hm.isUnitary_iff.1 hunitary)]

end Powers

end DenseMatrix

end GateAlgebra
