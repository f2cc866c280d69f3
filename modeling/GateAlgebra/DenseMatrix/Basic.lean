import GateAlgebra.ComplexFloat
import GateAlgebra.Dimension
import GateAlgebra.Sum
/-!
Dense matrices over any number type, stored row by row.  A matrix is built from
its entries and read through `entry`; the two undo each other, so that every
operation is known by its entries.
-/

namespace GateAlgebra

/-- A matrix stored row by row. -/
structure DenseMatrix (α : Type) where
  rows : Nat
  cols : Nat
  entries : Array α
  size_entries : entries.size = rows * cols

namespace DenseMatrix

variable {α : Type}

/-- The matrix with the given entries. -/
def ofFn (rows cols : Nat) (f : Nat → Nat → α) : DenseMatrix α where
  rows := rows
  cols := cols
  entries := Array.ofFn fun k : Fin (rows * cols) => f (k.1 / cols) (k.1 % cols)
  size_entries := Array.size_ofFn

/-- The entry in row `i` and column `j`, or zero outside of the matrix. -/
def entry [Zero α] (m : DenseMatrix α) (i j : Nat) : α :=
  if j < m.cols then m.entries.getD (i * m.cols + j) 0 else 0

@[simp] theorem rows_ofFn (rows cols : Nat) (f : Nat → Nat → α) :
    (ofFn rows cols f).rows = rows := rfl

@[simp] theorem cols_ofFn (rows cols : Nat) (f : Nat → Nat → α) :
    (ofFn rows cols f).cols = cols := rfl

theorem index_lt {rows cols i j : Nat} (hi : i < rows) (hj : j < cols) :
    i * cols + j < rows * cols := by
  have h : (i + 1) * cols ≤ rows * cols := Nat.mul_le_mul_right cols hi
  rw [Nat.add_mul, Nat.one_mul] at h
  omega

/-- Building a matrix and reading it gives back its entries. -/
theorem entry_ofFn [Zero α] {rows cols i j : Nat} (f : Nat → Nat → α)
    (hi : i < rows) (hj : j < cols) : (ofFn rows cols f).entry i j = f i j := by
  have hindex := index_lt hi hj
  have hdiv : (i * cols + j) / cols = i := by
    rw [Nat.mul_comm, Nat.mul_add_div (by omega), Nat.div_eq_of_lt hj, Nat.add_zero]
  have hmod : (i * cols + j) % cols = j := by
    rw [Nat.mul_comm, Nat.mul_add_mod, Nat.mod_eq_of_lt hj]
  simp [entry, ofFn, hj, hindex, hdiv, hmod]

/-- Two matrices of one shape with the same entries are equal. -/
theorem ext_entry [Zero α] {a b : DenseMatrix α} (hrows : a.rows = b.rows)
    (hcols : a.cols = b.cols)
    (h : ∀ i j, i < a.rows → j < a.cols → a.entry i j = b.entry i j) : a = b := by
  obtain ⟨rows, cols, left, hleft⟩ := a
  obtain ⟨rows', cols', right, hright⟩ := b
  dsimp only at hrows hcols h
  subst hrows hcols
  have hentries : left = right := by
    apply Array.ext (by rw [hleft, hright])
    intro k hk hk'
    have hpos : 0 < cols := by
      rcases Nat.eq_zero_or_pos cols with hzero | hpos
      · simp [hleft, hzero] at hk
      · exact hpos
    have hrow : k / cols < rows := by
      rw [hleft] at hk
      exact Nat.div_lt_of_lt_mul (by rwa [Nat.mul_comm])
    have hcol : k % cols < cols := Nat.mod_lt k hpos
    have hsplit : k / cols * cols + k % cols = k := by
      rw [Nat.mul_comm]
      exact Nat.div_add_mod k cols
    have heq := h (k / cols) (k % cols) hrow hcol
    simpa [entry, hcol, hsplit, Array.getD, hk, hk'] using heq
  subst hentries
  rfl

/-- The matrix with the given rows, as wide as the first of them. -/
def ofRows [Zero α] (rows : List (List α)) : DenseMatrix α :=
  ofFn rows.length (rows.headD []).length fun i j => (rows.getD i []).getD j 0

/-- The diagonal matrix with the given entries. -/
def diagonal [Zero α] (n : Nat) (f : Nat → α) : DenseMatrix α :=
  ofFn n n fun i j => if i = j then f i else 0

def identity [Zero α] [One α] (n : Nat) : DenseMatrix α :=
  diagonal n fun _ => 1

def adjoint [Zero α] [Conj α] (m : DenseMatrix α) : DenseMatrix α :=
  ofFn m.cols m.rows fun i j => Conj.conj (m.entry j i)

def mul [Zero α] [Add α] [Mul α] (a b : DenseMatrix α) : DenseMatrix α :=
  ofFn a.rows b.cols fun i j => sumBelow (fun k => a.entry i k * b.entry k j) a.cols

instance [Zero α] [Add α] [Mul α] : Mul (DenseMatrix α) := ⟨mul⟩

/-- The tensor product; the left factor has the more significant index. -/
def tensor [Zero α] [Mul α] (a b : DenseMatrix α) : DenseMatrix α :=
  ofFn (a.rows * b.rows) (a.cols * b.cols) fun i j =>
    a.entry (i / b.rows) (j / b.cols) * b.entry (i % b.rows) (j % b.cols)

def tensorPower [Zero α] [One α] [Mul α] (m : DenseMatrix α) : Nat → DenseMatrix α
  | 0 => identity 1
  | n + 1 => (tensorPower m n).tensor m

/-- The tensor product of a list of factors, the first the most significant. -/
def tensorList [Zero α] [One α] [Mul α] (factors : List (DenseMatrix α)) :
    DenseMatrix α :=
  factors.foldl tensor (identity 1)

/-- The identity of a side, except that its last block is the given matrix.  A single
column fills every column of the block. -/
def inLastBlock [Zero α] [One α] (dim : Nat) (m : DenseMatrix α) : DenseMatrix α :=
  let offset := dim - m.rows
  ofFn dim dim fun i j =>
    if offset ≤ i ∧ offset ≤ j then m.entry (i - offset) (if m.cols = 1 then 0 else j - offset)
    else if i = j then 1 else 0

/-- The matrix under `n` controls. -/
def control [Zero α] [One α] (n : Nat) (m : DenseMatrix α) : DenseMatrix α :=
  m.inLastBlock (m.rows * dimension n)

/-- Square the base for every binary digit of the exponent, from the lowest, and
multiply it in where the digit is one. -/
def squarePower (product : DenseMatrix α → DenseMatrix α → DenseMatrix α)
    (result base : DenseMatrix α) (n : Nat) : DenseMatrix α :=
  if n = 0 then result
  else
    let result := if n % 2 = 1 then product result base else result
    if n / 2 = 0 then result else squarePower product result (product base base) (n / 2)
termination_by n

/-- A whole power with respect to a product. -/
def integerPower [Zero α] [One α]
    (product : DenseMatrix α → DenseMatrix α → DenseMatrix α) (m : DenseMatrix α)
    (n : Nat) : DenseMatrix α :=
  squarePower product (identity m.rows) m n

end DenseMatrix

/-- Whether two matrices have one shape and no two entries are as far apart as the
tolerance. -/
def DenseMatrix.isClose (a b : DenseMatrix ComplexFloat) (tolerance : Float) : Bool :=
  a.rows == b.rows && a.cols == b.cols &&
    (a.entries.zip b.entries).all fun entry => (entry.1 - entry.2).norm < tolerance

end GateAlgebra
