import GateAlgebra.DenseMatrix.Product
/-!
The Schur decomposition of a complex matrix: a unitary matrix that turns it into
an upper triangular one.  Reflections first clear everything below the first
subdiagonal.  Double-shift steps then chase a bulge along it until the last
subdiagonal entries vanish, and blocks of side two are turned triangular by a
rotation.
-/

namespace GateAlgebra

namespace ComplexFloat

/-- The sum of the sizes of both parts. -/
def sizeSum (a : ComplexFloat) : Float :=
  a.re.abs + a.im.abs

def isZero (a : ComplexFloat) : Bool :=
  a.re == 0 && a.im == 0

def squaredNorm (a : ComplexFloat) : Float :=
  a.re * a.re + a.im * a.im

/-- The point of the unit circle in the direction of a number, or one. -/
def direction (a : ComplexFloat) : ComplexFloat :=
  let length := a.norm
  if length == 0 then 1 else a.unscale length

/-- The square root with half of the angle. -/
def halfAngleSqrt (a : ComplexFloat) : ComplexFloat :=
  ofPolar a.norm.sqrt (a.argument / 2)

end ComplexFloat

/-- A reflection: its unit axis, the value that the first entry of the reflected
vector takes, and whether there is anything to reflect. -/
structure Reflection where
  axis : Array ComplexFloat
  image : ComplexFloat
  proper : Bool

namespace Reflection

/-- The squared length of a vector. -/
def squaredLength (v : Array ComplexFloat) : Float :=
  laneSum (fun k => (v.getD k 0).squaredNorm) v.size

/-- The reflection that leaves only the first entry of a vector. -/
def ofVector (v : Array ComplexFloat) : Reflection :=
  let square := squaredLength v
  let length := square.sqrt
  let head := v.getD 0 0
  let image := head.direction.scale length
  let factor := (square + head.norm * length) * 2
  let shifted := v.setIfInBounds 0 (head + image)
  if factor == 0 then { axis := shifted, image := image, proper := false }
  else
    let axis := shifted.map fun a => a.unscale factor.sqrt
    let axisLength := (squaredLength axis).sqrt
    { axis := axis.map fun a => a.unscale axisLength, image := -image, proper := true }

/-- Reflect the columns from `firstCol` on, in the rows from `firstRow` on, and
multiply them by a sign. -/
def onRows (axis : Array ComplexFloat) (sign : ComplexFloat) (firstRow firstCol : Nat)
    (m : FloatMatrix) : FloatMatrix :=
  let factors := Array.ofFn fun k : Fin m.cols =>
    laneSum (fun i => Conj.conj (axis.getD i 0) * m.entry (firstRow + i) k) axis.size *
      sign.scale (-2)
  .ofFn m.rows m.cols fun i j =>
    if firstRow ≤ i ∧ i < firstRow + axis.size ∧ firstCol ≤ j then
      factors.getD j 0 * axis.getD (i - firstRow) 0 + sign * m.entry i j
    else m.entry i j

/-- Reflect the first `rowBound` rows, in the columns from `firstCol` on, and
multiply them by a sign. -/
def onCols (axis : Array ComplexFloat) (sign : ComplexFloat) (rowBound firstCol : Nat)
    (m : FloatMatrix) : FloatMatrix :=
  let weights := axis.map fun a => sign.scale (-2) * Conj.conj a
  let sums := Array.ofFn fun k : Fin m.rows =>
    sumBelow (fun i => m.entry k (firstCol + i) * axis.getD i 0) axis.size
  .ofFn m.rows m.cols fun i j =>
    if i < rowBound ∧ firstCol ≤ j ∧ j < firstCol + axis.size then
      weights.getD (j - firstCol) 0 * sums.getD i 0 + sign * m.entry i j
    else m.entry i j

end Reflection

/-- Change some entries of a matrix. -/
def DenseMatrix.update (m : FloatMatrix)
    (f : Nat → Nat → Option ComplexFloat) : FloatMatrix :=
  .ofFn m.rows m.cols fun i j => (f i j).getD (m.entry i j)

def DenseMatrix.setEntry (m : FloatMatrix) (row col : Nat) (a : ComplexFloat) :
    FloatMatrix :=
  m.update fun i j => if i = row ∧ j = col then some a else none

/-- A similar matrix with the unitary matrix that relates the two. -/
structure SchurState where
  basis : FloatMatrix
  form : FloatMatrix

namespace SchurState

/-- Part of column `col` from row `first` on. -/
def columnFrom (m : FloatMatrix) (first col : Nat) : Array ComplexFloat :=
  Array.ofFn fun k : Fin (m.rows - first) => m.entry (first + k) col

/-- Clear the entries of a column below its subdiagonal by a reflection from both
sides, and keep the reflection. -/
def clearColumn (state : FloatMatrix × Array Reflection) (col : Nat) :
    FloatMatrix × Array Reflection :=
  let (m, reflections) := state
  let reflection := Reflection.ofVector (columnFrom m (col + 1) col)
  let sign := reflection.image.direction
  let m :=
    if reflection.proper then
      Reflection.onRows reflection.axis (Conj.conj sign) (col + 1) (col + 1)
        (Reflection.onCols reflection.axis sign m.rows (col + 1) m)
    else m
  (m, reflections.push reflection)

/-- A similar matrix without entries below the first subdiagonal, which is real and
not negative. -/
def hessenberg (m : FloatMatrix) : SchurState :=
  let dim := m.rows
  let (cleared, reflections) := (List.range (dim - 1)).foldl clearColumn (m, #[])
  let image (col : Nat) : ComplexFloat :=
    match reflections[col]? with
    | some reflection => reflection.image
    | none => 0
  let basis := (List.range (dim - 1)).reverse.foldl
    (fun q col =>
      match reflections[col]? with
      | some reflection =>
          Reflection.onRows reflection.axis reflection.image.direction (col + 1) col q
      | none => q)
    (.identity dim)
  let form := cleared.update fun i j =>
    if i = j + 1 then some (.ofReal (image j).norm)
    else if j < i then some 0
    else none
  { basis := basis, form := form }

/-- Two diagonal entries whose subdiagonal entry is negligible beside them. -/
def relativeTolerance : Float := 1e-14

/-- Whether the subdiagonal entry below `row` is negligible. -/
def isNegligible (m : FloatMatrix) (row : Nat) : Bool :=
  (m.entry (row + 1) row).sizeSum ≤ relativeTolerance *
    ((m.entry (row + 1) (row + 1)).sizeSum + (m.entry row row).sizeSum)

/-- The last row whose subdiagonal entry is not negligible, at most `last`; the
negligible entries on the way are cleared. -/
def lastActive (m : FloatMatrix) : Nat → FloatMatrix × Nat
  | 0 => (m, 0)
  | last + 1 =>
      if isNegligible m last then lastActive (m.setEntry (last + 1) last 0) last
      else (m, last + 1)

/-- The first row of the block that ends in the row after `row`. -/
def firstActive (m : FloatMatrix) : Nat → FloatMatrix × Nat
  | 0 => (m, 0)
  | row + 1 =>
      if (m.entry (row + 1) row).isZero || isNegligible m row then
        (m.setEntry (row + 1) row 0, row + 1)
      else firstActive m row

/-- The last block with no negligible subdiagonal entry, up to row `last`. -/
def activeBlock (m : FloatMatrix) (last : Nat) : FloatMatrix × Nat × Nat :=
  match lastActive m last with
  | (m, 0) => (m, 0, 0)
  | (m, stop + 1) =>
      let (m, start) := firstActive m stop
      (m, start, stop + 1)

/-- Reflect the form from both sides and the basis from the right. -/
def reflect (state : SchurState) (axis : Array ComplexFloat) (first rowBound : Nat) :
    SchurState where
  form := Reflection.onCols axis 1 rowBound first
    (Reflection.onRows axis 1 first first state.form)
  basis := Reflection.onCols axis 1 state.basis.rows first state.basis

/-- One step of the bulge: reflect three rows and columns, and read off the vector
of the next step. -/
def chase (start stop : Nat) (step : SchurState × Array ComplexFloat) (k : Nat) :
    SchurState × Array ComplexFloat :=
  let (state, v) := step
  let reflection := Reflection.ofVector v
  let state :=
    if reflection.proper then
      let form :=
        if start < k then
          state.form.update fun i j =>
            if j + 1 ≠ k then none
            else if i = k then some reflection.image
            else if i = k + 1 ∨ i = k + 2 then some 0
            else none
        else state.form
      reflect { state with form := form } reflection.axis k (min (k + 4) (stop + 1))
    else state
  let t := state.form.entry
  (state, #[t (k + 1) k, t (k + 2) k, t (k + 3) k])

/-- A double-shift step on the rows from `start` to `stop`, at least three. -/
def doubleShift (state : SchurState) (start stop : Nat) : SchurState :=
  let t := state.form.entry
  let h11 := t start start
  let h12 := t start (start + 1)
  let h21 := t (start + 1) start
  let h22 := t (start + 1) (start + 1)
  let h32 := t (start + 2) (start + 1)
  let before := stop - 1
  let trace := t stop stop + t before before
  let det := t stop stop * t before before - t stop before * t before stop
  let v := #[
    h11 * h11 + h12 * h21 - trace * h11 + det,
    h21 * (h11 + h22 - trace),
    h21 * h32]
  let (state, v) :=
    ((List.range (stop - 1 - start)).map (start + ·)).foldl (chase start stop) (state, v)
  let reflection := Reflection.ofVector (v.extract 0 2)
  if reflection.proper then
    let form := state.form.update fun i j =>
      if j + 1 ≠ before then none
      else if i = before then some reflection.image
      else if i = stop then some 0
      else none
    reflect { state with form := form } reflection.axis before (stop + 1)
  else state

end SchurState

/-- A rotation of a plane by a real cosine and a complex sine. -/
structure PlaneRotation where
  cosine : Float
  sine : ComplexFloat

namespace PlaneRotation

/-- The rotation that takes the first axis to the direction of `(a, b)`. -/
def ofDirection (a b : ComplexFloat) : PlaneRotation :=
  let length := a.norm
  let total := (length * length + b.squaredNorm).sqrt
  if 0 < total then
    ⟨length / total, b / a.direction.scale total⟩
  else ⟨1, 0⟩

/-- The rotation whose first axis is an eigenvector of the block at `start`, if the
entry below the diagonal is not zero. -/
def ofBlock? (m : FloatMatrix) (start : Nat) : Option PlaneRotation :=
  let h00 := m.entry start start
  let h01 := m.entry start (start + 1)
  let h10 := m.entry (start + 1) start
  let h11 := m.entry (start + 1) (start + 1)
  if h10.isZero then none
  else
    let half : ComplexFloat := .ofReal 0.5
    let gap := (h00 - h11) * half
    let root := (h10 * h01 + gap * gap).halfAngleSqrt
    let middle := (h00 + h11) * half
    let x1 := middle + root - h11
    let x2 := middle - root - h11
    some (ofDirection (if x2.sizeSum < x1.sizeSum then x1 else x2) h10)

/-- Rotate two columns from the right, in the first `rowBound` rows. -/
def onCols (r : PlaneRotation) (first rowBound : Nat) (m : FloatMatrix) : FloatMatrix :=
  m.update fun i j =>
    let a := m.entry i first
    let b := m.entry i (first + 1)
    if rowBound ≤ i then none
    else if j = first then some (a.scale r.cosine + r.sine * b)
    else if j = first + 1 then some (b.scale r.cosine - Conj.conj r.sine * a)
    else none

/-- Rotate two rows from the left by the inverse, in the columns from `first` on. -/
def inverseOnRows (r : PlaneRotation) (first : Nat) (m : FloatMatrix) : FloatMatrix :=
  m.update fun i j =>
    let a := m.entry first j
    let b := m.entry (first + 1) j
    if j < first then none
    else if i = first then some (a.scale r.cosine + Conj.conj r.sine * b)
    else if i = first + 1 then some (b.scale r.cosine - r.sine * a)
    else none

end PlaneRotation

namespace SchurState

/-- Turn the block of side two at `start` triangular. -/
def splitBlock (state : SchurState) (start : Nat) : SchurState :=
  match PlaneRotation.ofBlock? state.form start with
  | none => state
  | some r =>
      let form := r.onCols start (start + 2) (r.inverseOnRows start state.form)
      { form := form.setEntry (start + 1) start 0
        basis := r.onCols start state.basis.rows state.basis }

/-- Work on the last active block until none is left, in at most `steps` steps. -/
def iterate (state : SchurState) (start stop : Nat) : Nat → Option SchurState
  | 0 => none
  | steps + 1 =>
      if stop = start then some state
      else if start + 2 ≤ stop then
        let state := doubleShift state start stop
        let (form, start, stop) := activeBlock state.form stop
        iterate { state with form := form } start stop steps
      else
        let state := splitBlock state start
        if stop ≤ 2 then some state
        else
          let (form, start, stop) := activeBlock state.form (stop - 2)
          iterate { state with form := form } start stop steps

end SchurState

/-- The number of steps after which the decomposition is given up. -/
def schurSteps : Nat := 10000

/-- The Schur decomposition of a square matrix.  Larger matrices are scaled by
their greatest entry while they are worked on, where the size of an entry is the sum
of the sizes of its parts. -/
def DenseMatrix.schur? (m : FloatMatrix) : Option SchurState :=
  let dim := m.rows
  if dim ≤ 1 then some ⟨.identity dim, m⟩
  else if dim = 2 then some (SchurState.splitBlock ⟨.identity 2, m⟩ 0)
  else
    let greatest := m.entries.foldl (fun top a => max top a.sizeSum) 0
    let scaled := DenseMatrix.ofFn dim dim fun i j => (m.entry i j).unscale greatest
    let state := SchurState.hessenberg scaled
    let (form, start, stop) := SchurState.activeBlock state.form (dim - 1)
    (SchurState.iterate { state with form := form } start stop schurSteps).map fun state =>
      { state with
        form := .ofFn dim dim fun i j => (state.form.entry i j).scale greatest }

end GateAlgebra
