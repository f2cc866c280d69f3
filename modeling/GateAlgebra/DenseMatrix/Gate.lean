import GateAlgebra.CircuitError
import GateAlgebra.DenseMatrix.Basic
import GateAlgebra.Observable
/-!
The matrices of primitive gates and of pure operators.  They are written over
any real numbers with sines and cosines and any complex numbers above them.
-/

namespace GateAlgebra

/-- Real numbers `ρ` with what angles need, and complex numbers `α` made from
them. -/
structure Trigonometry (ρ α : Type) where
  /-- One half of a number. -/
  half : ρ → ρ
  cos : ρ → ρ
  sin : ρ → ρ
  /-- The angle π. -/
  pi : ρ
  /-- The square root of one half. -/
  invSqrtTwo : ρ
  /-- The complex number with the given parts. -/
  cartesian : ρ → ρ → α
  /-- The complex number with the given length and angle. -/
  polar : ρ → ρ → α

/-- The double nearest to the square root of one half. -/
def invSqrtTwo : Float := 0.7071067811865476

/-- Angles in doubles. -/
def Trigonometry.double : Trigonometry Float ComplexFloat where
  half x := x / 2
  cos := Float.cos
  sin := Float.sin
  pi := Scalar.piValue
  invSqrtTwo := GateAlgebra.invSqrtTwo
  cartesian re im := ⟨re, im⟩
  polar := ComplexFloat.ofPolar

namespace Trigonometry

variable {ρ α : Type} [Zero ρ] [One ρ] [Neg ρ] [Add ρ]
variable [Zero α] [One α] [Neg α]

def i (trig : Trigonometry ρ α) : α :=
  trig.cartesian 0 1

/-- The point of the unit circle at an angle. -/
def phase (trig : Trigonometry ρ α) (angle : ρ) : α :=
  trig.polar 1 angle

/-- The real number as a complex one. -/
def real (trig : Trigonometry ρ α) (x : ρ) : α :=
  trig.cartesian x 0

def pauliX : DenseMatrix α :=
  .ofRows [[0, 1], [1, 0]]

def pauliY (trig : Trigonometry ρ α) : DenseMatrix α :=
  .ofRows [[0, -trig.i], [trig.i, 0]]

def pauliZ : DenseMatrix α :=
  .ofRows [[1, 0], [0, -1]]

/-- The matrix of a rotation about X by twice the given angle. -/
def rotationX (trig : Trigonometry ρ α) (angle : ρ) : DenseMatrix α :=
  let c := trig.real (trig.cos angle)
  let s := trig.cartesian 0 (-trig.sin angle)
  .ofRows [[c, s], [s, c]]

/-- The matrix of a rotation about Y by twice the given angle. -/
def rotationY (trig : Trigonometry ρ α) (angle : ρ) : DenseMatrix α :=
  let c := trig.real (trig.cos angle)
  .ofRows [[c, trig.real (-trig.sin angle)], [trig.real (trig.sin angle), c]]

/-- The matrix of the general single-qubit gate; `angle` is half of its first
angle. -/
def general (trig : Trigonometry ρ α) (angle phi lambda : ρ) : DenseMatrix α :=
  let c := trig.cos angle
  let s := trig.sin angle
  .ofRows [
    [trig.real c, -trig.polar s lambda],
    [trig.polar s phi, trig.polar c (phi + lambda)]]

/-- The matrix with `c` on the diagonal, `outer` in the corners off it and `inner`
between them. -/
def crossed (c outer inner : α) : DenseMatrix α :=
  .ofRows [
    [c, 0, 0, outer],
    [0, c, inner, 0],
    [0, inner, c, 0],
    [outer, 0, 0, c]]

/-- The matrix that exchanges two qubits, with a factor on the exchanged states. -/
def exchange (factor : α) : DenseMatrix α :=
  .ofRows [[1, 0, 0, 0], [0, 0, factor, 0], [0, factor, 0, 0], [0, 0, 0, 1]]

/-- The matrix of a gate; `read` gives the angle of a parameter. -/
def gateMatrix {ε : Type} (trig : Trigonometry ρ α) (read : Scalar → Except ε ρ) :
    Gate → Except ε (DenseMatrix α)
  | .i => .ok (.identity 2)
  | .x => .ok pauliX
  | .y => .ok trig.pauliY
  | .z => .ok pauliZ
  | .h =>
      let h := trig.real trig.invSqrtTwo
      .ok (.ofRows [[h, h], [h, -h]])
  | .s => .ok (.ofRows [[1, 0], [0, trig.i]])
  | .t => .ok (.ofRows [[1, 0], [0, trig.phase (trig.half (trig.half trig.pi))]])
  | .sx =>
      let plus := trig.cartesian (trig.half 1) (trig.half 1)
      let minus := trig.cartesian (trig.half 1) (-trig.half 1)
      .ok (.ofRows [[plus, minus], [minus, plus]])
  | .rx angle => do return trig.rotationX (trig.half (← read angle))
  | .ry angle => do return trig.rotationY (trig.half (← read angle))
  | .rz angle => do
      let half := trig.half (← read angle)
      return .ofRows [[trig.phase (-half), 0], [0, trig.phase half]]
  | .p angle => do return .ofRows [[1, 0], [0, trig.phase (← read angle)]]
  | .u theta phi lambda => do
      let half := trig.half (← read theta)
      let phi ← read phi
      let lambda ← read lambda
      return trig.general half phi lambda
  | .swap => .ok (exchange 1)
  | .iswap => .ok (exchange trig.i)
  | .rxx angle => do
      let half := trig.half (← read angle)
      let s := trig.cartesian 0 (-trig.sin half)
      return crossed (trig.real (trig.cos half)) s s
  | .ryy angle => do
      let half := trig.half (← read angle)
      return crossed (trig.real (trig.cos half)) (trig.cartesian 0 (trig.sin half))
        (trig.cartesian 0 (-trig.sin half))
  | .rzz angle => do
      let half := trig.half (← read angle)
      let even := trig.phase (-half)
      let odd := trig.phase half
      return .ofRows [[even, 0, 0, 0], [0, odd, 0, 0], [0, 0, odd, 0], [0, 0, 0, even]]

/-- The matrix of a Pauli factor. -/
def pauliMatrix (trig : Trigonometry ρ α) : Pauli → DenseMatrix α
  | .i => .identity 2
  | .x => pauliX
  | .y => trig.pauliY
  | .z => pauliZ

/-- The matrix of a pure operator. -/
def observableMatrix [Mul α] (trig : Trigonometry ρ α) : Observable → DenseMatrix α
  | .projector0 => .ofRows [[1, 0], [0, 0]]
  | .projector1 => .ofRows [[0, 0], [0, 1]]
  | .sigmaPlus => .ofRows [[0, 1], [0, 0]]
  | .sigmaMinus => .ofRows [[0, 0], [1, 0]]
  | .pauliString factors => .tensorList (factors.map trig.pauliMatrix)

end Trigonometry

/-- The angle of a gate parameter.  An expression has none yet, and a number that
is not real makes the gate not unitary. -/
def Gate.angle (g : Gate) : Scalar → Except CircuitError Float
  | .symbolic e => .error (.unbound e.text)
  | .concrete value =>
      if value.isReal then .ok value.re else .error (.notUnitary g.name)

/-- The matrix of a gate in doubles. -/
def Gate.matrix (g : Gate) : Except CircuitError (DenseMatrix ComplexFloat) :=
  Trigonometry.double.gateMatrix g.angle g

/-- The matrix of a pure operator in doubles. -/
def Observable.matrix (o : Observable) : DenseMatrix ComplexFloat :=
  Trigonometry.double.observableMatrix o

end GateAlgebra
