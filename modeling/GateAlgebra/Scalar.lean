import GateAlgebra.Expression
/-!
Gate parameters.  A scalar is a number, or an expression that has no value yet.
Arithmetic on numbers is carried out at once; an expression becomes a number as
soon as a substitution leaves no symbol and its evaluation succeeds.
-/

namespace GateAlgebra

/-- A gate parameter. -/
inductive Scalar where
  | concrete (value : ComplexFloat)
  | symbolic (expression : Expression)
deriving Inhabited, BEq

namespace Scalar

def real (x : Float) : Scalar :=
  concrete (.ofReal x)

def named (name : String) : Scalar :=
  symbolic (.symbol name)

/-- The double nearest to π. -/
def piValue : Float := 3.141592653589793

def pi : Scalar :=
  real piValue

/-- The scalar of an expression: its value if it has no symbol and evaluates,
and otherwise the expression itself. -/
def ofExpression (e : Expression) : Scalar :=
  if e.isSymbolic then symbolic e
  else
    match e.eval with
    | some value => concrete value
    | none => symbolic e

def toExpression : Scalar → Expression
  | concrete value => .constant value
  | symbolic e => e

/-- Whether the scalar has no value yet. -/
def isSymbolic : Scalar → Bool
  | concrete _ => false
  | symbolic _ => true

/-- The number, if there is one. -/
def complex? : Scalar → Option ComplexFloat
  | concrete value => some value
  | symbolic _ => none

/-- The number as a real one, if its imaginary part is negligible. -/
def real? : Scalar → Option Float
  | concrete value => if value.isReal then some value.re else none
  | symbolic _ => none

/-- The symbols in order of occurrence, repetitions included. -/
def symbols : Scalar → List String
  | concrete _ => []
  | symbolic e => e.symbols

/-- Replace bound symbols and collapse to a number where that is possible. -/
def substitute (bindings : Bindings) : Scalar → Scalar
  | concrete value => concrete value
  | symbolic e => ofExpression (e.substitute bindings)

/-- Replace one symbol. -/
def bind (name : String) (x : Float) (s : Scalar) : Scalar :=
  s.substitute [(name, x)]

/-- Combine two scalars by a node of an expression.  Two numbers are combined
at once, unless the result has no value. -/
def combine (node : Expression → Expression → Expression) :
    Scalar → Scalar → Scalar
  | concrete a, concrete b => ofExpression (node (.constant a) (.constant b))
  | a, b => symbolic (node a.toExpression b.toExpression)

instance : Add Scalar := ⟨combine .add⟩

instance : Sub Scalar := ⟨combine .sub⟩

instance : Mul Scalar := ⟨combine .mul⟩

instance : Div Scalar := ⟨combine .div⟩

def neg : Scalar → Scalar
  | concrete value => concrete (-value)
  | symbolic e => symbolic (.neg e)

instance : Neg Scalar := ⟨neg⟩

/-- The text of the number or of the expression. -/
def text : Scalar → String
  | concrete value => value.text
  | symbolic e => e.text

@[simp] theorem isSymbolic_real (x : Float) : (real x).isSymbolic = false := rfl

@[simp] theorem symbols_real (x : Float) : (real x).symbols = [] := rfl

/-- A scalar made from an expression has exactly the symbols of the expression. -/
theorem symbols_ofExpression (e : Expression) :
    (ofExpression e).symbols = e.symbols := by
  unfold ofExpression
  split
  · rfl
  · rename_i h
    have hnil := (Expression.isSymbolic_eq_false_iff e).1 (by simpa using h)
    split
    · simp [symbols, hnil]
    · rfl

end Scalar

/-- Names without repetitions, in the order of their characters. -/
def sortedNames (names : List String) : List String :=
  names.eraseDups.mergeSort fun a b => decide (a ≤ b)

end GateAlgebra
