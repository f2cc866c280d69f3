import GateAlgebra.ComplexFloat
/-!
Expressions over complex numbers and named symbols: evaluation, substitution of
numbers for symbols, and text.
-/

namespace GateAlgebra

/-- Numbers for symbols.  The first entry of a name counts. -/
abbrev Bindings := List (String × Float)

/-- An arithmetic expression. -/
inductive Expression where
  | constant (value : ComplexFloat)
  | symbol (name : String)
  | neg (operand : Expression)
  | add (left right : Expression)
  | sub (left right : Expression)
  | mul (left right : Expression)
  | div (left right : Expression)
deriving Inhabited, BEq

namespace Expression

/-- The symbols in order of occurrence, repetitions included. -/
def symbols : Expression → List String
  | constant _ => []
  | symbol name => [name]
  | neg operand => operand.symbols
  | add left right | sub left right | mul left right | div left right =>
      left.symbols ++ right.symbols

/-- Whether a symbol occurs. -/
def isSymbolic : Expression → Bool
  | constant _ => false
  | symbol _ => true
  | neg operand => operand.isSymbolic
  | add left right | sub left right | mul left right | div left right =>
      left.isSymbolic || right.isSymbolic

theorem isSymbolic_eq_false_iff (e : Expression) :
    e.isSymbolic = false ↔ e.symbols = [] := by
  induction e with
  | constant _ => simp [isSymbolic, symbols]
  | symbol _ => simp [isSymbolic, symbols]
  | neg _ ih => simpa [isSymbolic, symbols] using ih
  | add _ _ ihl ihr | sub _ _ ihl ihr | mul _ _ ihl ihr | div _ _ ihl ihr =>
      simp [isSymbolic, symbols, ihl, ihr]

/-- The value, if no symbol is left and no divisor has length zero. -/
def eval : Expression → Option ComplexFloat
  | constant value => some value
  | symbol _ => none
  | neg operand => operand.eval.map fun a => -a
  | add left right => do return (← left.eval) + (← right.eval)
  | sub left right => do return (← left.eval) - (← right.eval)
  | mul left right => do return (← left.eval) * (← right.eval)
  | div left right => do
      let divisor ← right.eval
      if divisor.norm == 0 then none
      else return (← left.eval) / divisor

/-- Replace every bound symbol by its number. -/
def substitute (bindings : Bindings) : Expression → Expression
  | constant value => constant value
  | symbol name =>
      match bindings.lookup name with
      | some x => constant (.ofReal x)
      | none => symbol name
  | neg operand => neg (operand.substitute bindings)
  | add left right => add (left.substitute bindings) (right.substitute bindings)
  | sub left right => sub (left.substitute bindings) (right.substitute bindings)
  | mul left right => mul (left.substitute bindings) (right.substitute bindings)
  | div left right => div (left.substitute bindings) (right.substitute bindings)

/-- Binary operations stand in parentheses with blanks around the sign, and the
operand of a minus stands in parentheses of its own. -/
def text : Expression → String
  | constant value => value.text
  | symbol name => name
  | neg operand => "-(" ++ operand.text ++ ")"
  | add left right => "(" ++ left.text ++ " + " ++ right.text ++ ")"
  | sub left right => "(" ++ left.text ++ " - " ++ right.text ++ ")"
  | mul left right => "(" ++ left.text ++ " * " ++ right.text ++ ")"
  | div left right => "(" ++ left.text ++ " / " ++ right.text ++ ")"

end Expression

end GateAlgebra
