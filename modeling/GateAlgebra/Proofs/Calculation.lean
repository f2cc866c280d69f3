import GateAlgebra.Proofs.Substitution
/-!
Calculations with parameters.  Arithmetic and the binding of symbols may come in any order:
the parameter that results has a number exactly if the whole calculation has one when every
symbol stands for the number it was first bound to.
-/

namespace GateAlgebra

/-- The arithmetic operations on two operands. -/
inductive Arithmetic where
  | add | sub | mul | div
deriving DecidableEq, Repr

namespace Arithmetic

/-- The expression with the operation on top. -/
def node : Arithmetic → Expression → Expression → Expression
  | add => .add
  | sub => .sub
  | mul => .mul
  | div => .div

/-- The operation on parameters. -/
def onScalars : Arithmetic → Scalar → Scalar → Scalar
  | add, a, b => a + b
  | sub, a, b => a - b
  | mul, a, b => a * b
  | div, a, b => a / b

/-- The operation on numbers.  There is no division by a number of length zero. -/
def onNumbers : Arithmetic → ComplexFloat → ComplexFloat → Option ComplexFloat
  | add, a, b => some (a + b)
  | sub, a, b => some (a - b)
  | mul, a, b => some (a * b)
  | div, a, b => if b.norm == 0 then none else some (a / b)

variable (op : Arithmetic)

theorem onScalars_eq_combine (a b : Scalar) : op.onScalars a b = Scalar.combine op.node a b := by
  cases op <;> rfl

variable (left right : Expression)

theorem eval_node :
    (op.node left right).eval =
      left.eval.bind fun a => right.eval.bind fun b => op.onNumbers a b := by
  cases op with
  | add | sub | mul => rfl
  | div =>
      -- The divisor is evaluated first; either order fails if one operand does.
      change (right.eval.bind fun b => if b.norm == 0 then none else
        left.eval.bind fun a => some (a / b)) = _
      cases left.eval with
      | some a => rfl
      | none =>
          cases right.eval with
          | none => rfl
          | some b => exact ite_self none

theorem symbols_node : (op.node left right).symbols = left.symbols ++ right.symbols := by
  cases op <;> rfl

theorem substitute_node (bindings : Bindings) :
    (op.node left right).substitute bindings =
      op.node (left.substitute bindings) (right.substitute bindings) := by
  cases op <;> rfl

end Arithmetic

/-- How a parameter is computed: from numbers and symbols by arithmetic, with symbols bound
at any point. -/
inductive Calculation where
  | number (value : ComplexFloat)
  | symbol (name : String)
  | neg (operand : Calculation)
  | binary (op : Arithmetic) (left right : Calculation)
  | substitute (bindings : Bindings) (operand : Calculation)
  | bind (name : String) (x : Float) (operand : Calculation)

namespace Calculation

/-- The parameter that is computed. -/
def result : Calculation → Scalar
  | number value => .concrete value
  | symbol name => .named name
  | neg operand => -operand.result
  | binary op left right => op.onScalars left.result right.result
  | substitute bindings operand => operand.result.substitute bindings
  | bind name x operand => operand.result.bind name x

/-- The value of the arithmetic alone.  A symbol stands for the number it is bound to first:
by the innermost substitution around it, and by `later` if there is none. -/
def value? (later : Bindings) : Calculation → Option ComplexFloat
  | number value => some value
  | symbol name => (later.lookup name).map .ofReal
  | neg operand => (operand.value? later).map fun a => -a
  | binary op left right => do op.onNumbers (← left.value? later) (← right.value? later)
  | substitute bindings operand => operand.value? (bindings ++ later)
  | bind name x operand => operand.value? ((name, x) :: later)

/-- The symbols with an occurrence that is never bound, in order of occurrence. -/
def unbound (later : Bindings) : Calculation → List String
  | number _ => []
  | symbol name => if later.leaves name then [name] else []
  | neg operand => operand.unbound later
  | binary _ left right => left.unbound later ++ right.unbound later
  | substitute bindings operand => operand.unbound (bindings ++ later)
  | bind name x operand => operand.unbound ((name, x) :: later)

/-- The same arithmetic with every symbol bound where it occurs. -/
def bindEarly (later : Bindings) : Calculation → Calculation
  | number value => number value
  | symbol name => substitute later (symbol name)
  | neg operand => neg (operand.bindEarly later)
  | binary op left right => binary op (left.bindEarly later) (right.bindEarly later)
  | substitute bindings operand => operand.bindEarly (bindings ++ later)
  | bind name x operand => operand.bindEarly ((name, x) :: later)

end Calculation

namespace Expression

/-- No later substitution tells the two apart: they keep the same value and symbols. -/
def Equivalent (a b : Expression) : Prop :=
  ∀ later, (a.substitute later).eval = (b.substitute later).eval ∧
    (a.substitute later).symbols = (b.substitute later).symbols

theorem equivalent_refl (e : Expression) : e.Equivalent e :=
  fun _ => ⟨rfl, rfl⟩

end Expression

namespace Scalar

open Expression

/-- A substitution does not see whether an expression has become a number. -/
theorem toExpression_ofExpression (e : Expression) :
    (ofExpression e).toExpression.Equivalent e := by
  rcases ofExpression_cases e with ⟨value, heval, hscalar⟩ | ⟨-, hscalar⟩
  · intro later
    have hclosed := symbols_of_eval heval
    rw [hscalar, substitute_of_symbols_eq_nil later hclosed]
    exact ⟨heval.symm, hclosed.symm⟩
  · rw [hscalar]
    exact equivalent_refl e

theorem toExpression_combine (op : Arithmetic) (a b : Scalar) :
    (combine op.node a b).toExpression.Equivalent (op.node a.toExpression b.toExpression) := by
  cases a with
  | symbolic e => exact equivalent_refl _
  | concrete x =>
      cases b with
      | symbolic e => exact equivalent_refl _
      | concrete y => exact toExpression_ofExpression _

theorem toExpression_neg (s : Scalar) :
    (-s).toExpression.Equivalent (.neg s.toExpression) := by
  cases s with
  | concrete value => exact fun later => ⟨rfl, rfl⟩
  | symbolic e => exact equivalent_refl _

theorem toExpression_substitute (s : Scalar) (bindings : Bindings) :
    (s.substitute bindings).toExpression.Equivalent (s.toExpression.substitute bindings) := by
  cases s with
  | concrete value => exact equivalent_refl _
  | symbolic e => exact toExpression_ofExpression _

/-- The parameter is a number if it has a value. -/
def Collapsed (s : Scalar) : Prop :=
  ∀ e, s = symbolic e → e.eval = none

theorem collapsed_ofExpression (e : Expression) : (ofExpression e).Collapsed := by
  intro e' he'
  rcases ofExpression_cases e with ⟨value, -, hscalar⟩ | ⟨heval, hscalar⟩
  · rw [hscalar] at he'
    cases he'
  · rw [hscalar] at he'
    exact symbolic.inj he' ▸ heval

variable {s a b : Scalar}

theorem Collapsed.eval_eq_none (h : s.Collapsed) (hs : s.complex? = none) :
    s.toExpression.eval = none := by
  cases s with
  | concrete value => cases hs
  | symbolic e => exact h e rfl

/-- Arithmetic with an operand that has no value has none. -/
theorem Collapsed.combine (ha : a.Collapsed) (hb : b.Collapsed) (op : Arithmetic) :
    (combine op.node a b).Collapsed := by
  have hnode : a.complex? = none ∨ b.complex? = none →
      (op.node a.toExpression b.toExpression).eval = none := by
    intro h
    rw [op.eval_node]
    rcases h with h | h
    · rw [ha.eval_eq_none h]
      rfl
    · rw [hb.eval_eq_none h]
      cases a.toExpression.eval <;> rfl
  cases a with
  | symbolic e => exact fun e' he' => symbolic.inj he' ▸ hnode (Or.inl rfl)
  | concrete x =>
      cases b with
      | symbolic e => exact fun e' he' => symbolic.inj he' ▸ hnode (Or.inr rfl)
      | concrete y => exact collapsed_ofExpression _

theorem Collapsed.neg (h : s.Collapsed) : (-s).Collapsed := by
  cases s with
  | concrete value => exact nofun
  | symbolic e =>
      rintro _ ⟨⟩
      exact Option.map_eq_none_iff.2 (h e rfl)

theorem Collapsed.substitute (h : s.Collapsed) (bindings : Bindings) :
    (s.substitute bindings).Collapsed := by
  cases s with
  | concrete value => exact h
  | symbolic e => exact collapsed_ofExpression _

end Scalar

namespace Calculation

variable (t : Calculation)

theorem collapsed_result : t.result.Collapsed := by
  induction t with
  | number value => exact nofun
  | symbol name =>
      rintro _ ⟨⟩
      rfl
  | neg operand ih => exact ih.neg
  | binary op left right ihl ihr =>
      rw [result, op.onScalars_eq_combine]
      exact ihl.combine ihr op
  | substitute bindings operand ih => exact ih.substitute bindings
  | bind name x operand ih => exact ih.substitute [(name, x)]

/-- Whatever is bound after a calculation, its expression has the value of the arithmetic and
the symbols that are never bound.  This is about all later bindings, since a substitution adds
its own to them. -/
theorem substitute_toExpression_result (later : Bindings) :
    (t.result.toExpression.substitute later).eval = t.value? later ∧
      (t.result.toExpression.substitute later).symbols = t.unbound later := by
  induction t generalizing later with
  | number value => exact ⟨rfl, rfl⟩
  | symbol name =>
      cases hbound : later.lookup name <;>
        simp [result, Scalar.named, Scalar.toExpression, Expression.substitute, Expression.eval,
          Expression.symbols, value?, unbound, Bindings.leaves, hbound]
  | neg operand ih =>
      obtain ⟨hvalue, hsymbols⟩ := Scalar.toExpression_neg operand.result later
      rw [result, hvalue, hsymbols, value?, unbound, ← (ih later).1, ← (ih later).2]
      exact ⟨rfl, rfl⟩
  | binary op left right ihl ihr =>
      obtain ⟨hvalue, hsymbols⟩ := Scalar.toExpression_combine op left.result right.result later
      rw [result, op.onScalars_eq_combine, hvalue, hsymbols, op.substitute_node, op.eval_node,
        op.symbols_node, (ihl later).1, (ihl later).2, (ihr later).1, (ihr later).2]
      exact ⟨rfl, rfl⟩
  | substitute bindings operand ih =>
      obtain ⟨hvalue, hsymbols⟩ :=
        Scalar.toExpression_substitute operand.result bindings later
      rw [result, hvalue, hsymbols, Expression.substitute_substitute]
      exact ih (bindings ++ later)
  | bind name x operand ih =>
      obtain ⟨hvalue, hsymbols⟩ :=
        Scalar.toExpression_substitute operand.result [(name, x)] later
      rw [result, Scalar.bind, hvalue, hsymbols, Expression.substitute_substitute]
      exact ih ((name, x) :: later)

theorem eval_result : t.result.toExpression.eval = t.value? [] := by
  rw [← (t.substitute_toExpression_result []).1, Expression.substitute_nil]

theorem symbols_result : t.result.symbols = t.unbound [] := by
  rw [← (t.substitute_toExpression_result []).2, Expression.substitute_nil]
  cases t.result <;> rfl

theorem complex?_result : t.result.complex? = t.value? [] := by
  rw [← t.eval_result]
  cases hresult : t.result with
  | concrete value => rfl
  | symbolic e => exact (t.collapsed_result e hresult).symm

theorem unbound_of_value? {value : ComplexFloat} (h : t.value? [] = some value) :
    t.unbound [] = [] := by
  rw [← t.complex?_result] at h
  rw [← t.symbols_result]
  cases hresult : t.result with
  | concrete value => rfl
  | symbolic e =>
      rw [hresult] at h
      cases h

/-- Binding early changes neither the arithmetic nor what a symbol is bound to. -/
theorem value?_bindEarly (later rest : Bindings) :
    (t.bindEarly later).value? rest = t.value? (later ++ rest) ∧
      (t.bindEarly later).unbound rest = t.unbound (later ++ rest) := by
  induction t generalizing later with
  | number value => exact ⟨rfl, rfl⟩
  | symbol name => exact ⟨rfl, rfl⟩
  | neg operand ih =>
      rw [bindEarly, value?, unbound, (ih later).1, (ih later).2]
      exact ⟨rfl, rfl⟩
  | binary op left right ihl ihr =>
      rw [bindEarly, value?, unbound, (ihl later).1, (ihl later).2, (ihr later).1,
        (ihr later).2]
      exact ⟨rfl, rfl⟩
  | substitute bindings operand ih =>
      rw [bindEarly, value?, unbound, ← List.append_assoc]
      exact ih (bindings ++ later)
  | bind name x operand ih => exact ih ((name, x) :: later)

end Calculation

/-- A calculation gives a number exactly if no symbol is left unbound and the arithmetic on
the numbers that symbols are first bound to has a value, and it gives that value.  Otherwise
it gives an expression without a value, in the symbols that are left.  So it does not matter
whether symbols are bound before or after arithmetic. -/
theorem early_and_late_binding_agree (t : Calculation) :
    (∀ value, t.result = .concrete value ↔ t.unbound [] = [] ∧ t.value? [] = some value) ∧
    ((∃ value, t.result = .concrete value) ∨
      ∃ e, t.result = .symbolic e ∧ e.eval = none ∧ e.symbols = t.unbound []) ∧
    (t.bindEarly []).result.complex? = t.result.complex? ∧
    (t.bindEarly []).result.symbols = t.result.symbols := by
  obtain ⟨hvalue, hunbound⟩ := t.value?_bindEarly [] []
  refine ⟨fun value => ⟨fun h => ?_, fun h => ?_⟩, ?_, ?_, ?_⟩
  · have hvalue : t.value? [] = some value := by
      rw [← t.complex?_result, h]
      rfl
    exact ⟨t.unbound_of_value? hvalue, hvalue⟩
  · rw [← t.complex?_result] at h
    cases hresult : t.result with
    | concrete other =>
        rw [hresult] at h
        exact congrArg Scalar.concrete (Option.some.inj h.2)
    | symbolic e =>
        rw [hresult] at h
        cases h.2
  · cases hresult : t.result with
    | concrete value => exact Or.inl ⟨value, rfl⟩
    | symbolic e =>
        refine Or.inr ⟨e, rfl, t.collapsed_result e hresult, ?_⟩
        rw [← t.symbols_result, hresult]
        rfl
  · rw [Calculation.complex?_result, t.complex?_result, hvalue, List.append_nil]
  · rw [Calculation.symbols_result, t.symbols_result, hunbound, List.append_nil]

end GateAlgebra
