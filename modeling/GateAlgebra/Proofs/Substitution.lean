import GateAlgebra.Circuit.Basic
import GateAlgebra.Proofs.Simplified
/-!
Binding symbols in several steps.  Two substitutions in a row are one substitution in which
the first has precedence, for parameters, operations and circuits alike.  What is left free
are the symbols that no step binds.
-/

namespace GateAlgebra

/-- Whether a symbol is left as it is. -/
def Bindings.leaves (bindings : Bindings) (name : String) : Bool :=
  (bindings.lookup name).isNone

namespace Expression

variable (e : Expression) (bindings first second : Bindings)

theorem substitute_nil : e.substitute [] = e := by
  induction e with
  | constant value => rfl
  | symbol name => rfl
  | neg operand ih => simp only [substitute, ih]
  | add _ _ ihl ihr | sub _ _ ihl ihr | mul _ _ ihl ihr | div _ _ ihl ihr =>
      simp only [substitute, ihl, ihr]

theorem substitute_substitute :
    (e.substitute first).substitute second = e.substitute (first ++ second) := by
  induction e with
  | constant value => rfl
  | symbol name =>
      simp only [substitute, List.lookup_append]
      cases first.lookup name with
      | some x => rfl
      | none => rfl
  | neg operand ih => simp only [substitute, ih]
  | add _ _ ihl ihr | sub _ _ ihl ihr | mul _ _ ihl ihr | div _ _ ihl ihr =>
      simp only [substitute, ihl, ihr]

theorem symbols_substitute :
    (e.substitute bindings).symbols = e.symbols.filter bindings.leaves := by
  induction e with
  | constant value => rfl
  | symbol name =>
      cases hbound : bindings.lookup name <;> simp [substitute, symbols, Bindings.leaves, hbound]
  | neg operand ih => exact ih
  | add _ _ ihl ihr | sub _ _ ihl ihr | mul _ _ ihl ihr | div _ _ ihl ihr =>
      simp only [substitute, symbols, ihl, ihr, List.filter_append]

variable {e}

/-- Without symbols there is nothing to replace. -/
theorem substitute_of_symbols_eq_nil (h : e.symbols = []) : e.substitute bindings = e := by
  induction e with
  | constant value => rfl
  | symbol name => cases h
  | neg operand ih => rw [substitute, ih h]
  | add _ _ ihl ihr | sub _ _ ihl ihr | mul _ _ ihl ihr | div _ _ ihl ihr =>
      obtain ⟨hl, hr⟩ := List.append_eq_nil_iff.1 h
      rw [substitute, ihl hl, ihr hr]

/-- An expression that has a value has no symbols. -/
theorem symbols_of_eval {value : ComplexFloat} (h : e.eval = some value) : e.symbols = [] := by
  induction e generalizing value with
  | constant value => rfl
  | symbol name => cases h
  | neg operand ih =>
      obtain ⟨a, ha, -⟩ := Option.map_eq_some_iff.1 h
      exact ih ha
  | add _ _ ihl ihr | sub _ _ ihl ihr | mul _ _ ihl ihr =>
      obtain ⟨a, ha, h⟩ := Option.bind_eq_some_iff.1 h
      obtain ⟨b, hb, -⟩ := Option.bind_eq_some_iff.1 h
      exact List.append_eq_nil_iff.2 ⟨ihl ha, ihr hb⟩
  | div _ _ ihl ihr =>
      obtain ⟨b, hb, h⟩ := Option.bind_eq_some_iff.1 h
      split at h
      · cases h
      · obtain ⟨a, ha, -⟩ := Option.bind_eq_some_iff.1 h
        exact List.append_eq_nil_iff.2 ⟨ihl ha, ihr hb⟩

end Expression

namespace Scalar

/-- The two cases of making a scalar from an expression. -/
theorem ofExpression_cases (e : Expression) :
    (∃ value, e.eval = some value ∧ ofExpression e = concrete value) ∨
      e.eval = none ∧ ofExpression e = symbolic e := by
  unfold ofExpression
  cases heval : e.eval with
  | some value =>
      have hclosed : e.isSymbolic = false :=
        (Expression.isSymbolic_eq_false_iff e).2 (Expression.symbols_of_eval heval)
      exact Or.inl ⟨value, rfl, by rw [hclosed]; rfl⟩
  | none => exact Or.inr ⟨rfl, by split <;> rfl⟩

/-- An expression that has become a number would not have changed any more. -/
theorem substitute_ofExpression (e : Expression) (bindings : Bindings) :
    (ofExpression e).substitute bindings = ofExpression (e.substitute bindings) := by
  rcases ofExpression_cases e with ⟨value, heval, hscalar⟩ | ⟨-, hscalar⟩
  · have hsame : e.substitute bindings = e :=
      Expression.substitute_of_symbols_eq_nil bindings (Expression.symbols_of_eval heval)
    rw [hsame, hscalar]
    rfl
  · rw [hscalar]
    rfl

theorem substitute_substitute (s : Scalar) (first second : Bindings) :
    (s.substitute first).substitute second = s.substitute (first ++ second) := by
  cases s with
  | concrete value => rfl
  | symbolic e =>
      change (ofExpression (e.substitute first)).substitute second = _
      rw [substitute_ofExpression, Expression.substitute_substitute]
      rfl

theorem symbols_substitute (s : Scalar) (bindings : Bindings) :
    (s.substitute bindings).symbols = s.symbols.filter bindings.leaves := by
  cases s with
  | concrete value => rfl
  | symbolic e => exact (symbols_ofExpression _).trans (e.symbols_substitute bindings)

end Scalar

section Leaves

variable (first second bindings : Bindings)

theorem Gate.substitute_substitute (g : Gate) :
    (g.substitute first).substitute second = g.substitute (first ++ second) := by
  cases g <;> simp only [Gate.substitute, Gate.mapParameters, Scalar.substitute_substitute]

theorem CustomGate.substitute_substitute (g : CustomGate) :
    (g.substitute first).substitute second = g.substitute (first ++ second) := by
  have hparams : (g.params.map (Scalar.substitute first)).map (Scalar.substitute second) =
      g.params.map (Scalar.substitute (first ++ second)) :=
    List.map_map.trans (List.map_congr_left fun s _ => s.substitute_substitute first second)
  exact congrArg g.withParams hparams

theorem Channel.make_eq_ok_iff {noise : Noise} {parameter : Scalar} {c : Channel} :
    Channel.make noise parameter = .ok c ↔ c = ⟨noise, parameter⟩ ∧ c.check = .ok () := by
  simp only [Channel.make, bind_eq_ok_iff, pure, Except.pure, Except.ok.injEq]
  constructor
  · rintro ⟨⟨⟩, hcheck, rfl⟩
    exact ⟨rfl, hcheck⟩
  · rintro ⟨rfl, hcheck⟩
    exact ⟨(), hcheck, rfl⟩

/-- A parameter that has become a number does not change any more, and an expression is in no
range yet.  So the check in between refuses nothing that the last one accepts. -/
theorem Channel.check_of_substitute {noise : Noise} {parameter : Scalar}
    (h : Channel.check ⟨noise, parameter.substitute bindings⟩ = .ok ()) :
    Channel.check ⟨noise, parameter⟩ = .ok () := by
  cases parameter with
  | concrete value => exact h
  | symbolic e => rfl

theorem Channel.substitute_substitute (c d : Channel) :
    c.substitute first >>= (·.substitute second) = .ok d ↔
      c.substitute (first ++ second) = .ok d := by
  simp only [Channel.substitute, bind_eq_ok_iff, Channel.make_eq_ok_iff]
  constructor
  · rintro ⟨_, ⟨rfl, -⟩, rfl, hcheck⟩
    rw [Scalar.substitute_substitute] at hcheck ⊢
    exact ⟨rfl, hcheck⟩
  · rintro ⟨rfl, hcheck⟩
    rw [← Scalar.substitute_substitute] at hcheck ⊢
    exact ⟨_, ⟨rfl, Channel.check_of_substitute second hcheck⟩, rfl, hcheck⟩

end Leaves

namespace Operation

variable {first second bindings : Bindings}

/-- A node around something composes if what is inside does. -/
theorem substitute_substitute_node {α : Type} {node : α → Operation}
    {substitute : Bindings → α → Except CircuitError α}
    (hnode : ∀ bindings a, (node a).substitute bindings = node <$> substitute bindings a) {a : α}
    (ha : ∀ a', substitute first a >>= substitute second = .ok a' ↔
      substitute (first ++ second) a = .ok a') (op' : Operation) :
    (node a).substitute first >>= (·.substitute second) = .ok op' ↔
      (node a).substitute (first ++ second) = .ok op' := by
  simp only [hnode, bind_eq_ok_iff, map_eq_ok_iff]
  constructor
  · rintro ⟨_, ⟨a₁, hfirst, rfl⟩, h⟩
    obtain ⟨a₂, hsecond, rfl⟩ := map_eq_ok_iff.1 (hnode second a₁ ▸ h)
    exact ⟨a₂, (ha a₂).1 (bind_eq_ok_iff.2 ⟨a₁, hfirst, hsecond⟩), rfl⟩
  · rintro ⟨a₂, hboth, rfl⟩
    obtain ⟨a₁, hfirst, hsecond⟩ := bind_eq_ok_iff.1 ((ha a₂).2 hboth)
    exact ⟨node a₁, ⟨a₁, hfirst, rfl⟩, hnode second a₁ ▸ map_eq_ok_iff.2 ⟨a₂, hsecond, rfl⟩⟩

theorem substitute_substitute (op op' : Operation) :
    op.substitute first >>= (·.substitute second) = .ok op' ↔
      op.substitute (first ++ second) = .ok op' := by
  induction op generalizing op' with
  | gate g =>
      change Except.ok (gate _) = .ok op' ↔ Except.ok (gate _) = .ok op'
      rw [g.substitute_substitute]
  | custom g =>
      change Except.ok (custom _) = .ok op' ↔ Except.ok (custom _) = .ok op'
      rw [g.substitute_substitute]
  | controlled n w ih =>
      exact substitute_substitute_node (fun bindings a => rfl) ih op'
  | powered e w ih => exact substitute_substitute_node (fun bindings a => rfl) ih op'
  | inverted w ih => exact substitute_substitute_node (fun bindings a => rfl) ih op'
  | repeated n w ih => exact substitute_substitute_node (fun bindings a => rfl) ih op'
  | channel c =>
      exact substitute_substitute_node (fun bindings a => rfl)
        (c.substitute_substitute first second) op'
  | measure | reset | barrier | observable | expectation => exact Iff.rfl

/-- The parameters are bound one by one. -/
theorem parameters_substitute {op op' : Operation} (h : op.substitute bindings = .ok op') :
    op'.parameters = op.parameters.map (Scalar.substitute bindings) := by
  induction op generalizing op' with
  | gate g =>
      obtain rfl := Except.ok.inj h
      exact g.parameters_mapParameters _
  | custom g =>
      obtain rfl := Except.ok.inj h
      rfl
  | channel c =>
      obtain ⟨c', hc, h⟩ := bind_eq_ok_iff.1 h
      obtain rfl := Except.ok.inj h
      obtain ⟨rfl, -⟩ := Channel.make_eq_ok_iff.1 hc
      rfl
  | controlled n w ih | powered e w ih | inverted w ih | repeated n w ih =>
      obtain ⟨w', hw, h⟩ := bind_eq_ok_iff.1 h
      obtain rfl := Except.ok.inj h
      have hparameters := ih hw
      exact hparameters
  | measure | reset | barrier | observable | expectation =>
      obtain rfl := Except.ok.inj h
      rfl

end Operation

section Circuit

variable (first second bindings : Bindings)

theorem Instruction.substitute_substitute (inst inst' : Instruction) :
    inst.substitute first >>= (·.substitute second) = .ok inst' ↔
      inst.substitute (first ++ second) = .ok inst' := by
  have hop (op' : Operation) :
      inst.operation.substitute first >>= (·.substitute second) = .ok op' ↔
        inst.operation.substitute (first ++ second) = .ok op' :=
    inst.operation.substitute_substitute op'
  simp only [Instruction.substitute, bind_eq_ok_iff, pure, Except.pure, Except.ok.injEq] at hop ⊢
  constructor
  · rintro ⟨_, ⟨op, hfirst, rfl⟩, op', hsecond, rfl⟩
    exact ⟨op', (hop op').1 ⟨op, hfirst, hsecond⟩, rfl⟩
  · rintro ⟨op', hboth, rfl⟩
    obtain ⟨op, hfirst, hsecond⟩ := (hop op').2 hboth
    exact ⟨_, ⟨op, hfirst, rfl⟩, op', hsecond, rfl⟩

theorem Circuit.substitute_eq_ok_iff {c d : Circuit} :
    c.substitute bindings = .ok d ↔
      c.instructions.mapM (Instruction.substitute bindings) = .ok d.instructions ∧
        d.name = c.name := by
  simp only [Circuit.substitute, bind_eq_ok_iff, pure, Except.pure, Except.ok.injEq]
  constructor
  · rintro ⟨list, hlist, rfl⟩
    exact ⟨hlist, rfl⟩
  · rintro ⟨hlist, hname⟩
    exact ⟨d.instructions, hlist, hname ▸ rfl⟩

theorem Circuit.substitute_substitute (c d : Circuit) :
    c.substitute first >>= (·.substitute second) = .ok d ↔
      c.substitute (first ++ second) = .ok d := by
  have hlists := mapM_mapM_eq_ok_iff (Instruction.substitute_substitute first second)
    c.instructions d.instructions
  rw [bind_eq_ok_iff] at hlists ⊢
  simp only [Circuit.substitute_eq_ok_iff]
  constructor
  · rintro ⟨middle, ⟨hfirst, hname⟩, hsecond, hname'⟩
    exact ⟨hlists.1 ⟨_, hfirst, hsecond⟩, hname'.trans hname⟩
  · rintro ⟨hboth, hname⟩
    obtain ⟨list, hfirst, hsecond⟩ := hlists.2 hboth
    exact ⟨⟨c.name, list⟩, ⟨hfirst, rfl⟩, hsecond, hname⟩

/-- The same targets under the same modifiers, with their counts and exponents, around a leaf of
the same kind. -/
structure Instruction.SameShape (inst inst' : Instruction) : Prop where
  qubits : inst'.qubits = inst.qubits
  bits : inst'.bits = inst.bits
  zvars : inst'.zvars = inst.zvars
  form : Operation.SameForm inst.operation inst'.operation

theorem Instruction.sameShape_of_substitute {inst inst' : Instruction}
    (h : inst.substitute bindings = .ok inst') : inst.SameShape inst' := by
  obtain ⟨op, hop, hinst⟩ := bind_eq_ok_iff.1 h
  obtain rfl := Except.ok.inj hinst
  exact ⟨rfl, rfl, rfl, Operation.sameForm_of_substitute hop⟩

theorem Circuit.parameters_substitute {c d : Circuit} (h : c.substitute bindings = .ok d) :
    d.parameters = c.parameters.map (Scalar.substitute bindings) := by
  have hlists := mapM_eq_ok_iff.1 ((Circuit.substitute_eq_ok_iff bindings).1 h).1
  rw [Circuit.parameters, Circuit.parameters, List.map_flatMap]
  generalize c.instructions = before at hlists ⊢
  generalize d.instructions = after at hlists ⊢
  induction hlists with
  | nil => rfl
  | cons hinst _ ih =>
      obtain ⟨op, hop, hinst⟩ := bind_eq_ok_iff.1 hinst
      obtain rfl := Except.ok.inj hinst
      rw [List.flatMap_cons, List.flatMap_cons, ih, Operation.parameters_substitute hop]

theorem mem_sortedNames {names : List String} {name : String} :
    name ∈ sortedNames names ↔ name ∈ names := by
  rw [sortedNames, List.mem_mergeSort, List.mem_eraseDups]

/-- A symbol of a circuit occurs in one of its parameters. -/
theorem Circuit.mem_symbols_iff {c : Circuit} {name : String} :
    name ∈ c.symbols ↔ ∃ s ∈ c.parameters, name ∈ s.symbols := by
  rw [Circuit.symbols, mem_sortedNames, List.mem_flatMap]

theorem Circuit.mem_symbols_substitute {c d : Circuit} (h : c.substitute bindings = .ok d)
    (name : String) : name ∈ d.symbols ↔ name ∈ c.symbols ∧ bindings.lookup name = none := by
  have hsymbols : ∀ s : Scalar, name ∈ (s.substitute bindings).symbols ↔
      name ∈ s.symbols ∧ bindings.lookup name = none := by
    intro s
    rw [s.symbols_substitute, List.mem_filter, Bindings.leaves, Option.isNone_iff_eq_none]
  rw [Circuit.mem_symbols_iff, Circuit.mem_symbols_iff, Circuit.parameters_substitute bindings h]
  constructor
  · rintro ⟨_, hmem, hname⟩
    obtain ⟨s, hs, rfl⟩ := List.mem_map.1 hmem
    obtain ⟨hname, hfree⟩ := (hsymbols s).1 hname
    exact ⟨⟨s, hs, hname⟩, hfree⟩
  · rintro ⟨⟨s, hs, hname⟩, hfree⟩
    exact ⟨_, List.mem_map_of_mem hs, (hsymbols s).2 ⟨hname, hfree⟩⟩

end Circuit

/-- Two substitutions in a row succeed exactly if the one does in which the first has
precedence, and give the same circuit.  A substitution leaves the symbols free that it does not
bind, and name, length, targets, modifiers and exponents as they are. -/
theorem substitution_composes (c : Circuit) (first second : Bindings) :
    (∀ d, c.substitute first >>= (·.substitute second) = .ok d ↔
      c.substitute (first ++ second) = .ok d) ∧
    ∀ d, c.substitute first = .ok d →
      (∀ name, name ∈ d.symbols ↔ name ∈ c.symbols ∧ first.lookup name = none) ∧
      d.name = c.name ∧ d.length = c.length ∧
      List.Forall₂ Instruction.SameShape c.instructions d.instructions := by
  refine ⟨c.substitute_substitute first second, fun d hd => ?_⟩
  obtain ⟨hlist, hname⟩ := (Circuit.substitute_eq_ok_iff first).1 hd
  have hlists := mapM_eq_ok_iff.1 hlist
  exact ⟨Circuit.mem_symbols_substitute first hd, hname, hlists.length_eq.symm,
    hlists.imp fun _ _ => Instruction.sameShape_of_substitute first⟩

/-- A flip with an open probability, then a controlled root of a turn by a sum with it. -/
def noisyTurn (p angle : Scalar) : Circuit :=
  ⟨"noisy turn", [⟨.channel ⟨.bitFlip, p⟩, [0], [], []⟩,
    ⟨.controlled 1 (.powered .half (.gate (.rz angle))), [0, 1], [], []⟩]⟩

/-- The probability is bound and checked, and the angle stays open. -/
theorem substitution_composes_noisyTurn :
    ∃ d, (noisyTurn (.named "p") (.named "theta" + .named "p")).substitute [("p", 0.25)] =
        .ok d ∧
      ∀ name, name ∈ d.symbols ↔
        name ∈ (noisyTurn (.named "p") (.named "theta" + .named "p")).symbols ∧
          List.lookup name [("p", (0.25 : Float))] = none := by
  have hbound : (noisyTurn (.named "p") (.named "theta" + .named "p")).substitute
      [("p", 0.25)] = .ok (noisyTurn (.real 0.25) (.named "theta" + .real 0.25)) := by
    rfl
  exact ⟨_, hbound, ((substitution_composes _ [("p", 0.25)] []).2 _ hbound).1⟩

end GateAlgebra
