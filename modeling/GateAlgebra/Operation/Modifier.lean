import GateAlgebra.Operation.Basic
/-!
The modifier algebra.  Each modifier is applied through a function that first
asks whether the operation admits it and then simplifies: controls and parallel
copies merge, exponents multiply, an inverse cancels, and powers and inverses
move inside controls and parallel copies.
-/

namespace GateAlgebra

namespace Operation

/-- Put controls in front; they merge with controls that are already there. -/
def addControls (controls : Nat) : Operation → Operation
  | controlled n w => controlled (controls + n) w
  | op => controlled controls op

/-- Repeat; the count multiplies with one that is already there. -/
def addRepeats (repeats : Nat) : Operation → Operation
  | repeated n w => repeated (repeats * n) w
  | op => repeated repeats op

/-- Raise to a power.  The exponent one changes nothing, exponents multiply, and
a power of a controlled or repeated operation is taken inside. -/
def raise (exponent : Exponent) (op : Operation) : Operation :=
  if exponent.isOne then op
  else
    match op with
    | powered e w => raise (e * exponent) w
    | controlled n w => controlled n (raise exponent w)
    | repeated n w => repeated n (raise exponent w)
    | op => powered exponent op

/-- Invert.  Two inverses cancel, and the inverse of a controlled or repeated
operation is taken inside. -/
def invert : Operation → Operation
  | inverted w => w
  | controlled n w => controlled n w.invert
  | repeated n w => repeated n w.invert
  | op => inverted op

/-- Control a unitary operation by at least one qubit. -/
def control (op : Operation) (controls : Nat) : Except CircuitError Operation :=
  if controls = 0 then .error .noControls
  else if op.isUnitary then .ok (op.addControls controls)
  else .error (.notUnitary op.name)

/-- Raise a unitary operation to a power. -/
def power (op : Operation) (exponent : Exponent) : Except CircuitError Operation :=
  if op.isUnitary then .ok (op.raise exponent)
  else .error (.nonExponentiable op.name)

/-- The power one half. -/
def sqrt (op : Operation) : Except CircuitError Operation :=
  op.power .half

/-- Invert a unitary operation.  A barrier is its own inverse. -/
def inverse (op : Operation) : Except CircuitError Operation :=
  if op.isBarrier then .ok op
  else if op.isUnitary then .ok op.invert
  else .error (.nonInvertible op.name)

/-- Repeat a unitary operation at least once. -/
def parallel (op : Operation) (repeats : Nat) : Except CircuitError Operation :=
  if repeats = 0 then .error .noRepeats
  else if op.isUnitary then .ok (op.addRepeats repeats)
  else .error (.notUnitary op.name)

/-- The operation with the count of its modifier as it is counted, unless the program stops. -/
def recounted (counting : Counting) : Operation → Option Operation
  | controlled n w => (controlled · w) <$> counting.count n
  | repeated n w => (repeated · w) <$> counting.count n
  | op => some op

/-- Apply a modifier that has a count to a unitary operation, where the count may not fit. -/
def modifyIn (counting : Counting) (op : Operation) (count : Nat) (missing : CircuitError)
    (modified : Operation) : Answer Operation :=
  if count = 0 then throw missing
  else if op.isUnitary then ExceptT.lift (modified.recounted counting)
  else throw (.notUnitary op.name)

/-- Control by a number of qubits that is added to the one already there. -/
def controlIn (counting : Counting) (op : Operation) (controls : Nat) : Answer Operation :=
  op.modifyIn counting controls .noControls (op.addControls controls)

/-- Repeat a number of times by which the one already there is multiplied. -/
def parallelIn (counting : Counting) (op : Operation) (repeats : Nat) : Answer Operation :=
  op.modifyIn counting repeats .noRepeats (op.addRepeats repeats)

/-- Replace bound symbols in every parameter.  The modifiers stay as they are,
and a channel checks its range again. -/
def substitute (bindings : Bindings) : Operation → Except CircuitError Operation
  | gate g => .ok (gate (g.substitute bindings))
  | custom g => .ok (custom (g.substitute bindings))
  | controlled n w => do return controlled n (← w.substitute bindings)
  | powered e w => do return powered e (← w.substitute bindings)
  | inverted w => do return inverted (← w.substitute bindings)
  | repeated n w => do return repeated n (← w.substitute bindings)
  | channel c => do return channel (← c.substitute bindings)
  | op => .ok op

@[simp] theorem isUnitary_addControls (n : Nat) (op : Operation) :
    (op.addControls n).isUnitary = op.isUnitary := by
  cases op <;> rfl

@[simp] theorem isUnitary_addRepeats (n : Nat) (op : Operation) :
    (op.addRepeats n).isUnitary = op.isUnitary := by
  cases op <;> rfl

/-- Raising to a power keeps what a power does not change, if controls and parallel copies
pass it on from the inside. -/
theorem raise_keeps {β : Type} (view : Operation → β)
    (hpowered : ∀ e w, view (powered e w) = view w)
    (hcontrolled : ∀ n {w w'}, view w' = view w → view (controlled n w') = view (controlled n w))
    (hrepeated : ∀ n {w w'}, view w' = view w → view (repeated n w') = view (repeated n w))
    (e : Exponent) (op : Operation) : view (op.raise e) = view op := by
  fun_induction raise e op with
  | case1 => rfl
  | case2 e hone p w ih => exact ih.trans (hpowered p w).symm
  | case3 e hone n w ih => exact hcontrolled n ih
  | case4 e hone n w ih => exact hrepeated n ih
  | case5 e hone op => exact hpowered e op

@[simp] theorem isUnitary_raise (e : Exponent) (op : Operation) :
    (op.raise e).isUnitary = op.isUnitary :=
  raise_keeps isUnitary (fun _ _ => rfl) (fun _ _ _ h => h) (fun _ _ _ h => h) e op

@[simp] theorem isUnitary_invert (op : Operation) :
    op.invert.isUnitary = op.isUnitary := by
  induction op with
  | controlled _ _ ih => exact ih
  | repeated _ _ ih => exact ih
  | _ => rfl

end Operation

end GateAlgebra
