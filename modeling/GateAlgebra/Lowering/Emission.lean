import GateAlgebra.Circuit.Basic
/-!
What lowering hands out: instructions in order, up to the point where it may have
stopped.  A stop is a failure, or the mark that the allotted depth of recursion
was used up before an answer was found.
-/

namespace GateAlgebra

/-- A cause of failure of lowering. -/
inductive LoweringError where
  /-- An operation or instruction could not be built. -/
  | circuit (error : CircuitError)
  /-- No rule can lower the operation. -/
  | notDecomposable (operation : String)
  /-- The passes ended before a fixed point was reached. -/
  | passLimit (passes : Nat)
deriving BEq

namespace LoweringError

def message : LoweringError → String
  | circuit error => "Circuit IR error: " ++ error.message
  | notDecomposable operation => s!"Operation '{operation}' cannot be decomposed"
  | passLimit passes =>
      s!"Decomposition did not reach a fixed point after {passes} passes"

/-- An operation that a modifier refuses has no rule. -/
def ofRefusal : CircuitError → LoweringError
  | .nonInvertible operation => notDecomposable operation
  | .notUnitary operation => notDecomposable operation
  | .nonExponentiable operation => notDecomposable operation
  | error => circuit error

end LoweringError

/-- Why nothing follows. -/
inductive Stop where
  | failed (error : LoweringError)
  | unfinished
deriving BEq

/-- Instructions, and why there are no more of them if lowering stopped early. -/
structure Emission where
  emitted : List Instruction
  stop : Option Stop
deriving BEq

namespace Emission

/-- Exactly these instructions. -/
def done (emitted : List Instruction) : Emission :=
  ⟨emitted, none⟩

/-- No instruction, and a failure. -/
def failure (error : LoweringError) : Emission :=
  ⟨[], some (.failed error)⟩

/-- No instruction, for want of depth. -/
def unfinished : Emission :=
  ⟨[], some .unfinished⟩

/-- One after the other.  Nothing follows a stop. -/
def andThen (first second : Emission) : Emission :=
  match first.stop with
  | some stop => ⟨first.emitted, some stop⟩
  | none => ⟨first.emitted ++ second.emitted, second.stop⟩

def sequence (emissions : List Emission) : Emission :=
  let stopped := emissions.dropWhile fun emission => emission.stop.isNone
  let before := emissions.takeWhile fun emission => emission.stop.isNone
  ⟨(before ++ stopped.take 1).flatMap emitted, stopped.head?.bind stop⟩

/-- The same emission `n` times. -/
def times (emission : Emission) (n : Nat) : Emission :=
  match n, emission.stop with
  | 0, _ => done []
  | _ + 1, some _ => emission
  | n + 1, none =>
      if emission.emitted.isEmpty then done []
      else done (List.replicate (n + 1) emission.emitted).flatten

/-- Go on with all instructions at once.  After a stop none of them counts. -/
def whole (emission : Emission) (next : List Instruction → Emission) : Emission :=
  match emission.stop with
  | some stop => ⟨[], some stop⟩
  | none => next emission.emitted

/-- Go on with a value, or fail. -/
def bind {α : Type} (value : Except LoweringError α) (next : α → Emission) : Emission :=
  match value with
  | .ok a => next a
  | .error error => failure error

/-- Go on with a value of the circuit library, or fail with its error. -/
def build {α : Type} (value : Except CircuitError α) (next : α → Emission) : Emission :=
  bind (value.mapError .circuit) next

/-- One instruction on qubits. -/
def apply (op : Operation) (qubits : List Nat) : Emission :=
  build (Instruction.onQubits op qubits) fun inst => done [inst]

/-- The instructions, or why there are not all of them. -/
def result (emission : Emission) : Except Stop (List Instruction) :=
  match emission.stop with
  | some stop => .error stop
  | none => .ok emission.emitted

@[simp] theorem andThen_done (emitted : List Instruction) (second : Emission) :
    (done emitted).andThen second = ⟨emitted ++ second.emitted, second.stop⟩ := rfl

@[simp] theorem done_andThen (emission : Emission) :
    emission.andThen (done []) = emission := by
  obtain ⟨emitted, stop⟩ := emission
  cases stop with
  | none => simp [andThen, done]
  | some stop => rfl

theorem andThen_assoc (a b c : Emission) :
    (a.andThen b).andThen c = a.andThen (b.andThen c) := by
  obtain ⟨first, stop⟩ := a
  cases stop with
  | some stop => rfl
  | none =>
      obtain ⟨second, stop⟩ := b
      cases stop with
      | some stop => rfl
      | none => simp [andThen]

@[simp] theorem sequence_nil : sequence [] = done [] := rfl

@[simp] theorem sequence_cons (first : Emission) (rest : List Emission) :
    sequence (first :: rest) = first.andThen (sequence rest) := by
  obtain ⟨emitted, stop⟩ := first
  cases stop with
  | some stop => simp [sequence, andThen]
  | none => simp [sequence, andThen]

@[simp] theorem sequence_append (left right : List Emission) :
    sequence (left ++ right) = (sequence left).andThen (sequence right) := by
  induction left with
  | nil => rfl
  | cons head tail ih => simp only [List.cons_append, sequence_cons, ih, andThen_assoc]

@[simp] theorem times_zero (emission : Emission) : emission.times 0 = done [] := rfl

/-- Nothing follows the first time that stops. -/
theorem times_succ (emission : Emission) (n : Nat) :
    emission.times (n + 1) = emission.andThen (emission.times n) := by
  obtain ⟨emitted, stop⟩ := emission
  cases stop with
  | some stop => rfl
  | none =>
      cases emitted with
      | nil => cases n <;> rfl
      | cons head tail => cases n <;> simp [times, andThen, done, List.replicate_succ]

end Emission

end GateAlgebra
