import GateAlgebra.Operation.Modifier
/-!
What the modifiers leave as it is.
-/

namespace GateAlgebra

namespace Operation

@[simp] theorem numQubits_addControls (n : Nat) (op : Operation) :
    (op.addControls n).numQubits = n + op.numQubits := by
  cases op with
  | controlled m w => exact Nat.add_assoc n m w.numQubits
  | _ => rfl

@[simp] theorem arity_raise (e : Exponent) (op : Operation) :
    (op.raise e).arity = op.arity :=
  raise_keeps arity (fun _ _ => rfl) (fun n _ _ h => by simp only [arity, h])
    (fun n _ _ h => by simp only [arity, h]) e op

@[simp] theorem arity_invert (op : Operation) : op.invert.arity = op.arity := by
  induction op with
  | controlled n w ih => simp only [invert, arity, ih]
  | repeated n w ih => simp only [invert, arity, ih]
  | _ => rfl

@[simp] theorem numQubits_raise (e : Exponent) (op : Operation) :
    (op.raise e).numQubits = op.numQubits := by
  simp only [numQubits, arity_raise]

@[simp] theorem numQubits_invert (op : Operation) : op.invert.numQubits = op.numQubits := by
  simp only [numQubits, arity_invert]

theorem sqrt_eq_ok {op : Operation} (h : op.isUnitary = true) :
    op.sqrt = .ok (op.raise .half) := by
  simp [sqrt, power, h]

theorem isBarrier_of_isUnitary {op : Operation} (h : op.isUnitary = true) :
    op.isBarrier = false := by
  cases op with
  | barrier n => simp [isUnitary] at h
  | _ => rfl

theorem inverse_eq_ok {op : Operation} (h : op.isUnitary = true) :
    op.inverse = .ok op.invert := by
  simp [inverse, isBarrier_of_isUnitary h, h]

theorem control_eq_ok {op : Operation} {n : Nat} (hn : 0 < n) (h : op.isUnitary = true) :
    op.control n = .ok (op.addControls n) := by
  simp [control, h, Nat.ne_of_gt hn]

theorem power_eq_ok {op : Operation} (h : op.isUnitary = true) (e : Exponent) :
    op.power e = .ok (op.raise e) := by
  simp [power, h]

theorem parallel_eq_ok {op : Operation} {n : Nat} (hn : 0 < n) (h : op.isUnitary = true) :
    op.parallel n = .ok (op.addRepeats n) := by
  simp [parallel, h, Nat.ne_of_gt hn]

/-- The square root of the square root, and so on. -/
def rootAt (op : Operation) : Nat → Operation
  | 0 => op
  | k + 1 => (op.rootAt k).raise .half

@[simp] theorem numQubits_rootAt (op : Operation) (k : Nat) :
    (op.rootAt k).numQubits = op.numQubits := by
  induction k with
  | zero => rfl
  | succ k ih => rw [rootAt, numQubits_raise, ih]

end Operation

end GateAlgebra
