import Mathlib.Data.List.Basic
import GateAlgebra.Lowering.Emission
import GateAlgebra.Proofs.Instruction
/-!
Emissions that hand out all of their instructions.  Each way to put emissions
together is complete exactly if its parts are, and then its instructions are those
of the parts in order.
-/

namespace GateAlgebra

namespace Emission

variable {α : Type} {emitted : List Instruction}

@[simp] theorem done_inj {left right : List Instruction} :
    done left = done right ↔ left = right := by
  simp [done]

theorem result_eq_ok_iff {emission : Emission} :
    emission.result = .ok emitted ↔ emission = done emitted := by
  obtain ⟨list, stop⟩ := emission
  cases stop with
  | none => simp [result, done]
  | some stop => simp [result, done]

@[simp] theorem bind_ok (a : α) (next : α → Emission) : bind (.ok a) next = next a := rfl

@[simp] theorem build_ok (a : α) (next : α → Emission) : build (.ok a) next = next a := rfl

@[simp] theorem bind_error (error : LoweringError) (next : α → Emission) :
    bind (.error error) next = failure error := rfl

@[simp] theorem build_error (error : CircuitError) (next : α → Emission) :
    build (.error error) next = failure (.circuit error) := rfl

@[simp] theorem failure_ne_done (error : LoweringError) : failure error ≠ done emitted := by
  simp [failure, done]

@[simp] theorem unfinished_ne_done : unfinished ≠ done emitted := by
  simp [unfinished, done]

@[simp] theorem whole_done (next : List Instruction → Emission) :
    (done emitted).whole next = next emitted := rfl

/-- Refusals are renamed, but nothing is lost. -/
theorem mapError_eq_ok_iff {ε ε' : Type} {value : Except ε α} {f : ε → ε'} {a : α} :
    value.mapError f = .ok a ↔ value = .ok a := by
  cases value with
  | ok b => simp [Except.mapError]
  | error e => simp [Except.mapError]

theorem bind_eq_done_iff {value : Except LoweringError α} {next : α → Emission} :
    bind value next = done emitted ↔ ∃ a, value = .ok a ∧ next a = done emitted := by
  cases value with
  | ok a => simp
  | error e => simp

theorem build_eq_done_iff {value : Except CircuitError α} {next : α → Emission} :
    build value next = done emitted ↔ ∃ a, value = .ok a ∧ next a = done emitted := by
  cases value with
  | ok a => simp
  | error e => simp

theorem whole_eq_done_iff {emission : Emission} {next : List Instruction → Emission} :
    emission.whole next = done emitted ↔
      ∃ lowered, emission = done lowered ∧ next lowered = done emitted := by
  obtain ⟨list, stop⟩ := emission
  cases stop with
  | none => simp [whole, done]
  | some stop => simp [whole, done]

theorem andThen_eq_done_iff {first second : Emission} :
    first.andThen second = done emitted ↔
      ∃ left right, first = done left ∧ second = done right ∧
        left ++ right = emitted := by
  obtain ⟨list, stop⟩ := first
  obtain ⟨other, stop'⟩ := second
  cases stop with
  | none => simp [andThen, done, and_comm]
  | some stop => simp [andThen, done]

@[simp] theorem done_andThen_done (left right : List Instruction) :
    (done left).andThen (done right) = done (left ++ right) := rfl

@[simp] theorem times_done (n : Nat) :
    (done emitted).times n = done (List.replicate n emitted).flatten := by
  induction n with
  | zero => rfl
  | succ n ih =>
      rw [times_succ, ih, done_andThen_done, List.replicate_succ, List.flatten_cons]

theorem times_eq_done_iff {emission : Emission} {n : Nat} :
    emission.times (n + 1) = done emitted ↔
      ∃ lowered, emission = done lowered ∧
        (List.replicate (n + 1) lowered).flatten = emitted := by
  constructor
  · intro h
    rw [times_succ, andThen_eq_done_iff] at h
    obtain ⟨left, right, rfl, hright, rfl⟩ := h
    rw [times_done, done_inj] at hright
    exact ⟨left, rfl, by rw [List.replicate_succ, List.flatten_cons, hright]⟩
  · rintro ⟨lowered, rfl, rfl⟩
    exact times_done (n + 1)

/-- A sequence is complete exactly if every part is. -/
theorem sequence_map_eq_done_iff {β : Type} {part : β → Emission} {items : List β} :
    sequence (items.map part) = done emitted ↔
      ∃ lists, List.Forall₂ (fun item list => part item = done list) items lists ∧
        lists.flatten = emitted := by
  induction items generalizing emitted with
  | nil =>
      constructor
      · intro h
        exact ⟨[], .nil, by simpa [eq_comm] using h⟩
      · rintro ⟨lists, hlists, rfl⟩
        cases hlists
        rfl
  | cons item items ih =>
      rw [List.map_cons, sequence_cons, andThen_eq_done_iff]
      constructor
      · rintro ⟨left, right, hleft, hright, rfl⟩
        obtain ⟨lists, hlists, rfl⟩ := ih.1 hright
        exact ⟨left :: lists, .cons hleft hlists, rfl⟩
      · rintro ⟨lists, hlists, rfl⟩
        cases hlists with
        | cons hleft hrest => exact ⟨_, _, hleft, ih.2 ⟨_, hrest, rfl⟩, rfl⟩

theorem apply_eq_done_iff {op : Operation} {qubits : List Nat} :
    apply op qubits = done emitted ↔
      emitted = [⟨op, qubits, [], []⟩] ∧ Instruction.Valid ⟨op, qubits, [], []⟩ := by
  unfold apply
  rw [build_eq_done_iff]
  constructor
  · rintro ⟨inst, hinst, hdone⟩
    obtain ⟨rfl, hvalid⟩ := Instruction.onQubits_eq_ok_iff.1 hinst
    exact ⟨(done_inj.1 hdone).symm, hvalid⟩
  · rintro ⟨rfl, hvalid⟩
    exact ⟨_, Instruction.onQubits_eq_ok_iff.2 ⟨rfl, hvalid⟩, rfl⟩

/-- A gate on as many qubits as it needs, none of them twice, is handed out. -/
theorem apply_eq_done {op : Operation} {qubits : List Nat}
    (hunitary : op.isUnitary = true) (hlength : qubits.length = op.numQubits)
    (hnodup : qubits.Nodup) : apply op qubits = done [⟨op, qubits, [], []⟩] :=
  apply_eq_done_iff.2 ⟨rfl, Instruction.valid_of_isUnitary hunitary hlength hnodup⟩

end Emission

end GateAlgebra
