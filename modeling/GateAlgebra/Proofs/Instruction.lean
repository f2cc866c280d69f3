import Mathlib.Data.List.Nodup
import GateAlgebra.Instruction
/-!
Valid instructions.  The constructor accepts exactly the target lists that match
the arity and hold no index twice.
-/

namespace GateAlgebra

/-- What the constructor asks of an instruction. -/
structure Instruction.Valid (inst : Instruction) : Prop where
  not_observable : ∀ o, inst.operation ≠ .observable o
  qubits_length : inst.qubits.length = inst.operation.arity.qubits
  bits_length : inst.bits.length = inst.operation.arity.bits
  zvars_length : inst.zvars.length = inst.operation.arity.zvars
  qubits_nodup : inst.qubits.Nodup
  bits_nodup : inst.bits.Nodup
  zvars_nodup : inst.zvars.Nodup

/-- A valid instruction whose operation has a property. -/
structure Instruction.ValidWith (P : Operation → Prop) (inst : Instruction) : Prop where
  valid : inst.Valid
  operation : P inst.operation

/-- The controls are as many as the operation has. -/
theorem Instruction.Valid.length_take {inst : Instruction} (hvalid : inst.Valid) {n : Nat}
    {w : Operation} (hop : inst.operation = .controlled n w) :
    (inst.qubits.take n).length = n := by
  have hlength : inst.qubits.length = n + w.numQubits := by
    rw [hvalid.qubits_length, hop]
    rfl
  rw [List.length_take]
  omega

namespace Instruction

theorem checkDistinct_eq_ok_iff (op : Operation) (indices : List Nat) :
    checkDistinct op indices = .ok () ↔ indices.Nodup := by
  have hnone := firstRepeat_eq_none_iff ∅ indices
  unfold checkDistinct
  split
  · rename_i index hsome
    rw [hsome] at hnone
    simpa using hnone
  · rename_i hfirst
    simpa [hfirst] using hnone

theorem make_eq_ok_iff {op : Operation} {qubits bits zvars : List Nat}
    {inst : Instruction} :
    make op qubits bits zvars = .ok inst ↔
      inst = ⟨op, qubits, bits, zvars⟩ ∧ inst.Valid := by
  constructor
  · intro h
    unfold make at h
    split at h
    · cases h
    · rename_i hobservable
      dsimp only at h
      split at h
      · rename_i hlength
        obtain ⟨hq, hb, hz⟩ := hlength
        cases hcq : checkDistinct op qubits with
        | error e => simp [hcq, bind, Except.bind] at h
        | ok _ =>
            cases hcb : checkDistinct op bits with
            | error e => simp [hcq, hcb, bind, Except.bind] at h
            | ok _ =>
                cases hcz : checkDistinct op zvars with
                | error e => simp [hcq, hcb, hcz, bind, Except.bind] at h
                | ok _ =>
                    simp only [hcq, hcb, hcz, bind, Except.bind, pure, Except.pure,
                      Except.ok.injEq] at h
                    subst h
                    exact ⟨rfl, hobservable, hq, hb, hz,
                      (checkDistinct_eq_ok_iff op qubits).1 hcq,
                      (checkDistinct_eq_ok_iff op bits).1 hcb,
                      (checkDistinct_eq_ok_iff op zvars).1 hcz⟩
      · cases h
  · rintro ⟨rfl, hvalid⟩
    have hq := (checkDistinct_eq_ok_iff op qubits).2 hvalid.qubits_nodup
    have hb := (checkDistinct_eq_ok_iff op bits).2 hvalid.bits_nodup
    have hz := (checkDistinct_eq_ok_iff op zvars).2 hvalid.zvars_nodup
    have hlength : qubits.length = op.arity.qubits ∧ bits.length = op.arity.bits ∧
        zvars.length = op.arity.zvars :=
      ⟨hvalid.qubits_length, hvalid.bits_length, hvalid.zvars_length⟩
    unfold make
    split
    · rename_i o
      exact absurd rfl (hvalid.not_observable o)
    · simp [hlength, hq, hb, hz, bind, Except.bind, pure, Except.pure]

/-- A gate on qubits without repetition is a valid instruction. -/
theorem valid_of_isUnitary {op : Operation} {qubits : List Nat}
    (hunitary : op.isUnitary = true) (hlength : qubits.length = op.numQubits)
    (hnodup : qubits.Nodup) : Valid ⟨op, qubits, [], []⟩ := by
  have harity := Operation.arity_of_isUnitary hunitary
  refine ⟨?_, hlength, ?_, ?_, hnodup, List.nodup_nil, List.nodup_nil⟩
  · rintro o rfl
    simp [Operation.isUnitary] at hunitary
  · rw [harity]
    rfl
  · rw [harity]
    rfl

theorem onQubits_eq_ok_iff {op : Operation} {qubits : List Nat} {inst : Instruction} :
    onQubits op qubits = .ok inst ↔ inst = ⟨op, qubits, [], []⟩ ∧ inst.Valid :=
  make_eq_ok_iff

end Instruction

end GateAlgebra
