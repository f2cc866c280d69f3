import GateAlgebra.Proofs.Reading
import GateAlgebra.Proofs.WellFormed
/-!
Decoded operations, instructions and circuits.  The targets of an instruction are checked when
it has been read, so whatever is read is valid, and its modifiers wrap gates.
-/

namespace GateAlgebra

open Document Operation

variable {d : Document}

theorem Operation.Read.modifiesGates {op : Operation} (h : Read d op) : op.ModifiesGates := by
  induction h with
  | controlled hn _ hunitary _ ih => exact ⟨hn, hunitary, ih⟩
  | powered _ hunitary _ ih => exact ⟨hunitary, ih⟩
  | inverted hunitary _ ih => exact ⟨hunitary, ih⟩
  | repeated hn _ hunitary _ ih => exact ⟨hn, hunitary, ih⟩
  | _ => trivial

/-- The modifiers of whatever is decoded wrap gates. -/
theorem Operation.modifiesGates_of_decode {op : Operation} (h : decode d = .ok op) :
    op.ModifiesGates :=
  (read_of_decode h).modifiesGates

/-- Whatever is decoded is well-formed. -/
theorem Operation.wellFormed_of_decode {op : Operation} (h : decode d = .ok op)
    (hsized : op.Sized) : op.WellFormed :=
  wellFormed_iff.2 ⟨modifiesGates_of_decode h, hsized⟩

theorem Instruction.validWith_of_decode {P : Operation → Prop}
    (hP : ∀ d op, Operation.decode d = .ok op → P op) {inst : Instruction}
    (h : Instruction.decode d = .ok inst) : inst.ValidWith P := by
  obtain ⟨hvalid, hop, -⟩ := Instruction.holds_of_decode h
  exact ⟨hvalid, hop.imp hP⟩

theorem Circuit.validWith_of_decode {P : Operation → Prop}
    (hP : ∀ d op, Operation.decode d = .ok op → P op) {c : Circuit}
    (h : Circuit.decode d = .ok c) : ∀ inst ∈ c.instructions, inst.ValidWith P :=
  fun inst hinst => (Circuit.holds_of_decode h inst hinst).imp
    fun _ _ => Instruction.validWith_of_decode hP

end GateAlgebra
