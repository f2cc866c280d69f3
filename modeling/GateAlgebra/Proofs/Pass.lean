import GateAlgebra.Lowering.Pass
import GateAlgebra.Proofs.Parts
/-!
Passes over circuits.  A pass lowers every instruction, and it changes nothing exactly if
every one of them is lowered to itself.
-/

namespace GateAlgebra

/-- The ancillae that an instruction does not act on. -/
def Instruction.free (inst : Instruction) (ancillae : List Nat) : List Nat :=
  ancillae.filter fun a => !inst.qubits.contains a

theorem Instruction.lower_eq (inst : Instruction) (ancillae : List Nat) :
    inst.lower ancillae = lowerWithin (inst.free ancillae) inst.operation.rank inst := rfl

theorem Instruction.free_nodup (inst : Instruction) {ancillae : List Nat}
    (h : ancillae.Nodup) : (inst.free ancillae).Nodup :=
  h.filter _

theorem Instruction.mem_free_iff {inst : Instruction} {ancillae : List Nat} {q : Nat} :
    q ∈ inst.free ancillae ↔ q ∈ ancillae ∧ q ∉ inst.qubits := by
  simp [Instruction.free]

theorem Instruction.lowers_of_lower {inst : Instruction} {ancillae : List Nat}
    {emitted : List Instruction} (h : inst.lower ancillae = .done emitted) :
    Lowers (inst.free ancillae) inst emitted :=
  ⟨_, h⟩

/-- What is no gate is handed out as it is. -/
theorem lower_of_passed {inst : Instruction}
    (h : inst.operation.kind ∈ [.measure, .reset, .barrier, .channel, .expectation])
    (ancillae : List Nat) : inst.lower ancillae = .done [inst] := by
  cases hop : inst.operation <;>
    simp [hop, Operation.kind, Instruction.lower, Operation.rank, lowerWithin, lowerStep] at h ⊢

/-- Modifiers make gates of gates, so what is no gate is bare. -/
theorem Instruction.Valid.kind_of_not_isUnitary {inst : Instruction} (hvalid : inst.Valid)
    (hmodifies : inst.operation.ModifiesGates) (h : inst.operation.isUnitary = false) :
    inst.operation.kind ∈ [.measure, .reset, .barrier, .channel, .expectation] := by
  cases hop : inst.operation with
  | observable o => exact absurd hop (hvalid.not_observable o)
  | controlled n w | repeated n w =>
      rw [hop] at hmodifies h
      exact absurd (hmodifies.2.1.symm.trans h) (by decide)
  | powered e w | inverted w =>
      rw [hop] at hmodifies h
      exact absurd (hmodifies.1.symm.trans h) (by decide)
  | gate g | custom g =>
      rw [hop] at h
      cases h
  | _ => simp [Operation.kind]

/-- Lowering an operation on valid targets is lowering the instruction that it makes. -/
theorem Instruction.Valid.lower_operation {inst : Instruction} (hvalid : inst.Valid)
    (ancillae : List Nat) :
    inst.operation.lower inst.qubits inst.bits inst.zvars ancillae = inst.lower ancillae := by
  have hmake : Instruction.make inst.operation inst.qubits inst.bits inst.zvars = .ok inst :=
    Instruction.make_eq_ok_iff.2 ⟨rfl, hvalid⟩
  rw [Operation.lower, hmake, Emission.build_ok]

namespace LoweringConfig

variable {config : LoweringConfig} {inst : Instruction} {current : List Instruction}

theorem lowerInstruction_eq_ok {emitted : List Instruction}
    (h : inst.lower config.ancillae = .done emitted) :
    config.lowerInstruction inst = .ok ⟨"decomposed", emitted⟩ := by
  rw [lowerInstruction, h]
  rfl

theorem pass_cons_eq_ok_iff {inst : Instruction} {rest : List Instruction}
    {result : List Instruction × Bool} :
    config.pass (inst :: rest) = .ok result ↔
      ∃ lowered others, inst.lower config.ancillae = .done lowered ∧
        config.pass rest = .ok others ∧
        result = (lowered ++ others.1, isChanged inst lowered || others.2) := by
  rw [pass]
  cases hlowered : (inst.lower config.ancillae).result with
  | error stop => simp [← Emission.result_eq_ok_iff, hlowered, bind, Except.bind]
  | ok lowered =>
      have hdone := Emission.result_eq_ok_iff.1 hlowered
      cases hrest : config.pass rest with
      | error stop => simp [bind, Except.bind]
      | ok others =>
          simp [hdone, bind, Except.bind, pure, Except.pure, eq_comm]

theorem isChanged_eq_false_iff {lowered : List Instruction} :
    isChanged inst lowered = false ↔ ∃ only, lowered = [only] ∧ (only == inst) = true := by
  cases lowered with
  | nil => simp [isChanged]
  | cons first rest => cases rest <;> simp [isChanged]

/-- One pass hands out valid instructions. -/
theorem pass_valid (hvalid : ∀ inst ∈ current, inst.Valid)
    {result : List Instruction × Bool} (h : config.pass current = .ok result) :
    ∀ inst ∈ result.1, inst.Valid := by
  induction current generalizing result with
  | nil =>
      obtain rfl := Except.ok.inj h
      simp
  | cons inst rest ih =>
      obtain ⟨hinst, hrest⟩ := List.forall_mem_cons.1 hvalid
      obtain ⟨lowered, others, hlowered, hothers, rfl⟩ := pass_cons_eq_ok_iff.1 h
      have hparts := (Instruction.lowers_of_lower hlowered).yields hinst
      exact List.forall_mem_append.2 ⟨fun part hpart => (hparts part hpart).valid,
        ih hrest hothers⟩

/-- Instructions that are equal to themselves and lowered to themselves make a pass without
a change. -/
theorem pass_of_stable
    (h : ∀ inst ∈ current, inst.lower config.ancillae = .done [inst] ∧ (inst == inst) = true) :
    config.pass current = .ok (current, false) := by
  induction current with
  | nil => rfl
  | cons inst rest ih =>
      obtain ⟨⟨hlower, hself⟩, hrest⟩ := List.forall_mem_cons.1 h
      have hsame : isChanged inst [inst] = false := isChanged_eq_false_iff.2 ⟨inst, rfl, hself⟩
      exact pass_cons_eq_ok_iff.2 ⟨_, _, hlower, ih hrest, by simp [hsame]⟩

/-- The last pass, and what came to it. -/
theorem fixWithin_eq_ok_iff {passes : Nat} {fixed : List Instruction} :
    config.fixWithin (passes + 1) current = .ok fixed ↔
      ∃ result, config.pass current = .ok result ∧
        (result.2 = false ∧ result.1 = fixed ∨
          result.2 = true ∧ config.fixWithin passes result.1 = .ok fixed) := by
  rw [fixWithin]
  cases config.pass current with
  | error stop => simp [bind, Except.bind]
  | ok result =>
      obtain ⟨next, changed⟩ := result
      cases changed <;> simp [bind, Except.bind, pure, Except.pure]

theorem lowerUntilFixed_eq_ok_iff {c fixed : Circuit} :
    config.lowerUntilFixed c = .ok fixed ↔
      fixed.name = c.name ∧
        config.fixWithin config.maxPasses c.instructions = .ok fixed.instructions := by
  rw [lowerUntilFixed]
  cases config.fixWithin config.maxPasses c.instructions with
  | error stop => simp [bind, Except.bind]
  | ok instructions =>
      obtain ⟨name, list⟩ := fixed
      simp [bind, Except.bind, pure, Except.pure, eq_comm]

end LoweringConfig

end GateAlgebra
