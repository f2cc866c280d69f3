import GateAlgebra.Proofs.LowerSound
import GateAlgebra.Proofs.Pass
/-!
Lowering of circuits.  Instructions that are no gates stay where they are, and the gates
between two of them do the same before and after.
-/

namespace GateAlgebra

namespace Semantics

variable {R : Type*} [CommRing R] (S : Semantics R)

/-- The operator of the gates before any other instruction, and each other instruction
with the operator of the gates up to the next. -/
noncomputable def outline : List Instruction → Operator R × List (Instruction × Operator R)
  | [] => (1, [])
  | inst :: rest =>
      let following := outline rest
      if inst.isUnitary then
        (following.1 * S.operator inst.operation inst.qubits, following.2)
      else (1, (inst, following.1) :: following.2)

theorem outline_append {gates : List Instruction} (hgates : ∀ inst ∈ gates, inst.isUnitary = true)
    (rest : List Instruction) :
    S.outline (gates ++ rest) = ((S.outline rest).1 * S.run gates, (S.outline rest).2) := by
  induction gates with
  | nil => rw [List.nil_append, run_nil, mul_one]
  | cons inst gates ih =>
      obtain ⟨hinst, hrest⟩ := List.forall_mem_cons.1 hgates
      rw [List.cons_append, outline, ih hrest, if_pos hinst, run_cons, mul_assoc]

/-- Instructions that are no gates have outlines of their own. -/
theorem outline_cons_congr {left right : List Instruction} (inst : Instruction)
    (h : S.outline left = S.outline right) :
    S.outline (inst :: left) = S.outline (inst :: right) := by
  rw [outline, outline, h]

end Semantics

/-- Valid instructions that lowering understands: gates without rounding errors, and what
it passes through. -/
structure Instruction.Ready (inst : Instruction) : Prop where
  valid : inst.Valid
  kind : inst.operation.Exact 0 ∨
    inst.operation.kind ∈ [.measure, .reset, .barrier, .channel, .expectation]

/-- What is lowered on the way scales the angles of known roots exactly. -/
abbrev Instruction.ScalesWith (angle : Scalar → ℝ) (ancillae : List Nat) (inst : Instruction) :
    Prop :=
  inst.ScalesFrom angle (inst.free ancillae)

section Lower

variable {R : Type*} [CommRing R] [StarRing R] (S : ExactSemantics R)
  {inst : Instruction} {ancillae : List Nat} {emitted : List Instruction}

theorem lowerable_of_exact (hvalid : inst.Valid) (hexact : inst.operation.Exact 0)
    (hancillae : ancillae.Nodup) :
    inst.Lowerable 0 (ancillae.filter fun a => !inst.qubits.contains a) := by
  refine ⟨hvalid, hexact, hancillae.filter _, ?_⟩
  intro q hq
  simpa using (List.mem_filter.1 hq).2

/-- The operator of a gate is that of what it is lowered to. -/
theorem ExactSemantics.run_lower (hvalid : inst.Valid) (hexact : inst.operation.Exact 0)
    (hancillae : ancillae.Nodup) (hscales : inst.ScalesWith S.angle ancillae)
    (h : inst.lower ancillae = .done emitted) :
    S.run emitted = S.operator inst.operation inst.qubits ∧
      ∀ part ∈ emitted, part.Ready ∧ part.isUnitary = true := by
  have hlowerable := lowerable_of_exact hvalid hexact hancillae
  refine ⟨S.run_of_lowerable hlowerable hscales ⟨_, h⟩, fun part hpart => ?_⟩
  have hlowered := (lowerWithin_emitsExactly h 0 hlowerable).lowered part hpart
  exact ⟨⟨hlowered.valid, Or.inl hlowered.exact⟩, hlowered.exact.unitary⟩

/-- Whatever an instruction is lowered to takes its place. -/
theorem ExactSemantics.outline_lower (hinst : inst.Ready) (hancillae : ancillae.Nodup)
    (hscales : inst.ScalesWith S.angle ancillae) (h : inst.lower ancillae = .done emitted)
    {left right : List Instruction} (hrest : S.outline left = S.outline right) :
    S.outline (emitted ++ left) = S.outline (inst :: right) ∧ ∀ part ∈ emitted, part.Ready := by
  rcases hinst.kind with hexact | hkind
  · obtain ⟨hrun, hparts⟩ := S.run_lower hinst.valid hexact hancillae hscales h
    refine ⟨?_, fun part hpart => (hparts part hpart).1⟩
    have hsingle : inst.isUnitary = true := hexact.unitary
    rw [S.outline_append fun part hpart => (hparts part hpart).2, hrun, hrest,
      Semantics.outline, if_pos hsingle]
  · rw [lower_of_passed hkind, Emission.done_inj] at h
    subst h
    exact ⟨S.outline_cons_congr inst hrest, by simpa using hinst⟩

end Lower

namespace LoweringConfig

/-- Lowering of whole lists, pass after pass, scales the angles of known roots exactly. -/
def ScalesFrom (config : LoweringConfig) (angle : Scalar → ℝ) (current : List Instruction) : Prop :=
  ∀ later, Relation.ReflTransGen
    (fun before after => ∃ changed, config.pass before = .ok (after, changed)) current later →
    ∀ inst ∈ later, inst.ScalesWith angle config.ancillae

variable {R : Type*} [CommRing R] [StarRing R] (S : ExactSemantics R) {config : LoweringConfig}

/-- One pass. -/
theorem outline_pass (hancillae : config.ancillae.Nodup) {instructions : List Instruction}
    (hready : ∀ inst ∈ instructions, inst.Ready)
    (hscales : ∀ inst ∈ instructions, inst.ScalesWith S.angle config.ancillae)
    {result : List Instruction × Bool} (h : config.pass instructions = .ok result) :
    S.outline result.1 = S.outline instructions ∧ ∀ inst ∈ result.1, inst.Ready := by
  induction instructions generalizing result with
  | nil =>
      obtain rfl := Except.ok.inj h
      simp
  | cons inst rest ih =>
      obtain ⟨hinst, hrest⟩ := List.forall_mem_cons.1 hready
      obtain ⟨hscale, hscaleRest⟩ := List.forall_mem_cons.1 hscales
      obtain ⟨lowered, others, hlowered, hothers, rfl⟩ := pass_cons_eq_ok_iff.1 h
      obtain ⟨houtline, hall⟩ := ih hrest hscaleRest hothers
      obtain ⟨hwhole, hparts⟩ := S.outline_lower hinst hancillae hscale hlowered houtline
      exact ⟨hwhole, List.forall_mem_append.2 ⟨hparts, hall⟩⟩

/-- Any number of passes. -/
theorem outline_fixWithin (hancillae : config.ancillae.Nodup) {passes : Nat}
    {instructions fixed : List Instruction} (hready : ∀ inst ∈ instructions, inst.Ready)
    (hscales : config.ScalesFrom S.angle instructions)
    (h : config.fixWithin passes instructions = .ok fixed) :
    S.outline fixed = S.outline instructions := by
  induction passes generalizing instructions with
  | zero => cases h
  | succ passes ih =>
      rw [fixWithin] at h
      cases hpass : config.pass instructions with
      | error stop => simp [hpass, bind, Except.bind] at h
      | ok result =>
          obtain ⟨houtline, hall⟩ :=
            outline_pass S hancillae hready (hscales instructions .refl) hpass
          have hnext : config.ScalesFrom S.angle result.1 :=
            fun later hlater => hscales later (.head ⟨result.2, hpass⟩ hlater)
          simp only [hpass, bind, Except.bind, pure, Except.pure] at h
          split at h
          · rw [ih hall hnext h, houtline]
          · obtain rfl := Except.ok.inj h
            exact houtline

theorem outline_lowerCircuit (hancillae : config.ancillae.Nodup) {c lowered : Circuit}
    (hready : ∀ inst ∈ c.instructions, inst.Ready)
    (hscales : ∀ inst ∈ c.instructions, inst.ScalesWith S.angle config.ancillae)
    (h : config.lowerCircuit c = .ok lowered) :
    S.outline lowered.instructions = S.outline c.instructions := by
  rw [lowerCircuit] at h
  cases hpass : config.pass c.instructions with
  | error stop => simp [hpass, bind, Except.bind] at h
  | ok result =>
      simp only [hpass, bind, Except.bind, pure, Except.pure, Except.ok.injEq] at h
      subst h
      exact (outline_pass S hancillae hready hscales hpass).1

theorem outline_lowerUntilFixed (hancillae : config.ancillae.Nodup) {c lowered : Circuit}
    (hready : ∀ inst ∈ c.instructions, inst.Ready)
    (hscales : config.ScalesFrom S.angle c.instructions)
    (h : config.lowerUntilFixed c = .ok lowered) :
    S.outline lowered.instructions = S.outline c.instructions := by
  rw [lowerUntilFixed] at h
  cases hfixed : config.fixWithin config.maxPasses c.instructions with
  | error stop => simp [hfixed, bind, Except.bind] at h
  | ok fixed =>
      simp only [hfixed, bind, Except.bind, pure, Except.pure, Except.ok.injEq] at h
      subst h
      exact outline_fixWithin S hancillae hready hscales hfixed

end LoweringConfig

end GateAlgebra
