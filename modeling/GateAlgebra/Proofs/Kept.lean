import GateAlgebra.Circuit.Standard
import GateAlgebra.Proofs.HandedOut
import GateAlgebra.Proofs.Pass
/-!
What every call keeps.  Instructions are checked where they are made, but inverses,
substitutions and lowering make new ones from old ones; still all of them stay valid, and their
operations have any property that modifiers keep.
-/

namespace GateAlgebra

open Operation Emission

section Instructions

variable {E : Exponent → Prop} {P : Operation → Prop} {inst inst' : Instruction}

theorem Instruction.validWith_of_make {op : Operation} {qubits bits zvars : List Nat}
    (hop : P op) (h : Instruction.make op qubits bits zvars = .ok inst) : inst.ValidWith P := by
  obtain ⟨rfl, hvalid⟩ := Instruction.make_eq_ok_iff.1 h
  exact ⟨hvalid, hop⟩

/-- The inverse has the targets of the instruction, and they still fit. -/
theorem Instruction.ValidWith.inverse (hP : CallClosed E P) (hinst : inst.ValidWith P)
    (h : inst.inverse = .ok inst') : inst'.ValidWith P := by
  rcases inverse_unitary_cases h with rfl | ⟨hunitary, rfl⟩
  · exact hinst
  · exact ⟨hinst.valid.invert hunitary, hP.invert hunitary hinst.operation⟩

theorem Instruction.Valid.sameForm (hinst : inst.Valid) {op : Operation}
    (h : SameForm inst.operation op) : ({ inst with operation := op } : Instruction).Valid := by
  have harity : op.arity = inst.operation.arity := h.arity_eq
  refine ⟨?_, ?_, ?_, ?_, hinst.qubits_nodup, hinst.bits_nodup, hinst.zvars_nodup⟩
  -- A pure operator has no other form, and lengths are counted against the same arity.
  · rintro o rfl
    have hkind : inst.operation.kind = .observable := h.kind_eq.symm
    cases hop : inst.operation with
    | observable o' => exact hinst.not_observable o' hop
    | _ => simp [hop, kind] at hkind
  · rw [harity]
    exact hinst.qubits_length
  · rw [harity]
    exact hinst.bits_length
  · rw [harity]
    exact hinst.zvars_length

theorem Instruction.ValidWith.substitute (hP : CallClosed E P) (hinst : inst.ValidWith P)
    {bindings : Bindings} (h : inst.substitute bindings = .ok inst') : inst'.ValidWith P := by
  obtain ⟨op, hop, hinst'⟩ := bind_eq_ok_iff.1 h
  obtain rfl := Except.ok.inj hinst'
  exact ⟨hinst.valid.sameForm (sameForm_of_substitute hop), hP.substitute hop hinst.operation⟩

/-- The steps that a gate expands to are made like any other instruction. -/
theorem Instruction.validWith_of_expansion (hP : CallClosed E P) {g : Gate} {qubits : List Nat}
    {steps : List Instruction} (h : g.expansion qubits = .ok (some steps)) :
    ∀ step ∈ steps, step.ValidWith P := by
  rcases expansion_eq_ok_iff.1 h with ⟨-, hnone⟩ | ⟨list, hsteps, hvalid, hsome⟩
  · cases hnone
  · obtain rfl := Option.some.inj hsome
    intro inst hinst
    obtain ⟨step, hstep, rfl⟩ := List.mem_map.1 hinst
    have hkind := ((isStep_of_expansionSteps hsteps).2 step hstep).1
    exact ⟨hvalid step hstep, hP.step hkind⟩

end Instructions

/-- Every instruction is valid, and its operation has the property. -/
def Circuit.AllWith (P : Operation → Prop) (c : Circuit) : Prop :=
  ∀ inst ∈ c.instructions, inst.ValidWith P

namespace Circuit.AllWith

variable {E : Exponent → Prop} {P : Operation → Prop} {c c' : Circuit}

theorem empty (name : String) : (Circuit.empty name).AllWith P :=
  List.forall_mem_nil _

theorem extend (hc : c.AllWith P) {added : List Instruction}
    (hadded : ∀ inst ∈ added, inst.ValidWith P) : (c.extend added).AllWith P :=
  List.forall_mem_append.2 ⟨hc, hadded⟩

section Mutators

theorem of_broadcast {op : Operation} (hop : P op) {groups : List Target}
    {added : List Instruction} (h : broadcast op groups = .ok added) :
    ∀ inst ∈ added, inst.ValidWith P := by
  unfold broadcast at h
  split at h
  · cases h
  · split at h
    · cases h
    · intro inst hinst
      obtain ⟨i, -, hmade⟩ := exists_of_mem_mapM h hinst
      exact Instruction.validWith_of_make hop (mapError_eq_ok_iff.1 hmade)

theorem push (hc : c.AllWith P) {op : Operation} (hop : P op) {groups : List Target}
    (h : c.push op groups = .ok c') : c'.AllWith P := by
  obtain ⟨added, hadded, hc'⟩ := bind_eq_ok_iff.1 h
  obtain rfl := Except.ok.inj hc'
  exact hc.extend (of_broadcast hop hadded)

theorem insert (hc : c.AllWith P) {op : Operation} (hop : P op) {position : Nat}
    {groups : List Target} (h : c.insert position op groups = .ok c') : c'.AllWith P := by
  unfold Circuit.insert at h
  split at h
  · cases h
  · obtain ⟨added, hadded, hc'⟩ := bind_eq_ok_iff.1 h
    obtain rfl := Except.ok.inj hc'
    refine List.forall_mem_append.2 ⟨List.forall_mem_append.2 ⟨?_, of_broadcast hop hadded⟩, ?_⟩
    · exact fun inst hinst => hc inst (List.mem_of_mem_take hinst)
    · exact fun inst hinst => hc inst (List.mem_of_mem_drop hinst)

theorem remove (hc : c.AllWith P) {position : Nat} {removed : Instruction}
    (h : c.remove position = .ok (removed, c')) : c'.AllWith P := by
  unfold Circuit.remove at h
  split at h
  · obtain ⟨-, rfl⟩ := Prod.mk.inj (Except.ok.inj h)
    exact fun inst hinst => hc inst (List.mem_of_mem_eraseIdx hinst)
  · cases h

theorem inverse (hP : CallClosed E P) (hc : c.AllWith P) (h : c.inverse = .ok c') :
    c'.AllWith P := by
  obtain ⟨inverses, hinverses, hc'⟩ := bind_eq_ok_iff.1 h
  obtain rfl := Except.ok.inj hc'
  intro inst hinst
  obtain ⟨other, hother, hinverse⟩ := exists_of_mem_mapM hinverses hinst
  exact (hc other (List.mem_reverse.1 hother)).inverse hP hinverse

theorem substitute (hP : CallClosed E P) (hc : c.AllWith P) {bindings : Bindings}
    (h : c.substitute bindings = .ok c') : c'.AllWith P := by
  obtain ⟨bound, hbound, hc'⟩ := bind_eq_ok_iff.1 h
  obtain rfl := Except.ok.inj hc'
  intro inst hinst
  obtain ⟨other, hother, hsubstitute⟩ := exists_of_mem_mapM hbound hinst
  exact (hc other hother).substitute hP hsubstitute

end Mutators

section Standard

variable (hP : CallClosed E P) (hmeasure : P .measure)

include hP

theorem push_gate (hc : c.AllWith P) {g : Gate} {groups : List Target}
    (h : c.push (.gate g) groups = .ok c') : c'.AllWith P :=
  hc.push (hP.gate g) h

theorem push_controlledGate (hc : c.AllWith P) {g : Gate} {groups : List Target}
    (h : c.push (.controlledGate 1 g) groups = .ok c') : c'.AllWith P :=
  hc.push (hP.controlledGate Nat.one_pos g) h

theorem qftRow (hc : c.AllWith P) {n i : Nat} (h : Circuit.qftRow n c i = .ok c') :
    c'.AllWith P := by
  obtain ⟨c₁, h₁, h⟩ := bind_eq_ok_iff.1 h
  exact foldlM_keeps (fun _ _ _ hc hnext => push_controlledGate hP hc hnext)
    (push_gate hP hc h₁) h

theorem qft {n : Nat} (h : Circuit.qft n = .ok c) : c.AllWith P := by
  obtain ⟨c₁, h₁, h⟩ := bind_eq_ok_iff.1 h
  have hrows : c₁.AllWith P :=
    foldlM_keeps (fun _ _ _ hc hnext => qftRow hP hc hnext) (empty "qft") h₁
  exact foldlM_keeps (fun _ _ _ hc hnext => push_gate hP hc hnext) hrows h

include hmeasure

theorem bell (h : Circuit.bell = .ok c) : c.AllWith P := by
  obtain ⟨c₁, h₁, h⟩ := bind_eq_ok_iff.1 h
  obtain ⟨c₂, h₂, h⟩ := bind_eq_ok_iff.1 h
  have hfirst : c₁.AllWith P := push_gate hP (empty "bell") h₁
  exact (push_controlledGate hP hfirst h₂).push hmeasure h

theorem ghz {n : Nat} (h : Circuit.ghz n = .ok c) : c.AllWith P := by
  unfold Circuit.ghz at h
  split at h
  · obtain rfl := Except.ok.inj h
    exact empty "ghz"
  · obtain ⟨c₁, h₁, h⟩ := bind_eq_ok_iff.1 h
    obtain ⟨c₂, h₂, h⟩ := bind_eq_ok_iff.1 h
    have hchain : c₂.AllWith P :=
      foldlM_keeps (fun _ _ _ hc hnext => push_controlledGate hP hc hnext)
        (push_gate hP (empty "ghz") h₁) h₂
    exact hchain.push hmeasure h

end Standard

section Lowering

variable (hP : CallClosed E P) {config : LoweringConfig} {current : List Instruction}

include hP

theorem lowerInstruction {inst : Instruction} (hinst : inst.ValidWith P)
    (h : config.lowerInstruction inst = .ok c) : c.AllWith P := by
  obtain ⟨emitted, hemitted, hc⟩ := bind_eq_ok_iff.1 h
  obtain rfl := Except.ok.inj hc
  have hparts := handsOut_lower hP hinst config.ancillae
  rwa [result_eq_ok_iff.1 hemitted] at hparts

/-- One pass. -/
theorem of_pass (hcurrent : ∀ inst ∈ current, inst.ValidWith P)
    {result : List Instruction × Bool} (h : config.pass current = .ok result) :
    ∀ inst ∈ result.1, inst.ValidWith P := by
  induction current generalizing result with
  | nil =>
      obtain rfl := Except.ok.inj h
      simp
  | cons inst rest ih =>
      obtain ⟨hinst, hrest⟩ := List.forall_mem_cons.1 hcurrent
      obtain ⟨lowered, others, hlowered, hothers, rfl⟩ :=
        LoweringConfig.pass_cons_eq_ok_iff.1 h
      have hparts := handsOut_lower hP hinst config.ancillae
      rw [hlowered] at hparts
      exact List.forall_mem_append.2 ⟨hparts, ih hrest hothers⟩

/-- Any number of passes. -/
theorem of_fixWithin {passes : Nat} (hcurrent : ∀ inst ∈ current, inst.ValidWith P)
    {fixed : List Instruction} (h : config.fixWithin passes current = .ok fixed) :
    ∀ inst ∈ fixed, inst.ValidWith P := by
  induction passes generalizing current with
  | zero => cases h
  | succ passes ih =>
      obtain ⟨result, hpass, hlast | hmore⟩ := LoweringConfig.fixWithin_eq_ok_iff.1 h
      · exact hlast.2 ▸ of_pass hP hcurrent hpass
      · exact ih (of_pass hP hcurrent hpass) hmore.2

theorem lowerCircuit (hc : c.AllWith P) (h : config.lowerCircuit c = .ok c') : c'.AllWith P := by
  obtain ⟨result, hpass, hc'⟩ := bind_eq_ok_iff.1 h
  obtain rfl := Except.ok.inj hc'
  exact of_pass hP hc hpass

theorem lowerUntilFixed (hc : c.AllWith P) (h : config.lowerUntilFixed c = .ok c') :
    c'.AllWith P :=
  of_fixWithin hP hc (LoweringConfig.lowerUntilFixed_eq_ok_iff.1 h).2

end Lowering

end Circuit.AllWith

end GateAlgebra
