import GateAlgebra.Proofs.Convergence
import GateAlgebra.Proofs.ExpansionExact
import GateAlgebra.Proofs.Placement
/-!
Lowered gates.  Expanding a gate again and again ends in gates without a rule, and on any qubits
of a register these do what the gate does.
-/

namespace GateAlgebra

/-- A gate without a rule, a controlled X gate or an inverse phase gate. -/
inductive Operation.Bare : Operation → Prop where
  | gate {g : Gate} (h : g.isComposite = false) : Bare (.gate g)
  | cx : Bare .cx
  | sdg : Bare .sdg

section Lowered

open Circuit

variable {reading : Reading} {n : Nat} {free : List Nat} {inst : Instruction}

theorem exists_forall₂ {α β : Type} {r : α → β → Prop} {items : List α}
    (h : ∀ item ∈ items, ∃ image, r item image) : ∃ images, List.Forall₂ r items images := by
  induction items with
  | nil => exact ⟨[], .nil⟩
  | cons item rest ih =>
      obtain ⟨⟨image, hhead⟩, hrest⟩ := List.forall_mem_cons.1 h
      obtain ⟨images, himages⟩ := ih hrest
      exact ⟨image :: images, .cons hhead himages⟩

/-- The list does to every state of a register what the instruction does. -/
def Instruction.SameAs (leaves : LeafMatrices ℂ) (inst : Instruction) (emitted : List Instruction) :
    Prop :=
  ∀ n, (∃ m, inst.ActsBy leaves n m) → ∀ state : DenseMatrix ℂ, state.rows = dimension n →
    emitted.foldlM (applyInstruction leaves n) state = applyInstruction leaves n state inst

theorem Instruction.SameAs.refl (leaves : LeafMatrices ℂ) (inst : Instruction) :
    inst.SameAs leaves [inst] := by
  intro n _ state _
  change applyInstruction leaves n state inst >>= pure = _
  rw [bind_pure]

/-- Lists one after the other do what their instructions do. -/
theorem foldlM_flatten_of_sameAs {leaves : LeafMatrices ℂ} {insts : List Instruction}
    {lists : List (List Instruction)}
    (hlists : List.Forall₂ (fun inst list => inst.SameAs leaves list) insts lists)
    (hacts : ∀ inst ∈ insts, ∃ m, inst.ActsBy leaves n m) {state : DenseMatrix ℂ}
    (hstate : state.rows = dimension n) :
    lists.flatten.foldlM (applyInstruction leaves n) state =
      insts.foldlM (applyInstruction leaves n) state := by
  induction hlists generalizing state with
  | nil => rfl
  | @cons inst list insts lists hhead _ ih =>
      obtain ⟨⟨m, hm⟩, hrest⟩ := List.forall_mem_cons.1 hacts
      rw [List.flatten_cons, List.foldlM_append, List.foldlM_cons, hhead n ⟨m, hm⟩ state hstate,
        applyInstruction_of_actsBy hm hstate]
      exact ih hrest hstate

/-- No rule applies to what is bare, except that the inverse of a phase gate is looked into. -/
theorem lowers_bare (hbare : inst.operation.Bare) (hvalid : inst.Valid) :
    Lowers free inst [inst] := by
  obtain ⟨op, hop⟩ : ∃ op, inst.operation = op := ⟨_, rfl⟩
  rw [hop] at hbare
  cases hbare with
  | gate h =>
      refine LowerStep.lowers hvalid (.keep ?_ ?_ (.gate hop (Gate.isComposite_eq_false_iff.1 h)))
      · simp [hop, Operation.kind]
      · simp [hop, Operation.kind]
  | cx =>
      refine LowerStep.lowers hvalid (.keep ?_ ?_ (.single hop ⟨rfl, rfl⟩))
      · rw [hop]
        decide
      · rw [hop]
        decide
  | sdg =>
      have heq : inst = Operation.sdg.on inst.qubits := hvalid.eq_on hop rfl rfl
      have hlength := hvalid.qubits_length
      rw [hop] at hlength
      have hinner : ((Operation.gate .s).on inst.qubits).Valid :=
        Instruction.valid_of_isUnitary rfl hlength hvalid.qubits_nodup
      refine LowerStep.lowers hvalid (.invert hop hinner (lowers_gate rfl) (.cons ?_ .nil))
      rw [heq]
      exact (Instruction.inverse_eq_ok_iff rfl).2 rfl

/-- What a gate expands to, lowered step by step, does what the gate does. -/
theorem sameAs_flatten {g : Gate} {steps : List (Operation × List Nat)}
    {lists : List (List Instruction)} (hop : inst.operation = .gate g)
    (hlength : inst.qubits.length = g.numQubits)
    (hsteps : g.expansionSteps inst.qubits = some steps)
    (hlists : List.Forall₂ (fun step list => (step.1.on step.2).SameAs (.exact reading) list)
      steps lists) : inst.SameAs (.exact reading) lists.flatten := by
  rintro n ⟨m, hm⟩ state hstate
  have hmatrix : Trigonometry.exact.gateMatrix reading.angle g = .ok m := by
    have hmatrix := hm.matrix
    rwa [hop] at hmatrix
  have hacts : ∀ inst ∈ steps.map fun step => step.1.on step.2,
      ∃ m, inst.ActsBy (.exact reading) n m :=
    List.forall_mem_map.2 (actsBy_expansion hmatrix hlength hm.below hsteps)
  rw [applyInstruction_of_actsBy hm hstate,
    foldlM_flatten_of_sameAs (List.forall₂_map_left_iff.2 hlists) hacts hstate,
    foldlM_expansion hmatrix hlength hm.below hsteps hstate]

/-- Gates, controlled X gates and inverse phase gates are lowered to bare ones that do the
same. -/
theorem exists_lowers_of_isStep (hstep : IsStep inst.operation) (hvalid : inst.Valid) :
    ∃ emitted, Lowers free inst emitted ∧ (∀ part ∈ emitted, part.operation.Bare) ∧
      inst.SameAs (.exact reading) emitted := by
  -- every step of an expansion is of lower rank
  induction hrank : inst.operation.rank using Nat.strong_induction_on generalizing inst with
  | h rank ih =>
      have hself : inst.operation.Bare → ∃ emitted, Lowers free inst emitted ∧
          (∀ part ∈ emitted, part.operation.Bare) ∧ inst.SameAs (.exact reading) emitted :=
        fun h => ⟨[inst], lowers_bare h hvalid, List.forall_mem_singleton.2 h, .refl _ inst⟩
      obtain ⟨op, hop⟩ : ∃ op, inst.operation = op := ⟨_, rfl⟩
      rw [hop] at hstep hself hrank
      cases hstep with
      | cx => exact hself .cx
      | sdg => exact hself .sdg
      | gate g =>
          cases hsteps : g.expansionSteps inst.qubits with
          | none => exact hself (.gate (Gate.isComposite_eq_false_iff.2 hsteps))
          | some steps =>
              have hlength : inst.qubits.length = g.numQubits := by
                rw [hvalid.qubits_length, hop]
                rfl
              have heach : ∀ step ∈ steps, ∃ list, (step.1.on step.2).Valid ∧
                  Lowers free (step.1.on step.2) list ∧ (∀ part ∈ list, part.operation.Bare) ∧
                    (step.1.on step.2).SameAs (.exact reading) list := by
                intro step hmem
                have hvalid' :=
                  valid_of_expansionSteps hlength hvalid.qubits_nodup hsteps step hmem
                have hlt := Operation.rank_of_expansionSteps hsteps step hmem
                obtain ⟨list, hlist⟩ := ih _ (hrank ▸ hlt)
                  ((isStep_of_expansionSteps hsteps).2 step hmem).1 hvalid' rfl
                exact ⟨list, hvalid', hlist⟩
              obtain ⟨lists, hlists⟩ := exists_forall₂ heach
              refine ⟨lists.flatten, LowerStep.lowers hvalid (.expand hop hsteps ?_), ?_, ?_⟩
              · exact hlists.imp fun step list hlist => ⟨hlist.1, hlist.2.1⟩
              · exact forall_mem_flatten hlists fun step _ list hlist => hlist.2.2.1
              · exact sameAs_flatten hop hlength hsteps (hlists.imp fun _ _ hlist => hlist.2.2.2)

end Lowered

section Exact

open Circuit DenseMatrix

/-- A gate with a rule expands to instructions whose unitary, on any distinct qubits of a register,
is that of the gate, its global phase included.  So is the unitary of the lowered gate, which
consists of gates without a rule. -/
theorem expansion_is_exact (reading : Reading) {g : Gate} (hrule : g.isComposite = true)
    {m : DenseMatrix ℂ} (hm : (Operation.gate g).matrixOver (.exact reading) = .ok m)
    {n : Nat} {qubits : List Nat} (hlength : qubits.length = g.numQubits)
    (hbelow : TargetsBelow n qubits) (name : String) (ancillae : List Nat) :
    ∃ steps emitted, g.expansion qubits = .ok (some steps) ∧
      ((Operation.gate g).on qubits).lower ancillae = .done emitted ∧
      (∀ part ∈ emitted, part.operation.Bare) ∧
      (⟨name, steps⟩ : Circuit).unitaryOver (.exact reading) n =
        .ok ((identity (dimension n)).applyGate m qubits n) ∧
      (⟨name, emitted⟩ : Circuit).unitaryOver (.exact reading) n =
        .ok ((identity (dimension n)).applyGate m qubits n) ∧
      (n = g.numQubits → qubits = List.range n →
        (identity (dimension n)).applyGate m qubits n = m) := by
  have hmatrix : Trigonometry.exact.gateMatrix reading.angle g = .ok m := hm
  have hacts := actsBy_gate reading hmatrix hbelow hlength
  have hvalid : ((Operation.gate g).on qubits).Valid :=
    Instruction.valid_of_isUnitary rfl hlength hbelow.nodup
  obtain ⟨steps, hsteps⟩ : ∃ steps, g.expansionSteps qubits = some steps := by
    rw [← Option.ne_none_iff_exists', Ne, ← Gate.isComposite_eq_false_iff, hrule]
    decide
  have hexpansion := expansion_eq_ok_iff.2 (Or.inr ⟨steps, hsteps,
    valid_of_expansionSteps hlength hbelow.nodup hsteps, rfl⟩)
  obtain ⟨emitted, hlowers, hbare, hsame⟩ :=
    @exists_lowers_of_isStep reading _ _ (.gate g) hvalid
  refine ⟨_, emitted, hexpansion, LoweringConfig.lower_eq_done_of_lowers hvalid hlowers, hbare,
    ?_, ?_, ?_⟩
  · exact foldlM_expansion hmatrix hlength hbelow hsteps rfl
  · exact (hsame n ⟨m, hacts⟩ _ rfl).trans (applyInstruction_of_actsBy hacts rfl)
  · rintro rfl rfl
    have hside := hasSide_gateMatrix hmatrix rfl
    exact applyGate_range hside.isSquare hside.cols

/-- An exchange with a phase, on the last and the first of three qubits. -/
theorem expansion_is_exact_iswap :
    ∃ steps emitted, Gate.iswap.expansion [2, 0] = .ok (some steps) ∧
      ((Operation.gate .iswap).on [2, 0]).lower [] = .done emitted ∧
      (∀ part ∈ emitted, part.operation.Bare) ∧
      (⟨"", steps⟩ : Circuit).unitaryOver (.exact .plain) 3 =
        .ok ((identity 8).applyGate (Trigonometry.exchange Complex.I) [2, 0] 3) ∧
      (⟨"", emitted⟩ : Circuit).unitaryOver (.exact .plain) 3 =
        .ok ((identity 8).applyGate (Trigonometry.exchange Complex.I) [2, 0] 3) := by
  obtain ⟨steps, emitted, hsteps, hlower, hbare, hunitary, hlowered, -⟩ :=
    @expansion_is_exact .plain .iswap rfl _ rfl 3 [2, 0] rfl ⟨by decide, by decide⟩ "" []
  exact ⟨steps, emitted, hsteps, hlower, hbare, hunitary, hlowered⟩

end Exact

end GateAlgebra
