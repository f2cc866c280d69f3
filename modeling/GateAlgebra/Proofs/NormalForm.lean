import GateAlgebra.Proofs.Pass
import GateAlgebra.Proofs.Stable
/-!
Normal forms.  What passes come to is changed by no further pass, and an operation that no
pass changes is in normal form on every level that lowering looks at.
-/

namespace GateAlgebra

/-- The gates that are made of simpler ones. -/
def Gate.isComposite : Gate → Bool
  | swap | iswap | rxx _ | ryy _ | rzz _ | u _ _ _ => true
  | i | x | y | z | h | s | t | sx | rx _ | ry _ | rz _ | p _ => false

theorem Gate.isComposite_eq_false_iff {g : Gate} {qubits : List Nat} :
    g.isComposite = false ↔ g.expansionSteps qubits = none := by
  cases g <;> simp [isComposite, expansionSteps]

/-- There is no rule for the operation: it is not repeated, no composite gate, and neither a
whole power nor one that is a gate.  An inverse is of something in normal form that does not
take the inverse inside, and several controls are on X, where they are two, or on something in
normal form that acts on more qubits than one. -/
def Operation.Normal : Operation → Prop
  | gate g => g.isComposite = false
  | controlled n w => if w.numQubits = 1 then n = 1 ∨ n = 2 ∧ w = gate .x else w.Normal
  | powered e w => e.natural? = none ∧ ∀ g, w = gate g → g.root? e = none
  | inverted w => w.Normal ∧ w.kind ∉ [.inverted, .controlled, .repeated]
  | repeated _ _ => False
  | custom _ | measure | reset | barrier _ | channel _ | observable _ | expectation _ => True

section Stable

variable {free : List Nat}

theorem Operation.kind_of_invert_eq {w : Operation} (h : w.invert = .inverted w) :
    w.kind ∉ [.inverted, .controlled, .repeated] := by
  cases w with
  | inverted v =>
      have hrank := congrArg rank h
      have hpositive := v.rank_pos
      simp only [invert, rank] at hrank
      omega
  | controlled n v => cases h
  | repeated n v => cases h
  | _ => simp [kind]

/-- A valid instruction that is equal to itself and is lowered to itself is in normal form. -/
theorem Lowers.normal {inst : Instruction} (hvalid : inst.Valid)
    (hself : (inst.operation == inst.operation) = true) (h : Lowers free inst [inst]) :
    inst.operation.Normal := by
  obtain ⟨op, qubits, bits, zvars⟩ := inst
  induction op generalizing qubits bits zvars with
  | gate g => exact Gate.isComposite_eq_false_iff.2 (h.stable_gate rfl)
  | controlled n w ih =>
      rw [Operation.controlled_beq, Bool.and_eq_true] at hself
      rw [Operation.Normal]
      rcases h.stable_controlled hvalid rfl hself.2 with
        ⟨hqubit, hfew⟩ | ⟨hmany, hvalidW, hstable⟩
      · rwa [if_pos hqubit]
      · rw [if_neg hmany]
        exact ih _ _ _ hvalidW hself.2 hstable
  | powered e w ih =>
      rw [Operation.powered_beq, Bool.and_eq_true] at hself
      obtain ⟨hnone, hroot⟩ := h.stable_powered hvalid rfl hself.2
      refine ⟨hnone, ?_⟩
      rintro g rfl
      exact hroot
  | inverted w ih =>
      rw [Operation.inverted_beq] at hself
      obtain ⟨hvalidW, hstable, hinvert⟩ := h.stable_inverted rfl
      exact ⟨ih _ _ _ hvalidW hself hstable, Operation.kind_of_invert_eq hinvert⟩
  | repeated n w ih => exact absurd h (Lowers.not_stable_repeated rfl)
  | _ => exact trivial

end Stable

theorem Instruction.beq_iff {inst other : Instruction} :
    (inst == other) = true ↔ (inst.operation == other.operation) = true ∧
      inst.qubits = other.qubits ∧ inst.bits = other.bits ∧ inst.zvars = other.zvars := by
  have hunfold : (inst == other) = (inst.operation == other.operation &&
      (inst.qubits == other.qubits && (inst.bits == other.bits &&
        inst.zvars == other.zvars))) := rfl
  simp [hunfold]

namespace LoweringConfig

variable {config : LoweringConfig} {current : List Instruction}

/-- A pass without a change hands out what it was given, and every instruction is lowered to
itself. -/
theorem stable_of_pass (hvalid : ∀ inst ∈ current, inst.Valid) {next : List Instruction}
    (h : config.pass current = .ok (next, false)) :
    next = current ∧ ∀ inst ∈ current,
      inst.lower config.ancillae = .done [inst] ∧ (inst == inst) = true := by
  induction current generalizing next with
  | nil =>
      obtain ⟨rfl, -⟩ := Prod.mk.inj (Except.ok.inj h)
      simp
  | cons inst rest ih =>
      obtain ⟨hinst, hrest⟩ := List.forall_mem_cons.1 hvalid
      obtain ⟨lowered, others, hlowered, hothers, hresult⟩ := pass_cons_eq_ok_iff.1 h
      obtain ⟨rfl, hchanged⟩ := Prod.mk.inj hresult
      rw [eq_comm, Bool.or_eq_false_iff] at hchanged
      obtain ⟨only, rfl, hsame⟩ := isChanged_eq_false_iff.1 hchanged.1
      have hdominates := (Instruction.lowers_of_lower hlowered).dominates hinst
      obtain rfl := hdominates.eq_of_beq (Instruction.beq_iff.1 hsame).1
      have hpass : config.pass rest = .ok (others.1, false) := by rw [hothers, ← hchanged.2]
      obtain ⟨hnext, hall⟩ := ih hrest hpass
      refine ⟨by rw [hnext, List.singleton_append], ?_⟩
      exact List.forall_mem_cons.2 ⟨⟨hlowered, hsame⟩, hall⟩

/-- Whatever passes come to within their number is lowered to itself. -/
theorem stable_of_fixWithin {passes : Nat} (hvalid : ∀ inst ∈ current, inst.Valid)
    {fixed : List Instruction} (h : config.fixWithin passes current = .ok fixed) :
    ∀ inst ∈ fixed, inst.Valid ∧ inst.lower config.ancillae = .done [inst] ∧
      (inst == inst) = true := by
  induction passes generalizing current with
  | zero => cases h
  | succ passes ih =>
      obtain ⟨⟨next, changed⟩, hpass, ⟨hunchanged, hnext⟩ | ⟨-, hrest⟩⟩ :=
        fixWithin_eq_ok_iff.1 h
      · dsimp only at hunchanged hnext
        rw [hunchanged, hnext] at hpass
        obtain ⟨rfl, hstable⟩ := stable_of_pass hvalid hpass
        exact fun inst hinst => ⟨hvalid inst hinst, hstable inst hinst⟩
      · exact ih (pass_valid hvalid hpass) hrest

/-- A circuit that passes come to is changed neither by another pass nor by any number of
them, and all of its operations are in normal form. -/
theorem normal_of_lowerUntilFixed {c fixed : Circuit} (hvalid : ∀ inst ∈ c.instructions, inst.Valid)
    (h : config.lowerUntilFixed c = .ok fixed) :
    config.lowerCircuit fixed = .ok fixed ∧
    (∀ passes, 1 ≤ passes →
      ({ config with maxPasses := passes } : LoweringConfig).lowerUntilFixed fixed = .ok fixed) ∧
    ∀ inst ∈ fixed.instructions, inst.operation.Normal := by
  have hstable := stable_of_fixWithin hvalid (lowerUntilFixed_eq_ok_iff.1 h).2
  have hpass : ∀ passes, ({ config with maxPasses := passes } : LoweringConfig).pass
      fixed.instructions = .ok (fixed.instructions, false) :=
    fun passes => pass_of_stable fun inst hinst => (hstable inst hinst).2
  refine ⟨?_, ?_, ?_⟩
  · rw [lowerCircuit, hpass config.maxPasses]
    rfl
  · intro passes hpasses
    obtain ⟨more, rfl⟩ := Nat.exists_eq_succ_of_ne_zero (Nat.one_le_iff_ne_zero.1 hpasses)
    exact lowerUntilFixed_eq_ok_iff.2 ⟨rfl, fixWithin_eq_ok_iff.2
      ⟨_, hpass (more + 1), Or.inl ⟨rfl, rfl⟩⟩⟩
  · intro inst hinst
    obtain ⟨hinstValid, hlower, hself⟩ := hstable inst hinst
    exact (Instruction.lowers_of_lower hlower).normal hinstValid (Instruction.beq_iff.1 hself).1

section Exchange

def exchangeSteps : List Instruction :=
  [Operation.cx.on [0, 1], Operation.cx.on [1, 0], Operation.cx.on [0, 1]]

theorem lower_exchange : ((Operation.gate .swap).on [0, 1]).lower [] = .done exchangeSteps := by
  have hsteps : Gate.expansion .swap [0, 1] = .ok (some exchangeSteps) := by
    have hcx : ∀ step ∈ [(Operation.cx, [0, 1]), (Operation.cx, [1, 0]), (Operation.cx, [0, 1])],
        (step.1.on step.2).Valid := by
      simp only [List.forall_mem_cons, List.not_mem_nil, false_imp_iff, implies_true, and_true]
      and_intros <;> exact Instruction.valid_of_isUnitary rfl rfl (by decide)
    rw [Gate.expansion]
    simp only [Gate.expansionSteps]
    exact congrArg _ (instructions_eq_ok_iff.2 ⟨rfl, hcx⟩)
  change lowerGate _ ((Operation.gate .swap).on [0, 1]) .swap = _
  rw [lowerGate, Operation.qubits_on, hsteps]
  rfl

/-- An exchange and a measurement. -/
def exchangeThenMeasure : Circuit :=
  ⟨"", [(Operation.gate .swap).on [0, 1], ⟨.measure, [0], [0], []⟩]⟩

/-- What an exchange and a measurement become. -/
def exchangedThenMeasure : List Instruction :=
  exchangeSteps ++ [⟨.measure, [0], [0], []⟩]

theorem lower_measure : (⟨.measure, [0], [0], []⟩ : Instruction).lower [] =
    .done [⟨.measure, [0], [0], []⟩] :=
  lower_of_passed (by simp [Operation.kind]) []

theorem pass_exchangeThenMeasure :
    LoweringConfig.pass {} exchangeThenMeasure.instructions = .ok (exchangedThenMeasure, true) :=
  pass_cons_eq_ok_iff.2 ⟨_, _, lower_exchange,
    pass_cons_eq_ok_iff.2 ⟨_, _, lower_measure, rfl, rfl⟩, rfl⟩

theorem pass_exchangedThenMeasure :
    LoweringConfig.pass {} exchangedThenMeasure = .ok (exchangedThenMeasure, false) := by
  have hcx : ∀ a b : Nat, (Operation.cx.on [a, b]).lower [] = .done [Operation.cx.on [a, b]] :=
    fun a b => rfl
  refine pass_of_stable ?_
  simp only [exchangedThenMeasure, exchangeSteps, List.cons_append, List.nil_append,
    List.forall_mem_cons, List.not_mem_nil, false_imp_iff, implies_true, and_true]
  exact ⟨⟨hcx 0 1, rfl⟩, ⟨hcx 1 0, rfl⟩, ⟨hcx 0 1, rfl⟩, lower_measure, rfl⟩

theorem valid_exchangeThenMeasure : ∀ inst ∈ exchangeThenMeasure.instructions, inst.Valid := by
  simp only [exchangeThenMeasure, List.forall_mem_cons, List.not_mem_nil, false_imp_iff,
    implies_true, and_true]
  exact ⟨Instruction.valid_of_isUnitary rfl rfl (by decide),
    ⟨by simp, rfl, rfl, rfl, by simp, by simp, by simp⟩⟩

/-- An exchange and a measurement become normal in two passes. -/
theorem lowerUntilFixed_exchangeThenMeasure :
    LoweringConfig.lowerUntilFixed {} exchangeThenMeasure = .ok ⟨"", exchangedThenMeasure⟩ := by
  refine lowerUntilFixed_eq_ok_iff.2 ⟨rfl, ?_⟩
  change LoweringConfig.fixWithin {} (14 + 1 + 1) _ = _
  exact fixWithin_eq_ok_iff.2 ⟨_, pass_exchangeThenMeasure, Or.inr ⟨rfl,
    fixWithin_eq_ok_iff.2 ⟨_, pass_exchangedThenMeasure, Or.inl ⟨rfl, rfl⟩⟩⟩⟩

/-- Three controlled X gates and a measurement are a normal form. -/
theorem normal_of_exchangeThenMeasure :
    LoweringConfig.lowerUntilFixed {} exchangeThenMeasure = .ok ⟨"", exchangedThenMeasure⟩ ∧
    LoweringConfig.lowerCircuit {} ⟨"", exchangedThenMeasure⟩ = .ok ⟨"", exchangedThenMeasure⟩ ∧
    ∀ inst ∈ exchangedThenMeasure, inst.operation.Normal := by
  obtain ⟨hagain, -, hnormal⟩ :=
    normal_of_lowerUntilFixed valid_exchangeThenMeasure lowerUntilFixed_exchangeThenMeasure
  exact ⟨lowerUntilFixed_exchangeThenMeasure, hagain, hnormal⟩

end Exchange

end LoweringConfig

end GateAlgebra
