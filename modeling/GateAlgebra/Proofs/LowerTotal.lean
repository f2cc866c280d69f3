import GateAlgebra.Proofs.Comparable
import GateAlgebra.Proofs.Overflow
import GateAlgebra.Proofs.Pass
import GateAlgebra.Proofs.Total
/-!
Lowering is total.  As long as no exponent grows beyond the finite numbers on the way, no NaN
comes up, and every well-formed instruction without NaN is lowered to its end.
-/

namespace GateAlgebra

/-- What the modifiers are around holds no NaN. -/
def Operation.Comparable (op : Operation) : Prop :=
  (op.innermost == op.innermost) = true

/-- Lowering comes to no exponent that is not finite. -/
def Instruction.KeepsFinite (free : List Nat) (inst : Instruction) : Prop :=
  ∀ other, Relation.ReflTransGen (Calls free) inst other → other.operation.FiniteExponents

section Comparable

variable {free : List Nat} {inst other : Instruction}

theorem Operation.comparable_of_beq_self {op : Operation} (h : (op == op) = true) :
    op.Comparable :=
  (Operation.beq_self_iff.1 h).2

theorem Operation.comparable_of_expansionSteps {g : Gate} {qubits : List Nat}
    {steps : List (Operation × List Nat)} (hg : (Operation.gate g).Comparable)
    (h : g.expansionSteps qubits = some steps) : ∀ step ∈ steps, step.1.Comparable := by
  unfold Operation.Comparable at hg ⊢
  cases g <;> simp only [Gate.expansionSteps, reduceCtorEq, Option.some.injEq] at h
  all_goals
    subst h
    simp only [List.forall_mem_cons, List.not_mem_nil, false_imp_iff, implies_true, and_true]
  case swap => exact ⟨rfl, rfl, rfl⟩
  case iswap =>
    have hquarter : (backQuarter == backQuarter) = true := rfl
    exact ⟨hquarter, hquarter⟩
  case rzz angle => exact ⟨rfl, hg, rfl⟩
  case rxx angle => exact ⟨rfl, rfl, hg, rfl, rfl⟩
  case ryy angle => exact ⟨rfl, rfl, rfl, rfl, hg, rfl, rfl, rfl, rfl⟩
  case u theta phi lambda =>
    change (theta == theta && (phi == phi && lambda == lambda)) = true at hg
    simp only [Bool.and_eq_true] at hg
    exact ⟨hg.2.2, hg.1, hg.2.1⟩

theorem Operation.comparable_of_root? {w : Operation} {e : Exponent} {root : Gate}
    (he : e.toFloat.isFinite = true) (h : w.root? e = some root) :
    (Operation.gate root).Comparable := by
  cases w with
  | gate g => exact Gate.root?_beq_self he h
  | _ => cases h

theorem IsRung.comparable {op rung : Operation} (h : IsRung op rung) (hop : op.Comparable) :
    rung.Comparable := by
  cases h with
  | toggle h =>
      simp only [List.mem_cons, List.not_mem_nil, or_false] at h
      rcases h with rfl | rfl | rfl <;> rfl
  | root k => simpa [Operation.Comparable] using hop
  | unroot k => simpa [Operation.Comparable] using hop

namespace Instruction.KeepsFinite

theorem finiteExponents (h : inst.KeepsFinite free) : inst.operation.FiniteExponents :=
  h inst .refl

theorem calls (h : inst.KeepsFinite free) (hcalls : Calls free inst other) :
    other.KeepsFinite free :=
  fun last hlast => h last (.head hcalls hlast)

theorem exponent (h : inst.KeepsFinite free) {e : Exponent} {w : Operation}
    (hop : inst.operation = .powered e w) : e.toFloat.isFinite = true := by
  have hall := h.finiteExponents
  rw [hop] at hall
  exact hall e List.mem_cons_self

/-- What is finite itself and calls nothing that is not. -/
theorem of_calls (hinst : inst.operation.FiniteExponents)
    (h : ∀ other, Calls free inst other → other.KeepsFinite free) : inst.KeepsFinite free := by
  intro other hother
  rcases hother.cases_head with rfl | ⟨next, hcalls, hnext⟩
  · exact hinst
  · exact h next hcalls other hnext

end Instruction.KeepsFinite

/-- One level of lowering makes no NaN. -/
theorem comparable_of_lowerStep {emitted : List Instruction} (hinst : inst.Valid)
    (hcomparable : inst.operation.Comparable) (hfinite : inst.KeepsFinite free)
    (h : LowerStep (fun part list => Calls free inst part ∧ Lowers free part list ∧
      (part.Valid → part.operation.Comparable → part.KeepsFinite free →
        ∀ last ∈ list, last.operation.Comparable)) free inst emitted) :
    ∀ part ∈ emitted, part.operation.Comparable := by
  cases h with
  | keep => exact List.forall_mem_singleton.2 hcomparable
  | expand hop hsteps hlists =>
      rw [hop] at hcomparable
      refine forall_mem_flatten hlists fun step hstep list hlist part hpart => ?_
      exact hlist.2.2.2 hlist.1
        (Operation.comparable_of_expansionSteps hcomparable hsteps step hstep)
        (hfinite.calls hlist.2.1) part hpart
  | invert hop hvalid hsub hinverses =>
      rw [hop] at hcomparable
      refine forall_mem_of_forall₂ hinverses fun part hpart inverse hinverse => ?_
      have hpart := hsub.2.2 hvalid hcomparable (hfinite.calls hsub.1) part
        (List.mem_reverse.1 hpart)
      rcases inverse_unitary_cases hinverse with rfl | ⟨-, rfl⟩
      · exact hpart
      · simpa [Operation.Comparable] using hpart
  | blocks hop hwidth hlists =>
      rw [hop] at hcomparable
      refine forall_mem_flatten hlists fun block hblock list hlist part hpart => ?_
      exact hlist.2.2.2 hlist.1 hcomparable (hfinite.calls hlist.2.1) part hpart
  | zeroth => simp
  | times hop hn hvalid hsub =>
      rw [hop] at hcomparable
      intro part hpart
      obtain ⟨list, hlist, hmem⟩ := List.mem_flatten.1 hpart
      rw [List.eq_of_mem_replicate hlist] at hmem
      exact hsub.2.2 hvalid hcomparable (hfinite.calls hsub.1) part hmem
  | root hop hroot hvalid hsub =>
      exact hsub.2.2 hvalid (Gate.root?_beq_self (hfinite.exponent hop) hroot)
        (hfinite.calls hsub.1)
  | powerOf hop hvalid hsub hpowered hvalid' hsub' =>
      rw [hop] at hcomparable
      have honly := hsub.2.2 hvalid hcomparable (hfinite.calls hsub.1) _ List.mem_cons_self
      obtain ⟨-, rfl⟩ := Operation.power_eq_ok_iff.1 hpowered
      exact hsub'.2.2 hvalid' (by simpa [Operation.Comparable] using honly) (hfinite.calls hsub'.1)
  | controlX hn hop hemitted =>
      obtain ⟨target, -, hparts⟩ := rungs_controlledX hinst hop hemitted
      exact fun part hpart => (hparts part hpart).rung.comparable rfl
  | controlRoot hn hop hqubit hvalid hsub hsame hemitted =>
      rw [hop] at hcomparable
      obtain ⟨target, -, ⟨-, rfl, -⟩ | ⟨-, hparts⟩⟩ :=
        rungs_controlledRoot hinst hop hqubit hemitted
      · exact List.forall_mem_singleton.2 hcomparable
      · exact fun part hpart => (hparts part hpart).rung.comparable hcomparable
  | controlEach hop hvalid hsub hcontrolled =>
      rw [hop] at hcomparable
      refine forall_mem_of_forall₂ hcontrolled fun part hpart controlled hcontrol => ?_
      have hpart := hsub.2.2 hvalid hcomparable (hfinite.calls hsub.1) part hpart
      obtain ⟨-, -, -, rfl⟩ := controlInstruction_cases hcontrol
      simpa [Operation.Comparable] using hpart

/-- No NaN comes up on the way to what an instruction is lowered to. -/
theorem Lowers.comparable {emitted : List Instruction} (h : Lowers free inst emitted)
    (hinst : inst.Valid) (hcomparable : inst.operation.Comparable)
    (hfinite : inst.KeepsFinite free) : ∀ part ∈ emitted, part.operation.Comparable := by
  refine Lowers.induction (P := fun inst emitted => inst.Valid → inst.operation.Comparable →
    inst.KeepsFinite free → ∀ part ∈ emitted, part.operation.Comparable)
    (fun inst emitted hstep hinst hcomparable hfinite => ?_) h hinst hcomparable hfinite
  exact comparable_of_lowerStep hinst hcomparable hfinite hstep

theorem Calls.comparable (h : Calls free inst other) (hcomparable : inst.operation.Comparable)
    (hfinite : inst.KeepsFinite free) :
    other.operation.Comparable := by
  cases h with
  | step hop hsteps hvalid hbefore =>
      rw [hop] at hcomparable
      exact Operation.comparable_of_expansionSteps hcomparable hsteps _ (by simp)
  | inverted hop hvalid => rwa [hop] at hcomparable
  | block hop => rwa [hop] at hcomparable
  | times hop => rwa [hop] at hcomparable
  | root hop hnone hroot => exact Operation.comparable_of_root? (hfinite.exponent hop) hroot
  | powered hop => rwa [hop] at hcomparable
  | powerOf hop hnone hroot hvalid hlowers hchanged hpowered hvalid' =>
      have hcalls : Calls free inst _ := .powered hop hnone hroot hvalid
      rw [hop] at hcomparable
      have honly := hlowers.comparable hvalid hcomparable (hfinite.calls hcalls) _
        List.mem_cons_self
      obtain ⟨-, rfl⟩ := Operation.power_eq_ok_iff.1 hpowered
      simpa [Operation.Comparable] using honly
  | controlled hop => rwa [hop] at hcomparable

/-- Everything that lowering comes to is equal to itself. -/
theorem beq_self_of_reaches (hinst : inst.Valid) (hcomparable : inst.operation.Comparable)
    (hfinite : inst.KeepsFinite free) (h : Relation.ReflTransGen (Calls free) inst other) :
    (other.operation == other.operation) = true := by
  induction h using Relation.ReflTransGen.head_induction_on with
  | refl => exact Operation.beq_self_of_finiteExponents hfinite.finiteExponents hcomparable
  | head hcalls _ ih =>
      exact ih hcalls.valid (hcalls.comparable hcomparable hfinite) (hfinite.calls hcalls)

end Comparable

section Powerless

variable {free : List Nat} {inst other : Instruction}

theorem IsStep.exponents_eq_nil {op : Operation} (h : IsStep op) : op.exponents = [] := by
  cases h <;> rfl

/-- Without a power, lowering comes to none. -/
theorem Calls.exponents_eq_nil (h : Calls free inst other)
    (hnone : inst.operation.exponents = []) : other.operation.exponents = [] := by
  cases h with
  | @step g before after step hop hsteps =>
      have hmem : step ∈ before ++ step :: after := by simp
      exact ((isStep_of_expansionSteps hsteps).2 step hmem).1.exponents_eq_nil
  | inverted hop | block hop | controlled hop => rwa [hop] at hnone
  | times hop | root hop | powered hop | powerOf hop =>
      rw [hop] at hnone
      cases hnone

theorem keepsFinite_of_exponents_eq_nil (hnone : inst.operation.exponents = []) :
    inst.KeepsFinite free := by
  intro other hother
  have hother : other.operation.exponents = [] := by
    induction hother with
    | refl => exact hnone
    | tail _ hcalls ih => exact hcalls.exponents_eq_nil ih
  simp [Operation.FiniteExponents, hother]

end Powerless

section Total

variable {free ancillae : List Nat} {inst : Instruction}

/-- Without NaN there is no power that lowering would take again and again. -/
theorem not_calls_self (hinst : inst.Valid) (hcomparable : inst.operation.Comparable)
    (hfinite : inst.KeepsFinite free) {other : Instruction}
    (h : Relation.ReflTransGen (Calls free) inst other) : ¬Calls free other other := by
  intro hcalls
  obtain ⟨e, w, hstalls⟩ := (calls_self_iff (valid_of_reaches hinst h)).1 hcalls
  have hself := beq_self_of_reaches hinst hcomparable hfinite h
  rw [hstalls.operation_eq, Operation.powered_beq, Bool.and_eq_true, hstalls.differs] at hself
  exact Bool.false_ne_true hself.2

/-- What is well-formed and no gate is handed out as it is. -/
theorem kind_of_not_isUnitary (hinst : inst.Valid) (hform : inst.operation.WellFormed)
    (h : inst.operation.isUnitary = false) :
    inst.operation.kind ∈ [.measure, .reset, .barrier, .channel, .expectation] :=
  hinst.kind_of_not_isUnitary (Operation.wellFormed_iff.1 hform).1 h

theorem Instruction.placed (hvalid : inst.Valid) (hform : inst.operation.WellFormed)
    (hunitary : inst.operation.isUnitary = true) (hancillae : ancillae.Nodup) :
    inst.Placed (inst.free ancillae) :=
  ⟨hvalid, hunitary, hform, inst.free_nodup hancillae,
    fun _ hq => (Instruction.mem_free_iff.1 hq).2⟩

/-- Lowering comes to its end. -/
theorem exists_lower (hinst : inst.Valid) (hform : inst.operation.WellFormed)
    (hcomparable : inst.operation.Comparable) (hancillae : ancillae.Nodup)
    (hfinite : inst.KeepsFinite (inst.free ancillae)) :
    ∃ emitted, inst.lower ancillae = .done emitted := by
  cases hunitary : inst.operation.isUnitary with
  | false => exact ⟨[inst], lower_of_passed (kind_of_not_isUnitary hinst hform hunitary) _⟩
  | true =>
      have hplaced := Instruction.placed hinst hform hunitary hancillae
      rw [inst.lower_eq]
      apply Emission.StopsOnly.exists_done
      intro stop hstop
      obtain rfl := lacksDepth_lowerWithin hplaced _ stop hstop
      exact finished_of_no_self_call hinst (Nat.le_refl _)
        (fun other hother => not_calls_self hinst hcomparable hfinite hother) hstop

/-- Every valid instruction that is well-formed and equal to itself, as it is without NaN, is
lowered to its end unless an exponent that lowering comes to is not finite.  Everything it is
lowered to is valid, a gate if it is one, and on qubits of the instruction or on ancillae that
the instruction does not act on. -/
theorem lowering_is_total (config : LoweringConfig) (hvalid : inst.Valid)
    (hform : inst.operation.WellFormed) (hself : (inst.operation == inst.operation) = true)
    (hancillae : config.ancillae.Nodup)
    (hfinite : inst.KeepsFinite (inst.free config.ancillae)) :
    ∃ emitted,
      inst.operation.lower inst.qubits inst.bits inst.zvars config.ancillae = .done emitted ∧
      config.lowerInstruction inst = .ok ⟨"decomposed", emitted⟩ ∧
      ∀ part ∈ emitted, part.Valid ∧
        (inst.operation.isUnitary = true → part.operation.isUnitary = true) ∧
        (∀ q ∈ part.qubits, q ∈ inst.qubits ∨ q ∈ config.ancillae ∧ q ∉ inst.qubits) ∧
        (part.bits = [] ∧ part.zvars = [] ∨
          inst.operation.isUnitary = false ∧ emitted = [inst]) := by
  obtain ⟨emitted, hlower⟩ := exists_lower hvalid hform
    (Operation.comparable_of_beq_self hself) hancillae hfinite
  refine ⟨emitted, (hvalid.lower_operation config.ancillae).trans hlower,
    LoweringConfig.lowerInstruction_eq_ok hlower, fun part hpart => ?_⟩
  have hyields := (Instruction.lowers_of_lower hlower).yields hvalid part hpart
  refine ⟨hyields.valid, hyields.unitary, fun q hq => ?_, ?_⟩
  · have hmem := List.mem_append.1 (hyields.qubits_subset hq)
    rwa [Instruction.mem_free_iff] at hmem
  · cases hunitary : inst.operation.isUnitary with
    | true =>
        have harity := Operation.arity_of_isUnitary (hyields.unitary hunitary)
        have hbits := hyields.valid.bits_length
        have hzvars := hyields.valid.zvars_length
        rw [harity] at hbits hzvars
        exact Or.inl ⟨List.eq_nil_of_length_eq_zero hbits, List.eq_nil_of_length_eq_zero hzvars⟩
    | false =>
        have hpassed := lower_of_passed (kind_of_not_isUnitary hvalid hform hunitary)
          config.ancillae
        exact Or.inr ⟨rfl, Emission.done_inj.1 (hlower.symm.trans hpassed)⟩

theorem Calls.of_inverted {w : Operation} {other : Instruction}
    (hop : inst.operation = .inverted w) (h : Calls free inst other) :
    other = w.on inst.qubits := by
  cases h
  case inverted v hop' hvalid => rw [Operation.inverted.inj (hop.symm.trans hop')]
  all_goals cases hop.symm.trans ‹inst.operation = _›

/-- Of a power that is a gate, only this gate is lowered. -/
theorem Calls.of_root {e : Exponent} {w : Operation} {root : Gate} {other : Instruction}
    (hop : inst.operation = .powered e w) (hnone : e.natural? = none)
    (hroot : w.root? e = some root) (h : Calls free inst other) :
    other = (Operation.gate root).on inst.qubits := by
  cases h
  case times p v n hop' hn hvalid =>
    obtain ⟨rfl, rfl⟩ := Operation.powered.inj (hop.symm.trans hop')
    cases hnone.symm.trans hn
  case root p v root' hop' hnone' hroot' hvalid =>
    obtain ⟨rfl, rfl⟩ := Operation.powered.inj (hop.symm.trans hop')
    rw [Option.some.inj (hroot.symm.trans hroot')]
  case powered p v hop' hnone' hroot' hvalid =>
    obtain ⟨rfl, rfl⟩ := Operation.powered.inj (hop.symm.trans hop')
    cases hroot.symm.trans hroot'
  case powerOf p v powered only hop' hnone' hroot' hvalid hlowers hchanged hpowered hvalid' =>
    obtain ⟨rfl, rfl⟩ := Operation.powered.inj (hop.symm.trans hop')
    cases hroot.symm.trans hroot'
  all_goals cases hop.symm.trans ‹inst.operation = _›

theorem keepsFinite_inverse_root :
    ((Operation.inverted (.powered .half (.gate .s))).on [0]).KeepsFinite free := by
  have hexponents : (Operation.powered .half (.gate .s)).FiniteExponents :=
    List.forall_mem_singleton.2 rfl
  refine .of_calls hexponents fun other hcalls => ?_
  obtain rfl := hcalls.of_inverted rfl
  refine .of_calls hexponents fun other hcalls => ?_
  obtain rfl : other = (Operation.gate .t).on [0] := hcalls.of_root rfl rfl rfl
  exact keepsFinite_of_exponents_eq_nil rfl

/-- The inverse of the square root of S is lowered to the inverse of T. -/
theorem lowering_is_total_inverse_root :
    ∃ emitted,
      (Operation.inverted (.powered .half (.gate .s))).lower [0] [] [] [2, 1] = .done emitted ∧
      ∀ part ∈ emitted, part.Valid ∧ part.operation.isUnitary = true := by
  have hvalid : ((Operation.inverted (.powered .half (.gate .s))).on [0]).Valid :=
    Instruction.valid_of_isUnitary rfl rfl (List.nodup_singleton 0)
  obtain ⟨emitted, hlower, -, hparts⟩ := lowering_is_total ⟨[2, 1], 16⟩ hvalid
    ⟨rfl, rfl, trivial⟩ rfl (by decide) keepsFinite_inverse_root
  exact ⟨emitted, hlower, fun part hpart => ⟨(hparts part hpart).1, (hparts part hpart).2.1 rfl⟩⟩

theorem wellFormed_controlled_stretchedTurn : (Operation.controlled 1 stretchedTurn).WellFormed :=
  ⟨Nat.one_pos, rfl, rfl, Nat.one_pos, rfl, Nat.one_pos, rfl, rfl, trivial⟩

theorem finiteExponents_controlled_stretchedTurn :
    (Operation.controlled 1 stretchedTurn).FiniteExponents := by
  have hlarge : (Exponent.real 1e308).toFloat.isFinite = true := by decide +kernel
  exact List.forall_mem_cons.2 ⟨hlarge, List.forall_mem_singleton.2 hlarge⟩

/-- The square root of the square root of a power that outgrows the finite numbers. -/
def rootOfRoot : Operation :=
  .powered .half (.powered .half (.controlled 1 stretchedTurn))

theorem valid_on_qubit {op : Operation} (hunitary : op.isUnitary = true)
    (hqubit : op.numQubits = 1) (q : Nat) : (op.on [q]).Valid :=
  Instruction.valid_of_isUnitary hunitary hqubit.symm (List.nodup_singleton q)

theorem valid_on_three {op : Operation} (hunitary : op.isUnitary = true)
    (hwidth : op.numQubits = 3) : (op.on [0, 1, 2]).Valid :=
  Instruction.valid_of_isUnitary hunitary hwidth.symm (by decide)

/-- The inner square root becomes a turn by no number. -/
theorem lowers_root_stretchedTurn :
    Lowers free ((Operation.powered .half (.controlled 1 stretchedTurn)).on [0, 1, 2])
      [(Operation.controlled 2 (turnRoot (overflowed * .half))).on [0, 1, 2]] := by
  obtain ⟨-, -, hproduct, hnone⟩ := by simpa using neither_one_nor_whole
  have hraise : (Operation.controlled 2 (turnPower overflowed)).raise .half =
      .controlled 2 (turnPower (overflowed * .half)) := by
    rw [Operation.raise_controlled rfl, raise_turnPower rfl hproduct]
  have hpowered : (Operation.controlled 2 (turnPower overflowed)).power .half =
      .ok (.controlled 2 (turnPower (overflowed * .half))) :=
    Operation.power_eq_ok_iff.2 ⟨rfl, hraise.symm⟩
  have hagain : Lowers free
      ((Operation.controlled 2 (turnPower (overflowed * .half))).on [0, 1, 2])
      [(Operation.controlled 2 (turnRoot (overflowed * .half))).on [0, 1, 2]] :=
    lowers_controlled_turnPower (by decide) hnone
  exact LowerStep.lowers (valid_on_three rfl rfl) (.powerOf rfl (valid_on_three rfl rfl)
    (lowers_controlled_stretchedTurn (by decide)) hpowered (valid_on_three rfl rfl) hagain
    rfl rfl rfl)

/-- The square root of a turn by no number is taken again and again. -/
theorem stalls_root_turnRoot :
    ((Operation.powered .half (turnRoot (overflowed * .half))).on [2]).Stalls free .half
      (turnRoot (overflowed * .half)) where
  operation_eq := rfl
  natural?_eq := rfl
  root?_eq := by
    have hnone : ((turnRoot (overflowed * .half)).root? .half).isNone = true := by
      decide +kernel
    exact Option.isNone_iff_eq_none.1 hnone
  unitary := rfl
  raise_eq := raise_turnRoot rfl
  lowers := lowers_gate rfl
  differs := turnRoot_differs.2

theorem self_call_root_turnRoot :
    Calls free ((Operation.powered .half (turnRoot (overflowed * .half))).on [2])
      ((Operation.powered .half (turnRoot (overflowed * .half))).on [2]) :=
  (calls_self_iff (Instruction.valid_of_isUnitary rfl rfl (List.nodup_singleton 2))).2
    ⟨_, _, stalls_root_turnRoot⟩

/-- The outer square root is taken under the controls. -/
theorem calls_rootOfRoot :
    Calls free (rootOfRoot.on [0, 1, 2])
      ((Operation.controlled 2 (.powered .half (turnRoot (overflowed * .half)))).on
        [0, 1, 2]) := by
  have hraise : (Operation.controlled 2 (turnRoot (overflowed * .half))).raise .half =
      .controlled 2 (.powered .half (turnRoot (overflowed * .half))) := by
    rw [Operation.raise_controlled rfl, raise_turnRoot rfl]
  have hpowered : (Operation.controlled 2 (turnRoot (overflowed * .half))).power .half =
      .ok (.controlled 2 (.powered .half (turnRoot (overflowed * .half)))) :=
    Operation.power_eq_ok_iff.2 ⟨rfl, hraise.symm⟩
  have hnatural : Exponent.half.natural? = none := rfl
  have hvalid : ((Operation.powered .half (.controlled 1 stretchedTurn)).on [0, 1, 2]).Valid :=
    valid_on_three rfl rfl
  have hvalid' : ((Operation.controlled 2 (.powered .half (turnRoot (overflowed * .half)))).on
      [0, 1, 2]).Valid := valid_on_three rfl rfl
  have hop : (rootOfRoot.on [0, 1, 2]).operation =
      .powered .half (.powered .half (.controlled 1 stretchedTurn)) := rfl
  exact .powerOf hop hnatural rfl hvalid lowers_root_stretchedTurn rfl hpowered hvalid'

/-- Lowering of a well-formed gate that holds finite numbers only need not come to an end. -/
theorem rootOfRoot_never_returns :
    (rootOfRoot.on [0, 1, 2]).Valid ∧ rootOfRoot.WellFormed ∧
    (rootOfRoot == rootOfRoot) = true ∧ rootOfRoot.FiniteExponents ∧
    ¬Returns [] (rootOfRoot.on [0, 1, 2]) ∧
    ∀ emitted, rootOfRoot.lower [0, 1, 2] [] [] [] ≠ .done emitted := by
  have hvalid : (rootOfRoot.on [0, 1, 2]).Valid := valid_on_three rfl rfl
  have hreturns : ¬Returns [] (rootOfRoot.on [0, 1, 2]) := by
    rintro ⟨depth, hdepth⟩
    have hmany : ¬((Operation.powered .half (turnRoot (overflowed * .half))).numQubits = 1 ∧
        2 = 1) := by simp
    have hinner : Calls [] ((Operation.controlled 2 (.powered .half
        (turnRoot (overflowed * .half)))).on [0, 1, 2])
        ((Operation.powered .half (turnRoot (overflowed * .half))).on [2]) :=
      .controlled rfl hmany
        (Instruction.valid_of_isUnitary rfl rfl (List.nodup_singleton 2))
    exact not_finished_of_reaches (.head calls_rootOfRoot (.single hinner))
      self_call_root_turnRoot depth hdepth
  have hfinite : rootOfRoot.FiniteExponents := List.forall_mem_cons.2 ⟨rfl,
    List.forall_mem_cons.2 ⟨rfl, finiteExponents_controlled_stretchedTurn⟩⟩
  refine ⟨hvalid, ⟨rfl, rfl, wellFormed_controlled_stretchedTurn⟩,
    Operation.beq_self_of_finiteExponents hfinite rfl, hfinite, hreturns, ?_⟩
  intro emitted hlower
  have hdone := (hvalid.lower_operation []).symm.trans hlower
  exact hreturns (Instruction.lowers_of_lower hdone).returns

end Total

end GateAlgebra
