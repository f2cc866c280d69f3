import GateAlgebra.Proofs.Borrowing
import GateAlgebra.Proofs.LowerTotal
import GateAlgebra.Proofs.NormalForm
import GateAlgebra.Proofs.Stages
/-!
Passes come to their end.  Every pass brings the operations of a circuit one stage closer to
what lowering leaves as it is, so that the fourth pass changes nothing, as long as no exponent
grows beyond the finite numbers.
-/

namespace GateAlgebra

section Advance

variable {free ancillae : List Nat} {inst : Instruction} {emitted : List Instruction}
  {op : Operation} {n : Nat}

/-- What is settled after so many passes. -/
def Operation.Stage : Nat → Operation → Prop
  | 0 => Operation.Settled
  | 1 => Operation.SecondStage
  | 2 => Operation.FirstStage
  | _ + 3 => fun _ => True

/-- Lowering advances an operation by a stage. -/
theorem Operation.Stage.advance (hstage : inst.operation.Stage (n + 1))
    (hself : (inst.operation == inst.operation) = true) (hplaced : inst.Placed free)
    (h : Lowers free inst emitted) :
    ∀ part ∈ emitted, (part.operation == part.operation) = true → part.operation.Stage n := by
  have hinst := hplaced.valid.eq_on_qubits hplaced.unitary
  match n with
  | 0 =>
      rw [hinst] at hplaced h
      exact fun part hpart _ => Operation.SecondStage.settled hstage hself hplaced h part hpart
  | 1 =>
      rw [hinst] at hplaced h
      exact fun part hpart _ => Operation.FirstStage.secondStage hstage hplaced h part hpart
  | 2 => exact h.firstStage hplaced
  | _ + 3 => exact fun _ _ _ => trivial

/-- An instruction that lowering comes to an end with, at a stage if it is a gate. -/
structure Instruction.Staged (n : Nat) (inst : Instruction) : Prop where
  valid : inst.Valid
  wellFormed : inst.operation.WellFormed
  comparable : inst.operation.Comparable
  stage : inst.operation.isUnitary = true → inst.operation.Stage n

namespace Instruction.Staged

theorem beq_self (h : inst.Staged n) (hfinite : inst.operation.FiniteExponents) :
    (inst.operation == inst.operation) = true :=
  Operation.beq_self_of_finiteExponents hfinite h.comparable

/-- What a staged instruction is lowered to is a stage further. -/
theorem advance (h : inst.Staged (n + 1)) (hancillae : ancillae.Nodup)
    (hfinite : inst.KeepsFinite (inst.free ancillae)) (hlower : inst.lower ancillae = .done emitted)
    {part : Instruction} (hpart : part ∈ emitted)
    (hpartFinite : part.operation.FiniteExponents) : part.Staged n := by
  have hlowers := Instruction.lowers_of_lower hlower
  cases hunitary : inst.operation.isUnitary with
  | false =>
      have hpassed := lower_of_passed (kind_of_not_isUnitary h.valid h.wellFormed hunitary)
        ancillae
      obtain rfl := Emission.done_inj.1 (hlower.symm.trans hpassed)
      obtain rfl := List.mem_singleton.1 hpart
      exact ⟨h.valid, h.wellFormed, h.comparable, fun h => by simp [hunitary] at h⟩
  | true =>
      have hyields := hlowers.yields h.valid part hpart
      have hcomparable := hlowers.comparable h.valid h.comparable hfinite part hpart
      have hself := Operation.beq_self_of_finiteExponents hpartFinite hcomparable
      exact ⟨hyields.valid, hyields.wellFormed hunitary h.wellFormed, hcomparable, fun _ =>
        (h.stage hunitary).advance (h.beq_self hfinite.finiteExponents)
          (Instruction.placed h.valid h.wellFormed hunitary hancillae) hlowers part hpart hself⟩

/-- At the last stage nothing changes. -/
theorem lower_eq (h : inst.Staged 0) (hancillae : ancillae.Nodup)
    (hfinite : inst.KeepsFinite (inst.free ancillae)) : inst.lower ancillae = .done [inst] := by
  cases hunitary : inst.operation.isUnitary with
  | false => exact lower_of_passed (kind_of_not_isUnitary h.valid h.wellFormed hunitary) ancillae
  | true =>
      obtain ⟨emitted, hlower⟩ :=
        exists_lower h.valid h.wellFormed h.comparable hancillae hfinite
      have hinst := h.valid.eq_on_qubits hunitary
      have hlowers := Instruction.lowers_of_lower hlower
      have hvalid := h.valid
      rw [hinst] at hlowers hvalid
      have hsettled : inst.operation.Settled := h.stage hunitary
      rw [hlower, hsettled.eq_singleton hvalid hlowers, ← hinst]

end Instruction.Staged

end Advance

namespace LoweringConfig

variable {config : LoweringConfig} {current : List Instruction} {n : Nat}

/-- Lowering of whole lists, pass after pass, comes to no exponent that is not finite. -/
def KeepsFinite (config : LoweringConfig) (current : List Instruction) : Prop :=
  ∀ later, Relation.ReflTransGen
    (fun before after => ∃ changed, config.pass before = .ok (after, changed)) current later →
    ∀ inst ∈ later, inst.KeepsFinite (inst.free config.ancillae)

theorem KeepsFinite.next (h : config.KeepsFinite current) {result : List Instruction × Bool}
    (hpass : config.pass current = .ok result) : config.KeepsFinite result.1 :=
  fun later hlater => h later (.head ⟨result.2, hpass⟩ hlater)

theorem KeepsFinite.instruction (h : config.KeepsFinite current) :
    ∀ inst ∈ current, inst.KeepsFinite (inst.free config.ancillae) :=
  h current .refl

/-- Lowering at the depth an instruction is given comes to the end that it comes to at any. -/
theorem lower_eq_done_of_lowers {inst : Instruction} {ancillae : List Nat}
    {emitted : List Instruction} (hvalid : inst.Valid)
    (h : Lowers (inst.free ancillae) inst emitted) : inst.lower ancillae = .done emitted := by
  obtain ⟨depth, hdepth⟩ := h.returns
  have hfinished := finished_of_no_self_call hvalid (Nat.le_refl _)
    fun other hother hself => not_finished_of_reaches hother hself depth hdepth
  exact (h.at_depth _).resolve_left (not_not_intro hfinished)

/-- A pass over a staged circuit comes to its end. -/
theorem exists_pass (hstaged : ∀ inst ∈ current, inst.Staged n) (hancillae : config.ancillae.Nodup)
    (hfinite : ∀ inst ∈ current, inst.KeepsFinite (inst.free config.ancillae)) :
    ∃ result, config.pass current = .ok result := by
  induction current with
  | nil => exact ⟨_, rfl⟩
  | cons inst rest ih =>
      obtain ⟨hinst, hrest⟩ := List.forall_mem_cons.1 hstaged
      obtain ⟨hinstFinite, hrestFinite⟩ := List.forall_mem_cons.1 hfinite
      obtain ⟨lowered, hlower⟩ :=
        exists_lower hinst.valid hinst.wellFormed hinst.comparable hancillae hinstFinite
      obtain ⟨others, hothers⟩ := ih hrest hrestFinite
      exact ⟨_, pass_cons_eq_ok_iff.2 ⟨lowered, others, hlower, hothers, rfl⟩⟩

/-- A pass advances a circuit by a stage. -/
theorem staged_of_pass (hstaged : ∀ inst ∈ current, inst.Staged (n + 1))
    (hancillae : config.ancillae.Nodup)
    (hfinite : ∀ inst ∈ current, inst.KeepsFinite (inst.free config.ancillae))
    {result : List Instruction × Bool} (hpass : config.pass current = .ok result)
    (hresult : ∀ part ∈ result.1, part.operation.FiniteExponents) :
    ∀ part ∈ result.1, part.Staged n := by
  induction current generalizing result with
  | nil =>
      obtain rfl := Except.ok.inj hpass
      simp
  | cons inst rest ih =>
      obtain ⟨hinst, hrest⟩ := List.forall_mem_cons.1 hstaged
      obtain ⟨hinstFinite, hrestFinite⟩ := List.forall_mem_cons.1 hfinite
      obtain ⟨lowered, others, hlower, hothers, rfl⟩ := pass_cons_eq_ok_iff.1 hpass
      obtain ⟨hloweredFinite, hothersFinite⟩ := List.forall_mem_append.1 hresult
      exact List.forall_mem_append.2
        ⟨fun part hpart => hinst.advance hancillae hinstFinite hlower hpart
          (hloweredFinite part hpart), ih hrest hrestFinite hothers hothersFinite⟩

/-- One pass more than there are stages is enough. -/
theorem exists_fixWithin {passes : Nat} (hstaged : ∀ inst ∈ current, inst.Staged n)
    (hancillae : config.ancillae.Nodup) (hpasses : n < passes)
    (hfinite : config.KeepsFinite current) :
    ∃ fixed, config.fixWithin passes current = .ok fixed := by
  obtain ⟨passes, rfl⟩ := Nat.exists_eq_succ_of_ne_zero (Nat.ne_zero_of_lt hpasses)
  induction n generalizing current passes with
  | zero =>
      have hpass : config.pass current = .ok (current, false) := by
        refine pass_of_stable fun inst hinst => ?_
        have hkeeps := hfinite.instruction inst hinst
        have hself := (hstaged inst hinst).beq_self hkeeps.finiteExponents
        exact ⟨(hstaged inst hinst).lower_eq hancillae hkeeps,
          Instruction.beq_iff.2 ⟨hself, rfl, rfl, rfl⟩⟩
      exact ⟨current, fixWithin_eq_ok_iff.2 ⟨_, hpass, Or.inl ⟨rfl, rfl⟩⟩⟩
  | succ n ih =>
      obtain ⟨result, hpass⟩ := exists_pass hstaged hancillae hfinite.instruction
      have hnext := hfinite.next hpass
      have hstagedNext := staged_of_pass hstaged hancillae hfinite.instruction hpass
        fun part hpart => (hnext.instruction part hpart).finiteExponents
      cases hchanged : result.2 with
      | false => exact ⟨_, fixWithin_eq_ok_iff.2 ⟨result, hpass, Or.inl ⟨hchanged, rfl⟩⟩⟩
      | true =>
          obtain ⟨more, rfl⟩ := Nat.exists_eq_succ_of_ne_zero
            (Nat.ne_zero_of_lt (Nat.lt_of_succ_lt_succ hpasses))
          obtain ⟨fixed, hfixed⟩ := ih hstagedNext hnext more (by omega)
          exact ⟨fixed, fixWithin_eq_ok_iff.2 ⟨result, hpass, Or.inr ⟨hchanged, hfixed⟩⟩⟩

/-- Four passes are enough for every circuit of instructions that are valid, well-formed and
equal to themselves, as they are without NaN, unless an exponent that lowering comes to is not
finite. -/
theorem four_passes_are_enough {c : Circuit} (hvalid : ∀ inst ∈ c.instructions, inst.Valid)
    (hform : ∀ inst ∈ c.instructions, inst.operation.WellFormed)
    (hself : ∀ inst ∈ c.instructions, (inst.operation == inst.operation) = true)
    (hancillae : config.ancillae.Nodup) (hpasses : 4 ≤ config.maxPasses)
    (hfinite : config.KeepsFinite c.instructions) :
    ∃ fixed, config.lowerUntilFixed c = .ok fixed := by
  have hstaged : ∀ inst ∈ c.instructions, inst.Staged 3 := fun inst hinst =>
    ⟨hvalid inst hinst, hform inst hinst, Operation.comparable_of_beq_self (hself inst hinst),
      fun _ => trivial⟩
  obtain ⟨instructions, hfixed⟩ := exists_fixWithin hstaged hancillae hpasses hfinite
  exact ⟨⟨c.name, instructions⟩, lowerUntilFixed_eq_ok_iff.2 ⟨rfl, hfixed⟩⟩

section Copies

/-- The inverse of half of a turn about X. -/
def halvedTurn : Operation :=
  .inverted (.powered .half (.gate (.rx (.real 1))))

/-- The same as a gate of half the angle. -/
def shortTurn : Operation :=
  .inverted (.gate (.rx (.real 0.5)))

/-- Two copies of an inverse half of a turn under two controls, X under three, and a
measurement. -/
def copiesCircuit : Circuit :=
  ⟨"", [(Operation.controlled 2 (.repeated 2 halvedTurn)).on [0, 1, 2, 3],
    controlledXOn [0, 1, 2] 3, ⟨.measure, [3], [0], []⟩]⟩

/-- X under three controls by a ladder over a borrowed qubit. -/
def borrowedX : List Instruction :=
  [Operation.ccx.on [2, 4, 3], Operation.ccx.on [0, 1, 4], Operation.ccx.on [2, 4, 3],
    Operation.ccx.on [0, 1, 4], ⟨.measure, [3], [0], []⟩]

/-- What the first pass makes of the circuit. -/
def copiesFirst : List Instruction :=
  [(Operation.controlled 2 shortTurn).on [0, 1, 2],
    (Operation.controlled 2 shortTurn).on [0, 1, 3]] ++ borrowedX

/-- The short turn under two controls, by its square roots. -/
def rootedTurn (target : Nat) : List Instruction :=
  let root := Operation.powered .half shortTurn
  [(Operation.controlled 1 root).on [1, target], Operation.cx.on [0, 1],
    (Operation.controlled 1 (.inverted root)).on [1, target], Operation.cx.on [0, 1],
    (Operation.controlled 1 root).on [0, target]]

/-- What the second pass makes of it, and the last one leaves as it is. -/
def copiesSecond : List Instruction :=
  rootedTurn 2 ++ rootedTurn 3 ++ borrowedX

variable {free : List Nat} {q : Nat}

theorem lowers_shortTurn : Lowers free (shortTurn.on [q]) [shortTurn.on [q]] :=
  Lowers.inverted (valid_on_qubit rfl rfl q) (lowers_gate rfl) rfl

theorem lowers_halvedTurn : Lowers free (halvedTurn.on [q]) [shortTurn.on [q]] := by
  have hroot : Lowers free ((Operation.powered .half (.gate (.rx (.real 1)))).on [q])
      [(Operation.gate (.rx (.real 0.5))).on [q]] :=
    Lowers.root rfl rfl (valid_on_qubit rfl rfl q) (lowers_gate rfl)
  exact hroot.inverted (valid_on_qubit rfl rfl q) rfl

theorem lowers_copies :
    Lowers free ((Operation.controlled 2 (.repeated 2 halvedTurn)).on [0, 1, 2, 3])
    [(Operation.controlled 2 shortTurn).on [0, 1, 2],
      (Operation.controlled 2 shortTurn).on [0, 1, 3]] := by
  have hblocks : List.Forall₂
      (fun block list => (halvedTurn.on block).Valid ∧ Lowers free (halvedTurn.on block) list)
      [[2], [3]] [[shortTurn.on [2]], [shortTurn.on [3]]] :=
    .cons ⟨valid_on_qubit rfl rfl 2, lowers_halvedTurn⟩
      (.cons ⟨valid_on_qubit rfl rfl 3, lowers_halvedTurn⟩ .nil)
  have hstep : LowerStep (Lowers free) free ((Operation.repeated 2 halvedTurn).on [2, 3])
      [[shortTurn.on [2]], [shortTurn.on [3]]].flatten :=
    .blocks (w := halvedTurn) rfl Nat.one_ne_zero hblocks
  have hcopies : Lowers free ((Operation.repeated 2 halvedTurn).on [2, 3])
      [shortTurn.on [2], shortTurn.on [3]] :=
    LowerStep.lowers (Instruction.valid_of_isUnitary rfl rfl (by decide)) hstep
  have hcontrol : ∀ q ∈ [2, 3], controlInstruction [0, 1] (shortTurn.on [q]) =
      .done [(Operation.controlled 2 shortTurn).on [0, 1, q]] := by
    intro q hq
    refine (controlInstruction_eq_done_iff (by simp) rfl).2 ⟨rfl, ?_⟩
    refine Instruction.valid_of_isUnitary rfl rfl ?_
    revert q
    decide
  exact LowerStep.lowers (Instruction.valid_of_isUnitary rfl rfl (by decide))
    (.controlEach rfl (Instruction.valid_of_isUnitary rfl rfl (by decide)) hcopies
      (.cons (hcontrol 2 (by decide)) (.cons (hcontrol 3 (by decide)) .nil)) (by decide) rfl)

theorem controlledRoot_shortTurn {target : Nat} (h : [0, 1, target].Nodup) :
    controlledRoot shortTurn [0, 1] target free = .done (rootedTurn target) := by
  have hroot : shortTurn.raise .half = .powered .half shortTurn :=
    Operation.raise_eq_powered rfl (by simp [shortTurn, Operation.kind])
  have hcontrolled : ∀ (op : Operation) (control : Nat), op.isUnitary = true →
      2 = 1 + op.numQubits → op.addControls 1 = .controlled 1 op → [control, target].Nodup →
      (Emission.build (op.control 1) fun controlled => .apply controlled [control, target]) =
        .done [(Operation.controlled 1 op).on [control, target]] := by
    intro op control hunitary hqubit hadd hnodup
    rw [Operation.control_eq_ok Nat.one_pos hunitary, hadd, Emission.build_ok]
    exact Emission.apply_eq_done hunitary hqubit hnodup
  have hflip : borrowingX [0] 1 target free = .done [Operation.cx.on [0, 1]] :=
    (if_pos (Nat.le_add_left 1 _)).trans (Emission.apply_eq_done rfl rfl (by decide))
  have hdistinct : [1, target].Nodup ∧ [0, target].Nodup := by
    simp only [List.nodup_cons, List.mem_cons, List.not_mem_nil, or_false, not_or] at h ⊢
    tauto
  change rootLadder shortTurn [1, 0] target free = _
  rw [rootLadder_cons rfl (by simp), hroot, hcontrolled _ 1 rfl rfl rfl hdistinct.1,
    List.reverse_singleton, hflip, hcontrolled _ 1 rfl rfl rfl hdistinct.1, rootLadder,
    hcontrolled _ 0 rfl rfl rfl hdistinct.2]
  rfl

theorem lowers_rooted {target : Nat} (h : [0, 1, target].Nodup) :
    Lowers free ((Operation.controlled 2 shortTurn).on [0, 1, target]) (rootedTurn target) :=
  LowerStep.lowers (Instruction.valid_of_isUnitary rfl rfl h)
    (.controlRoot (by decide) rfl rfl (valid_on_qubit rfl rfl target) lowers_shortTurn
      (isUnchanged_on _ _ _) (controlledRoot_shortTurn h) rfl)

/-- With one qubit to borrow. -/
def copiesConfig : LoweringConfig where
  ancillae := [4]

theorem lower_ccx (a b target : Nat) (h : [a, b, target].Nodup) (ancillae : List Nat) :
    (Operation.ccx.on [a, b, target]).lower ancillae =
      .done [Operation.ccx.on [a, b, target]] := by
  have hpair : ([a, b] ++ [target]).Nodup := h
  refine (lower_controlledXOn hpair ancillae).trans ?_
  exact (if_pos (Nat.le_add_left 2 _)).trans (Emission.apply_eq_done rfl rfl h)

theorem stable_borrowedX : ∀ inst ∈ borrowedX,
    inst.lower copiesConfig.ancillae = .done [inst] ∧ (inst == inst) = true := by
  simp only [borrowedX, List.forall_mem_cons, List.not_mem_nil, false_imp_iff, implies_true,
    and_true]
  exact ⟨⟨lower_ccx 2 4 3 (by decide) _, rfl⟩, ⟨lower_ccx 0 1 4 (by decide) _, rfl⟩,
    ⟨lower_ccx 2 4 3 (by decide) _, rfl⟩, ⟨lower_ccx 0 1 4 (by decide) _, rfl⟩,
    lower_of_passed (by simp [Operation.kind]) _, rfl⟩

theorem pass_copiesCircuit :
    copiesConfig.pass copiesCircuit.instructions = .ok (copiesFirst, true) := by
  have hcopies : ((Operation.controlled 2 (.repeated 2 halvedTurn)).on [0, 1, 2, 3]).lower [4] =
      .done [(Operation.controlled 2 shortTurn).on [0, 1, 2],
        (Operation.controlled 2 shortTurn).on [0, 1, 3]] :=
    lower_eq_done_of_lowers (Instruction.valid_of_isUnitary rfl rfl (by decide)) lowers_copies
  have hladder : toffoliLadder [0, 1, 2] 3 [4] =
      .done [Operation.ccx.on [2, 4, 3], Operation.ccx.on [0, 1, 4], Operation.ccx.on [2, 4, 3],
        Operation.ccx.on [0, 1, 4]] := by
    have htoffoli : ∀ rung ∈ roundRungs 0 1 4 [2] ([] ++ [3]),
        toffoli rung.1 rung.2.1 rung.2.2 =
          .done [Operation.ccx.on [rung.1, rung.2.1, rung.2.2]] := by
      have hdistinct : ∀ rung ∈ roundRungs 0 1 4 [2] ([] ++ [3]),
        [rung.1, rung.2.1, rung.2.2].Nodup := by decide
      exact fun rung hrung => Emission.apply_eq_done rfl rfl (hdistinct rung hrung)
    rw [toffoliLadder_eq_times, List.map_congr_left htoffoli]
    rfl
  have hdistinct : ([0, 1, 2] ++ [3]).Nodup := by decide
  have hx := (lower_controlledXOn hdistinct [4]).trans hladder
  exact pass_cons_eq_ok_iff.2 ⟨_, _, hcopies, pass_cons_eq_ok_iff.2 ⟨_, _, hx,
    pass_cons_eq_ok_iff.2
      ⟨_, _, lower_of_passed (by simp [Operation.kind]) _, rfl, rfl⟩, rfl⟩, rfl⟩

theorem pass_copiesFirst : copiesConfig.pass copiesFirst = .ok (copiesSecond, true) := by
  have hturn : ∀ target, [0, 1, target].Nodup →
      ((Operation.controlled 2 shortTurn).on [0, 1, target]).lower [4] =
        .done (rootedTurn target) := fun target h =>
    lower_eq_done_of_lowers (Instruction.valid_of_isUnitary rfl rfl h) (lowers_rooted h)
  exact pass_cons_eq_ok_iff.2 ⟨_, _, hturn 2 (by decide), pass_cons_eq_ok_iff.2 ⟨_, _,
    hturn 3 (by decide), pass_of_stable stable_borrowedX, rfl⟩, rfl⟩

theorem stable_rootedTurn {target : Nat} (h : [0, 1, target].Nodup) : ∀ inst ∈ rootedTurn target,
    inst.lower copiesConfig.ancillae = .done [inst] ∧ (inst == inst) = true := by
  have hdistinct : [0, target].Nodup ∧ [1, target].Nodup := by
    simp only [List.nodup_cons, List.mem_cons, List.not_mem_nil, or_false, not_or] at h ⊢
    tauto
  have hsingle : ∀ (op : Operation) (qubits : List Nat), op.isUnitary = true → op.numQubits = 1 →
      (op == op) = true → qubits.length = 1 + op.numQubits → qubits.Nodup →
      ((Operation.controlled 1 op).on qubits).lower copiesConfig.ancillae =
          .done [(Operation.controlled 1 op).on qubits] ∧
        ((Operation.controlled 1 op).on qubits == (Operation.controlled 1 op).on qubits) =
          true := by
    intro op qubits hunitary hqubit hself hlength hnodup
    have hvalid : ((Operation.controlled 1 op).on qubits).Valid :=
      Instruction.valid_of_isUnitary hunitary hlength hnodup
    refine ⟨lower_eq_done_of_lowers hvalid (lowers_single hqubit hvalid),
      Instruction.beq_iff.2 ⟨?_, rfl, rfl, rfl⟩⟩
    rw [Operation.operation_on, Operation.controlled_beq, hself]
    rfl
  have hroot : (Operation.powered .half shortTurn == Operation.powered .half shortTurn) = true := by
    rfl
  have hunroot : (Operation.inverted (.powered .half shortTurn) ==
      Operation.inverted (.powered .half shortTurn)) = true := by
    rfl
  simp only [rootedTurn, List.forall_mem_cons, List.not_mem_nil, false_imp_iff, implies_true,
    and_true]
  exact ⟨hsingle _ _ rfl rfl hroot rfl hdistinct.2, hsingle _ _ rfl rfl rfl rfl (by decide),
    hsingle _ _ rfl rfl hunroot rfl hdistinct.2, hsingle _ _ rfl rfl rfl rfl (by decide),
    hsingle _ _ rfl rfl hroot rfl hdistinct.1⟩

theorem pass_copiesSecond : copiesConfig.pass copiesSecond = .ok (copiesSecond, false) := by
  refine pass_of_stable fun inst hinst => ?_
  rcases List.mem_append.1 hinst with hturns | hrest
  · rcases List.mem_append.1 hturns with hfirst | hsecond
    · exact stable_rootedTurn (by decide) inst hfirst
    · exact stable_rootedTurn (by decide) inst hsecond
  · exact stable_borrowedX inst hrest

/-- The lists that passes over the circuit come to. -/
theorem copies_of_passes {later : List Instruction}
    (h : Relation.ReflTransGen
      (fun before after => ∃ changed, copiesConfig.pass before = .ok (after, changed))
      copiesCircuit.instructions later) :
    later = copiesCircuit.instructions ∨ later = copiesFirst ∨ later = copiesSecond := by
  have hunique : ∀ {before after after' changed changed'},
      copiesConfig.pass before = .ok (after, changed) →
      copiesConfig.pass before = .ok (after', changed') → after' = after := by
    intro _ _ _ _ _ h h'
    exact (Prod.mk.inj (Except.ok.inj (h'.symm.trans h))).1
  induction h with
  | refl => exact Or.inl rfl
  | tail _ hpass ih =>
      obtain ⟨changed, hpass⟩ := hpass
      right
      rcases ih with rfl | rfl | rfl
      · exact Or.inl (hunique pass_copiesCircuit hpass)
      · exact Or.inr (hunique pass_copiesFirst hpass)
      · exact Or.inr (hunique pass_copiesSecond hpass)

/-- The operations that lowering of these lists comes to. -/
def copiesOperations : List Operation :=
  [.controlled 2 (.repeated 2 halvedTurn), .repeated 2 halvedTurn, halvedTurn,
    .powered .half (.gate (.rx (.real 1))), .gate (.rx (.real 0.5)), .controlled 2 shortTurn,
    shortTurn, .controlled 1 (.powered .half shortTurn),
    .controlled 1 (.inverted (.powered .half shortTurn)), .controlled 3 (.gate .x), .ccx, .cx,
    .gate .x, .measure]

open Operation in
/-- Nothing else is called from these. -/
theorem mem_copiesOperations_of_calls {inst other : Instruction}
    (hinst : inst.operation ∈ copiesOperations) (hcalls : Calls free inst other) :
    other.operation ∈ copiesOperations := by
  have hnatural : Exponent.half.natural? = none := rfl
  have hknown : (Gate.rx (.real 1)).root? .half = some (.rx (.real 0.5)) := rfl
  simp only [copiesOperations, halvedTurn, shortTurn, cx, ccx, controlledGate, List.mem_cons,
    List.not_mem_nil, or_false] at hinst ⊢
  have hturn : ∀ {e : Exponent} {w : Operation}, inst.operation = .powered e w →
      e = .half ∧ w = .gate (.rx (.real 1)) := fun hop => by simpa [hop] using hinst
  cases hcalls with
  | @step g before after step hop hsteps =>
      have hg : g = .rx (.real 0.5) ∨ g = .x := by simpa [hop] using hinst
      rcases hg with rfl | rfl <;> cases hsteps
  | @inverted w hop =>
      have hw : w = .powered .half (.gate (.rx (.real 1))) ∨ w = .gate (.rx (.real 0.5)) := by
        simpa [hop] using hinst
      rcases hw with rfl | rfl <;> simp
  | @block n w before after block hop =>
      obtain ⟨-, rfl⟩ : n = 2 ∧ w = inverted (.powered .half (.gate (.rx (.real 1)))) := by
        simpa [hop] using hinst
      simp
  | times hop hn =>
      rw [(hturn hop).1, hnatural] at hn
      cases hn
  | @root e w root hop hnone hroot =>
      obtain ⟨rfl, rfl⟩ := hturn hop
      obtain rfl := Option.some.inj (hknown.symm.trans hroot)
      simp
  | powered hop hnone hroot | powerOf hop hnone hroot =>
      obtain ⟨rfl, rfl⟩ := hturn hop
      cases hknown.symm.trans hroot
  | @controlled n w hop hmany =>
      simp only [hop, controlled.injEq, reduceCtorEq, false_or, or_false] at hinst
      rcases hinst with ⟨-, rfl⟩ | ⟨-, rfl⟩ | ⟨rfl, rfl⟩ | ⟨rfl, rfl⟩ | ⟨-, rfl⟩ | ⟨-, rfl⟩ |
        ⟨rfl, rfl⟩
      case inr.inr.inl | inr.inr.inr.inl | inr.inr.inr.inr.inr.inr =>
        exact absurd ⟨rfl, rfl⟩ hmany
      all_goals simp

/-- These are all the operations that come up. -/
theorem mem_copiesOperations {later : List Instruction}
    (h : Relation.ReflTransGen
      (fun before after => ∃ changed, copiesConfig.pass before = .ok (after, changed))
      copiesCircuit.instructions later) {inst part : Instruction} (hinst : inst ∈ later)
    (hpart : Relation.ReflTransGen (Calls free) inst part) :
    part.operation ∈ copiesOperations := by
  have hlists : ∀ list ∈ [copiesCircuit.instructions, copiesFirst, copiesSecond],
      ∀ inst ∈ list, inst.operation ∈ copiesOperations := by
    simp [copiesCircuit, copiesFirst, copiesSecond, rootedTurn, borrowedX, copiesOperations,
      controlledXOn]
  induction hpart with
  | refl => exact hlists later (by simpa using copies_of_passes h) inst hinst
  | tail _ hcalls ih => exact mem_copiesOperations_of_calls ih hcalls

theorem keepsFinite_copiesCircuit : copiesConfig.KeepsFinite copiesCircuit.instructions := by
  have hfinite : ∀ op ∈ copiesOperations, ∀ e ∈ op.exponents, e.toFloat.isFinite = true := by
    decide
  exact fun later hlater inst hinst part hpart =>
    hfinite part.operation (mem_copiesOperations hlater hinst hpart)

theorem wellFormed_copies :
    (Operation.controlled 2 (.repeated 2 halvedTurn)).WellFormed :=
  ⟨Nat.two_pos, rfl, Nat.two_pos, rfl, rfl, rfl, trivial⟩

theorem valid_copiesCircuit : ∀ inst ∈ copiesCircuit.instructions, inst.Valid := by
  simp only [copiesCircuit, List.forall_mem_cons, List.not_mem_nil, false_imp_iff, implies_true,
    and_true]
  exact ⟨Instruction.valid_of_isUnitary rfl rfl (by decide), valid_controlledXOn (by decide),
    ⟨by simp, rfl, rfl, rfl, by simp, by simp, by simp⟩⟩

/-- Three passes are needed, and a half is the only exponent that they come to. -/
theorem lowerUntilFixed_copiesCircuit :
    copiesConfig.lowerUntilFixed copiesCircuit = .ok ⟨"", copiesSecond⟩ := by
  refine lowerUntilFixed_eq_ok_iff.2 ⟨rfl, ?_⟩
  change copiesConfig.fixWithin (13 + 1 + 1 + 1) _ = _
  exact fixWithin_eq_ok_iff.2 ⟨_, pass_copiesCircuit, Or.inr ⟨rfl,
    fixWithin_eq_ok_iff.2 ⟨_, pass_copiesFirst, Or.inr ⟨rfl,
      fixWithin_eq_ok_iff.2 ⟨_, pass_copiesSecond, Or.inl ⟨rfl, rfl⟩⟩⟩⟩⟩⟩

/-- So the limit of four passes is not exceeded. -/
theorem four_passes_are_enough_copies :
    copiesConfig.KeepsFinite copiesCircuit.instructions ∧
      ∃ fixed, copiesConfig.lowerUntilFixed copiesCircuit = .ok fixed := by
  refine ⟨keepsFinite_copiesCircuit, four_passes_are_enough valid_copiesCircuit ?_ ?_
    (List.nodup_singleton 4) (by decide) keepsFinite_copiesCircuit⟩
  · simp only [copiesCircuit, List.forall_mem_cons, List.not_mem_nil, false_imp_iff,
      implies_true, and_true]
    exact ⟨wellFormed_copies, ⟨Nat.succ_pos 2, rfl, trivial⟩, trivial⟩
  · have hself : (Operation.controlled 2 (.repeated 2 halvedTurn) ==
        Operation.controlled 2 (.repeated 2 halvedTurn)) = true := rfl
    simp only [copiesCircuit, List.forall_mem_cons, List.not_mem_nil, false_imp_iff,
      implies_true, and_true]
    exact ⟨hself, rfl, rfl⟩

end Copies

section Stretched

theorem pass_single {inst : Instruction} {emitted : List Instruction} {config : LoweringConfig}
    (hvalid : inst.Valid) (h : Lowers (inst.free config.ancillae) inst emitted) :
    config.pass [inst] = .ok (emitted, isChanged inst emitted) :=
  pass_cons_eq_ok_iff.2 ⟨emitted, ([], false), lower_eq_done_of_lowers hvalid h, rfl, by simp⟩

/-- A pass that seems to change a circuit that it leaves as it is will be made again and
again. -/
theorem fixWithin_of_pass_self (h : config.pass current = .ok (current, true)) (passes : Nat) :
    config.fixWithin passes current = .error (.failed (.passLimit config.maxPasses)) := by
  induction passes with
  | zero => rfl
  | succ passes ih => rw [fixWithin, h]; exact ih

/-- A high power of a high power of a turn, under one more control. -/
def stretchedCircuit : Circuit :=
  ⟨"", [(Operation.controlled 1 stretchedTurn).on [0, 1, 2]]⟩

/-- Controls on a turn by no number seem to be changed by every pass. -/
theorem pass_controlled_turnRoot :
    config.pass [(Operation.controlled 2 (turnRoot overflowed)).on [0, 1, 2]] =
      .ok ([(Operation.controlled 2 (turnRoot overflowed)).on [0, 1, 2]], true) := by
  have hvalid : ((Operation.controlled 2 (turnRoot overflowed)).on [0, 1, 2]).Valid :=
    valid_on_three rfl rfl
  have hvalidRoot : ((turnRoot overflowed).on [2]).Valid :=
    Instruction.valid_of_isUnitary rfl rfl (List.nodup_singleton 2)
  have hlowers : ∀ free, Lowers free
      ((Operation.controlled 2 (turnRoot overflowed)).on [0, 1, 2])
      [(Operation.controlled 2 (turnRoot overflowed)).on [0, 1, 2]] := fun free =>
    Lowers.control Nat.two_pos rfl hvalid hvalidRoot (lowers_gate rfl) (by simp)
      turnRoot_differs.1
  have hdiffers : (Operation.controlled 2 (turnRoot overflowed) ==
      Operation.controlled 2 (turnRoot overflowed)) = false := by
    rw [Operation.controlled_beq, turnRoot_differs.1, Bool.and_false]
  rw [pass_single hvalid (hlowers _)]
  have hchanged : isChanged ((Operation.controlled 2 (turnRoot overflowed)).on [0, 1, 2])
      [(Operation.controlled 2 (turnRoot overflowed)).on [0, 1, 2]] = true := by
    refine Bool.eq_true_of_not_eq_false fun hsame => ?_
    obtain ⟨only, honly, hbeq⟩ := isChanged_eq_false_iff.1 hsame
    obtain rfl := List.singleton_inj.1 honly
    exact Bool.false_ne_true (hdiffers.symm.trans (Instruction.beq_iff.1 hbeq).1)
  rw [hchanged]

/-- No number of passes is enough for a circuit that holds finite numbers only. -/
theorem stretchedCircuit_exceeds_every_limit :
    (∀ inst ∈ stretchedCircuit.instructions, inst.Valid ∧ inst.operation.WellFormed ∧
      (inst.operation == inst.operation) = true ∧ inst.operation.FiniteExponents) ∧
    ∀ passes, (⟨[], passes⟩ : LoweringConfig).lowerUntilFixed stretchedCircuit =
      .error (.failed (.passLimit passes)) := by
  have hvalid : ((Operation.controlled 1 stretchedTurn).on [0, 1, 2]).Valid :=
    valid_on_three rfl rfl
  refine ⟨List.forall_mem_singleton.2 ⟨hvalid, wellFormed_controlled_stretchedTurn,
    Operation.beq_self_of_finiteExponents finiteExponents_controlled_stretchedTurn rfl,
    finiteExponents_controlled_stretchedTurn⟩, fun passes => ?_⟩
  have hpower : ((Operation.controlled 2 (turnPower overflowed)).on [0, 1, 2]).Valid :=
    valid_on_three rfl rfl
  have hfirstChanged : isChanged ((Operation.controlled 1 stretchedTurn).on [0, 1, 2])
      [(Operation.controlled 2 (turnPower overflowed)).on [0, 1, 2]] = true := rfl
  have hsecondChanged : isChanged ((Operation.controlled 2 (turnPower overflowed)).on [0, 1, 2])
      [(Operation.controlled 2 (turnRoot overflowed)).on [0, 1, 2]] = true := rfl
  -- two passes change the circuit, all others only seem to
  have hfirst : (⟨[], passes⟩ : LoweringConfig).pass stretchedCircuit.instructions =
      .ok ([(Operation.controlled 2 (turnPower overflowed)).on [0, 1, 2]], true) := by
    rw [← hfirstChanged]
    exact pass_single hvalid (lowers_controlled_stretchedTurn (by decide))
  have hsecond : (⟨[], passes⟩ : LoweringConfig).pass
      [(Operation.controlled 2 (turnPower overflowed)).on [0, 1, 2]] =
        .ok ([(Operation.controlled 2 (turnRoot overflowed)).on [0, 1, 2]], true) := by
    rw [← hsecondChanged]
    exact pass_single hpower (lowers_controlled_turnPower (by decide)
      (neither_one_nor_whole _ (by simp)).2)
  have hfix : (⟨[], passes⟩ : LoweringConfig).fixWithin passes stretchedCircuit.instructions =
      .error (.failed (.passLimit passes)) := by
    match passes with
    | 0 => rfl
    | 1 => rw [fixWithin, hfirst]; rfl
    | passes + 2 =>
        rw [fixWithin, hfirst]
        change LoweringConfig.fixWithin _ (passes + 1) _ = _
        rw [fixWithin, hsecond]
        exact fixWithin_of_pass_self pass_controlled_turnRoot passes
  rw [lowerUntilFixed, hfix]
  rfl

end Stretched

end LoweringConfig

end GateAlgebra
