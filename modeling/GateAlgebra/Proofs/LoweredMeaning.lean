import GateAlgebra.Proofs.Convergence
import GateAlgebra.Proofs.PassSound
import GateAlgebra.Proofs.Valuation
/-!
Lowering preserves meaning.  Gates in normal form denote the same when they are lowered, by
themselves or in circuits, as long as nothing is rounded on the way.
-/

namespace GateAlgebra

/-- Gates under any modifiers, and the instructions that are no gates. -/
def Instruction.Admissible (inst : Instruction) : Prop :=
  inst.operation.Built ∧ inst.operation.RootsExact 0 ∨
    inst.operation.kind ∈ [.measure, .reset, .barrier, .channel, .expectation]

theorem Instruction.Admissible.ready {inst : Instruction} (h : inst.Admissible)
    (hvalid : inst.Valid) : inst.Ready := by
  refine ⟨hvalid, ?_⟩
  rcases h with ⟨hbuilt, hroots⟩ | hkind
  · left
    exact ⟨Operation.isUnitary_of_built hbuilt, Operation.canonical_of_built hbuilt, hroots⟩
  · exact Or.inr hkind

/-- Whatever order modifiers are applied in, a gate that is lowered denotes what it did on
its targets and nothing on other qubits, as long as the square roots of its exponents and the
angles of its known roots are exact.  Circuits keep all other instructions and do the same between
them. -/
theorem ExactSemantics.lowering_preserves_meaning {R : Type*} [CommRing R] [StarRing R]
    (S : ExactSemantics R) :
    (∀ (op : Operation) (qubits bits zvars ancillae : List Nat) (emitted : List Instruction),
      op.Built → op.RootsExact 0 → ancillae.Nodup →
      (op.on qubits).ScalesWith S.angle ancillae →
      op.lower qubits bits zvars ancillae = .done emitted →
      S.run emitted = S.operator op qubits) ∧
    (∀ (config : LoweringConfig) (c lowered : Circuit), config.ancillae.Nodup →
      (∀ inst ∈ c.instructions, inst.Valid ∧ inst.Admissible) →
      config.ScalesFrom S.angle c.instructions →
      config.lowerCircuit c = .ok lowered ∨ config.lowerUntilFixed c = .ok lowered →
      S.outline lowered.instructions = S.outline c.instructions) := by
  refine ⟨?_, ?_⟩
  · intro op qubits bits zvars ancillae emitted hbuilt hroots hancillae hscales h
    have hunitary := Operation.isUnitary_of_built hbuilt
    rw [Operation.lower, Emission.build_eq_done_iff] at h
    obtain ⟨inst, hmade, hdone⟩ := h
    obtain ⟨rfl, hvalid⟩ := Instruction.make_eq_ok_iff.1 hmade
    have hexact : op.Exact 0 := ⟨hunitary, Operation.canonical_of_built hbuilt, hroots⟩
    have hsame : (⟨op, qubits, bits, zvars⟩ : Instruction) = op.on qubits :=
      hvalid.eq_on_qubits hunitary
    rw [hsame] at hvalid hdone
    exact (S.run_lower hvalid hexact hancillae hscales hdone).1
  · intro config c lowered hancillae hadmissible hscales h
    have hready : ∀ inst ∈ c.instructions, inst.Ready :=
      fun inst hinst => (hadmissible inst hinst).2.ready (hadmissible inst hinst).1
    rcases h with h | h
    · exact LoweringConfig.outline_lowerCircuit S hancillae hready (hscales _ .refl) h
    · exact LoweringConfig.outline_lowerUntilFixed S hancillae hready hscales h

section Copies

open LoweringConfig

/-- One half of the angle one is the double for it. -/
theorem scalesExactly_shortTurn : (Gate.rx (.real 1)).ScalesExactly Valuation.plain.angle .half
    (.rx (.real 0.5)) := by
  have hone : knownAngle (.real 1) = 1 := by
    have hdouble : Double.ofFloat 1 = .finite false (2 ^ 52) (-52) := rfl
    rw [knownAngle_of_real? (x := 1) rfl rfl, hdouble, Double.value]
    norm_num
  have hhalf : knownAngle (.real 0.5) = 1 / 2 := by
    have hdouble : Double.ofFloat 0.5 = .finite false (2 ^ 52) (-53) := rfl
    rw [knownAngle_of_real? (x := 0.5) rfl rfl, hdouble, Double.value]
    norm_num
  have hnumber : (Exponent.half.number : ℝ) = 1 / 2 := by
    norm_num [Exponent.half, Exponent.number, Rat.mkRat_eq_div]
  refine List.forall_mem_singleton.2 (List.forall_mem_singleton.2 ?_)
  change knownAngle (.real 0.5) = Exponent.half.number * knownAngle (.real 1)
  rw [hone, hhalf, hnumber, mul_one]

theorem scalesAt_of_mem_copiesOperations {inst : Instruction}
    (h : inst.operation ∈ copiesOperations) : inst.ScalesAt Valuation.plain.angle := by
  intro e g root hop _ hroot
  have hknown : (Gate.rx (.real 1)).root? .half = some (.rx (.real 0.5)) := rfl
  obtain ⟨rfl, rfl⟩ : e = .half ∧ g = .rx (.real 1) := by
    simpa [hop, copiesOperations, halvedTurn, shortTurn, Operation.cx, Operation.ccx,
      Operation.controlledGate] using h
  obtain rfl := Option.some.inj (hknown.symm.trans hroot)
  exact scalesExactly_shortTurn

theorem scalesFrom_copiesCircuit :
    copiesConfig.ScalesFrom Valuation.plain.angle copiesCircuit.instructions :=
  fun _ hlater _ hinst _ hpart =>
    scalesAt_of_mem_copiesOperations (mem_copiesOperations hlater hinst hpart)

theorem built_copies : (Operation.controlled 2 (.repeated 2 halvedTurn)).Built := by
  have hraise : (Operation.gate (.rx (.real 1))).raise .half =
      .powered .half (.gate (.rx (.real 1))) :=
    Operation.raise_eq_powered rfl (by simp [Operation.kind])
  have hpower : (Operation.powered .half (.gate (.rx (.real 1)))).Built :=
    .power (.gate _) (Operation.power_eq_ok_iff.2 ⟨rfl, hraise.symm⟩)
  have hinverse : halvedTurn.Built := .inverse hpower (Operation.inverse_eq_ok rfl)
  exact .control (.parallel hinverse (Operation.parallel_eq_ok Nat.two_pos rfl))
    (Operation.control_eq_ok Nat.two_pos rfl)

theorem rootsExact_copies : (Operation.controlled 2 (.repeated 2 halvedTurn)).RootsExact 0 := by
  have hone : (Exponent.ofNat 1).HalvesExactly 2 := by
    rw [Exponent.ofNat_one]
    exact Exponent.halvesExactly_rational zero_le_one rfl rfl
  have hhalf : Exponent.half.HalvesExactly 2 :=
    Exponent.halvesExactly_rational rfl rfl rfl
  exact ⟨fun _ => hhalf, hone⟩

theorem built_controlledX : (Operation.controlled 3 (.gate .x)).Built :=
  .control (.gate .x) (Operation.control_eq_ok (Nat.succ_pos 2) rfl)

theorem rootsExact_controlledX : (Operation.controlled 3 (.gate .x)).RootsExact 0 := by
  have hone := Exponent.halvesExactly_rational (c := 3) zero_le_one rfl rfl
  rwa [← Exponent.ofNat_one] at hone

/-- Two copies of an inverse half of a turn under two controls, by themselves and, as far as
passes go, before X under three controls that borrows a qubit and a measurement. -/
theorem lowering_preserves_copies :
    let S := Valuation.plain.semantics
    let copies := Operation.controlled 2 (.repeated 2 halvedTurn)
    let turns := [(Operation.controlled 2 shortTurn).on [0, 1, 2],
      (Operation.controlled 2 shortTurn).on [0, 1, 3]]
    copies.lower [0, 1, 2, 3] [] [] [4] = .done turns ∧
      S.run turns = S.operator copies [0, 1, 2, 3] ∧
      copiesConfig.lowerUntilFixed copiesCircuit = .ok ⟨"", copiesSecond⟩ ∧
      S.outline copiesSecond = S.outline copiesCircuit.instructions := by
  intro S copies turns
  obtain ⟨hgate, hcircuit⟩ := S.lowering_preserves_meaning
  have hvalid : (copies.on [0, 1, 2, 3]).Valid :=
    Instruction.valid_of_isUnitary rfl rfl (by decide)
  have hlower : copies.lower [0, 1, 2, 3] [] [] [4] = .done turns :=
    (hvalid.lower_operation [4]).trans (lower_eq_done_of_lowers hvalid lowers_copies)
  refine ⟨hlower, ?_, lowerUntilFixed_copiesCircuit, ?_⟩
  · exact hgate copies [0, 1, 2, 3] [] [] [4] turns built_copies rootsExact_copies
      (List.nodup_singleton 4)
      (scalesFrom_copiesCircuit _ .refl _ List.mem_cons_self) hlower
  · refine hcircuit copiesConfig copiesCircuit _ (List.nodup_singleton 4) ?_
      scalesFrom_copiesCircuit (Or.inr lowerUntilFixed_copiesCircuit)
    refine fun inst hinst => ⟨valid_copiesCircuit inst hinst, ?_⟩
    simp only [copiesCircuit, List.mem_cons, List.not_mem_nil, or_false] at hinst
    rcases hinst with rfl | rfl | rfl
    · exact Or.inl ⟨built_copies, rootsExact_copies⟩
    · exact Or.inl ⟨built_controlledX, rootsExact_controlledX⟩
    · exact Or.inr (by simp [Operation.kind])

end Copies

section Rounding

/-- The denominator of the square root is too large by three, and the root is rounded. -/
def tightExponent : Exponent :=
  .rational (mkRat 1 (2 ^ 62 + 1))

theorem isOne_tightExponent : tightExponent.isOne = false := by
  rfl

theorem number_tightExponent : tightExponent.number = 1 / (2 ^ 62 + 1) := by
  have hratio : mkRat 1 (2 ^ 62 + 1) = 1 / (2 ^ 62 + 1) := by norm_num [Rat.mkRat_eq_div]
  rw [tightExponent, Exponent.number, hratio]
  exact max_eq_left (by norm_num)

theorem number_root_tightExponent : tightExponent.root.number = 1 / 2 ^ 63 := by
  let rounded := ratioToFloat (mkRat 1 (2 ^ 62 + 1)) * ratioToFloat (mkRat 1 2)
  have hfits : (fitsWord ((mkRat 1 (2 ^ 62 + 1)).num * (mkRat 1 2).num) &&
      fitsWord ((mkRat 1 (2 ^ 62 + 1)).den * (mkRat 1 2).den)) = false := by
    rfl
  have hproduct : tightExponent * .half = .real rounded := by
    change Exponent.mul (.rational (mkRat 1 (2 ^ 62 + 1))) (.rational (mkRat 1 2)) = _
    rw [Exponent.mul, hfits, if_neg Bool.false_ne_true]
  have hone : (Exponent.real rounded).isOne = false := by decide
  have hdouble : Double.ofFloat rounded = .finite false (2 ^ 52) (-115) := by decide
  rw [Exponent.root, hproduct, hone, if_neg Bool.false_ne_true, Exponent.number, hdouble,
    Double.value]
  norm_num

/-- The operation that is to be rooted. -/
def tightPower : Operation :=
  .powered tightExponent (.gate .y)

theorem lowerOn_tightPower (q : Nat) :
    lowerOn (lowerWithin [] 3) tightPower [q] = .done [tightPower.on [q]] := by
  have hnatural : tightExponent.natural? = none := rfl
  have hvalid : (tightPower.on [q]).Valid :=
    Instruction.valid_of_isUnitary rfl rfl (List.nodup_singleton q)
  have hgate : lowerOn (lowerWithin [] 2) (.gate .y) [q] =
      .done [(Operation.gate .y).on [q]] := by
    rw [lowerOn_eq (Instruction.valid_of_isUnitary rfl rfl (List.nodup_singleton q))]
    rfl
  have hsame : isUnchanged [(Operation.gate .y).on [q]] (.gate .y) [q] = true :=
    isUnchanged_on _ _ _
  rw [lowerOn_eq hvalid, lowerWithin]
  simp only [lowerStep, tightPower, Operation.operation_on, Operation.qubits_on, lowerPowered,
    hnatural, Gate.root?, Gate.rootBy, Option.map_none, hgate, Emission.whole_done, hsame, if_true]

theorem lower_controlled_tightPower :
    (Operation.controlled 2 tightPower).lower [0, 1, 2] [] [] [] =
      controlledRoot tightPower [0, 1] 2 [] := by
  have hvalid : ((Operation.controlled 2 tightPower).on [0, 1, 2]).Valid :=
    Instruction.valid_of_isUnitary rfl rfl (by decide)
  have hself : (tightPower == tightPower) = true := rfl
  have hrank : ((Operation.controlled 2 tightPower).on [0, 1, 2]).operation.rank = 4 := rfl
  have hqubit : tightPower.numQubits = 1 := rfl
  have hx : (tightPower == .gate .x) = false := rfl
  rw [Operation.lower, Instruction.make_eq_ok_iff.2 ⟨rfl, hvalid⟩, Emission.build_ok,
    Instruction.lower]
  change lowerWithin [] ((Operation.controlled 2 tightPower).on [0, 1, 2]).operation.rank _ = _
  rw [hrank, lowerWithin]
  simp [lowerStep, lowerControlled, lowerOn_tightPower, isUnchanged_on, hself, hqubit,
    lowerControlledLeaf, hx]

theorem built_tightPower : tightPower.Built := by
  have hraise : (Operation.gate .y).raise tightExponent = tightPower :=
    Operation.raise_eq_powered isOne_tightExponent (by simp [Operation.kind])
  exact .power (.gate .y) (Operation.power_eq_ok_iff.2 ⟨rfl, hraise.symm⟩)

theorem isCore_tightPower : tightPower.IsCore := by
  simp [Operation.IsCore, tightPower, Operation.kind]

/-- The rounded root. -/
def tightRoot : Operation :=
  tightPower.raise .half

theorem isUnitary_tightRoot : tightRoot.isUnitary = true :=
  Operation.isUnitary_raise _ _

theorem numQubits_tightRoot : tightRoot.numQubits = 1 :=
  Operation.numQubits_raise _ _

variable (v : Valuation)

/-- The rounded root does not square to what it is a root of. -/
theorem tightRoot_mul_self_ne :
    v.semantics.qubitMatrix tightRoot * v.semantics.qubitMatrix tightRoot ≠
      v.semantics.qubitMatrix tightPower := by
  let S := v.semantics
  intro hmatrix
  obtain ⟨hexponent, hbase, -⟩ := Operation.raise_half_of_core
    (Operation.canonical_of_built built_tightPower) isCore_tightPower
  have hsquare : S.operator tightRoot [2] * S.operator tightRoot [2] =
      S.operator tightPower [2] := by
    rw [S.operator_qubit numQubits_tightRoot, S.operator_qubit rfl, select_mul (fun _ _ => rfl)]
    exact congrArg (fun M => select 2 fun _ => M) hmatrix
  rw [S.operator_eq_basePower isUnitary_tightRoot, S.operator_eq_basePower rfl, tightRoot,
    hexponent, hbase] at hsquare
  change S.basePower (.gate .y) tightExponent.root.number [2] *
      S.basePower (.gate .y) tightExponent.root.number [2] =
    S.basePower (.gate .y) tightExponent.number [2] at hsquare
  rw [number_root_tightExponent, number_tightExponent, v.basePower_y, v.basePower_y,
    ← place_mul rfl (List.nodup_singleton 2), principalPower_mul pauliY_mem] at hsquare
  have hnumbers := eq_of_principalPower_eq pauliY_mem pauliY_mul_self pauliY_ne_one
    (by norm_num) (by norm_num) (place_injective rfl (List.nodup_singleton 2) hsquare)
  norm_num at hnumbers

/-- The gates that are handed out do the square of the rounded root under both controls. -/
theorem run_controlled_tightPower :
    ∃ emitted, (Operation.controlled 2 tightPower).lower [0, 1, 2] [] [] [] = .done emitted ∧
      v.semantics.run emitted = ctrl [1, 0]
        (select 2 fun _ =>
          v.semantics.qubitMatrix tightRoot * v.semantics.qubitMatrix tightRoot) := by
  let S := v.semantics
  obtain ⟨final, hfinal, hrunFinal⟩ :=
    S.run_control_one isUnitary_tightRoot numQubits_tightRoot (show 0 ≠ 2 by decide)
  have hnodup : ([1, 0] ++ 2 :: []).Nodup := by decide
  obtain ⟨emitted, hdone, hrun⟩ := S.run_rootLadder_cons rfl rfl (List.cons_ne_nil 0 [])
    hnodup (S.qubitMatrix_invert_mul isUnitary_tightRoot numQubits_tightRoot) hfinal hrunFinal
  exact ⟨emitted, lower_controlled_tightPower.trans hdone, hrun⟩

/-- A square root that is rounded shows: the gates that are handed out are a controlled
power of Y, but not the one that was asked for. -/
theorem rounded_root_changes_meaning :
    (Operation.controlled 2 tightPower).Built ∧
    ∃ emitted, (Operation.controlled 2 tightPower).lower [0, 1, 2] [] [] [] = .done emitted ∧
      Valuation.plain.semantics.run emitted ≠
        Valuation.plain.semantics.operator (.controlled 2 tightPower) [0, 1, 2] := by
  let S := Valuation.plain.semantics
  have hbuilt : (Operation.controlled 2 tightPower).Built :=
    .control built_tightPower (Operation.control_eq_ok Nat.two_pos rfl)
  obtain ⟨emitted, hdone, hrun⟩ := run_controlled_tightPower Valuation.plain
  refine ⟨hbuilt, emitted, hdone, fun hsame => ?_⟩
  have hcontrolled : S.operator (.controlled 2 tightPower) [0, 1, 2] =
      ctrl [1, 0] (select 2 fun _ => S.qubitMatrix tightPower) := by
    have hlength : [0, 1, 2].length = 2 + tightPower.numQubits := rfl
    have hcontrols : ∀ q, q ∈ [0, 1] ↔ q ∈ [1, 0] := by simp [or_comm]
    rw [S.operator_controlled hlength (by decide), ← ctrl_congr hcontrols]
    exact congrArg _ (S.operator_qubit rfl 2)
  rw [hrun, hcontrolled] at hsame
  exact tightRoot_mul_self_ne Valuation.plain (ctrl_select_const_injective (by decide) hsame)

end Rounding

end GateAlgebra
