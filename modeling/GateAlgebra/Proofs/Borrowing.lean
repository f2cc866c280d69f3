import GateAlgebra.Proofs.ControlledRoot
import GateAlgebra.Proofs.LadderLoops
import GateAlgebra.Proofs.Pass
import GateAlgebra.Proofs.Stable
/-!
Ancillae that are listed twice.  X under controls makes use of the first of the free ancillae
only.  It is right if these are distinct, and a ladder is right in no other case, though
lowering does not fail in all of them.
-/

namespace GateAlgebra

open Emission

section Synthesis

variable {controls free : List Nat} {target : Nat}

/-- How many of the free qubits X under controls makes use of: a ladder needs two fewer than
there are controls, and two groups need the one between them and what the first group does not
find in the second. -/
def borrowedCount (controls free : Nat) : Nat :=
  if controls ≤ free + 2 then controls - 2
  else 2 * ((controls + 1 + free) / 2) - (controls + 3) + 1

theorem directX_congr {free' : List Nat}
    (h : free.take (controls.length - 2) = free'.take (controls.length - 2)) :
    directX controls target free = directX controls target free' := by
  match controls with
  | [] | [a] | [a, b] => rfl
  | first :: second :: third :: controls =>
      change toffoliLadder _ target (free.take _) = toffoliLadder _ target (free'.take _)
      exact congrArg _ h

/-- The second group borrows from the first one alone, the first one what it does not find in
the second. -/
theorem directX_second {first second rest rest' : List Nat} {borrowed : Nat}
    (hlength : second.length ≤ first.length + 1) :
    directX (second ++ [borrowed]) target (first ++ rest) =
      directX (second ++ [borrowed]) target (first ++ rest') := by
  apply directX_congr
  have hneeded : (second ++ [borrowed]).length - 2 ≤ first.length := by
    rw [List.length_append, List.length_singleton]
    omega
  rw [List.take_append_of_le_length hneeded, List.take_append_of_le_length hneeded]

theorem directX_first {first second rest : List Nat} {borrowed needed : Nat}
    (hlength : first.length ≤ second.length + needed + 3) :
    directX first borrowed (second ++ target :: rest) =
      directX first borrowed (second ++ target :: rest.take needed) := by
  apply directX_congr
  have hall : (second ++ target :: rest.take needed) =
      (second ++ target :: rest).take (second.length + (needed + 1)) := by
    rw [List.take_length_add_append, List.take_succ_cons]
  have hneeded : first.length - 2 ≤ second.length + (needed + 1) := by omega
  rw [hall, List.take_take, Nat.min_eq_left hneeded]

/-- Two groups make use of some of the rest only. -/
theorem halvedX_performs_of_distinct {rest support : List Nat} {borrowed : Nat}
    (hlength : rest.length + 3 < controls.length)
    (hnodup : (controls ++ target :: borrowed ::
      rest.take (2 * ((controls.length + 2 + rest.length) / 2) - (controls.length + 3))).Nodup)
    (hsub : controls ++ target :: borrowed :: rest ⊆ support) :
    (halvedX controls target borrowed rest).Performs support (toggle controls target) := by
  let half := (controls.length + 2 + rest.length) / 2
  let first := controls.take half
  let second := controls.drop half
  let rest' := rest.take (2 * half - (controls.length + 3))
  have hsplit : first ++ second = controls := List.take_append_drop half controls
  have hfirst : first.length = half := List.length_take_of_le (by omega)
  have hsecond : second.length = controls.length - half := List.length_drop
  have hrest : rest'.length = 2 * half - (controls.length + 3) :=
    List.length_take_of_le (by omega)
  have hpool : directX first borrowed (second ++ target :: rest) =
      directX first borrowed (second ++ target :: rest') := directX_first (by omega)
  have hpool' : directX (second ++ [borrowed]) target (first ++ rest) =
      directX (second ++ [borrowed]) target (first ++ rest') := directX_second (by omega)
  have hgroups : halvedX controls target borrowed rest =
      ((directX first borrowed (second ++ target :: rest')).andThen
        (directX (second ++ [borrowed]) target (first ++ rest'))).times 2 :=
    congrArg (fun groups => groups.times 2) (congrArg₂ andThen hpool hpool')
  rw [hgroups, ← hsplit]
  refine twoGroups_performs (by omega) (by omega) (by rw [hsplit]; exact hnodup) ?_
  rw [hsplit]
  refine List.Subset.trans ?_ hsub
  have htake : rest' ⊆ rest := List.take_subset _ _
  grind

/-- With distinct qubits among those that it makes use of, X under controls toggles the
target, whatever else is listed. -/
theorem controlledX_performs_of_distinct (hborrow : controls.length ≤ 2 ∨ free ≠ [])
    (hcontrols : (controls ++ [target]).Nodup) (hfree : ∀ q ∈ free, q ∉ controls ++ [target])
    (hdistinct : (free.take (borrowedCount controls.length free.length)).Nodup) :
    (controlledX controls target free).Performs (controls ++ target :: free)
      (toggle controls target) := by
  have hall : ∀ count, (free.take count).Nodup → (controls ++ target :: free.take count).Nodup := by
    intro count hcount
    have happend := hcontrols.append hcount fun q hq hmem => hfree q (List.take_subset _ _ hmem) hq
    simpa using happend
  by_cases hlength : controls.length ≤ free.length + 2
  · rw [borrowedCount, if_pos hlength] at hdistinct
    have htake : directX controls target free =
        directX controls target (free.take (controls.length - 2)) :=
      directX_congr (by rw [List.take_take, Nat.min_self])
    rw [controlledX_eq_directX hlength, htake]
    refine directX_performs ?_ (hall _ hdistinct) ?_
    · rw [List.length_take]
      omega
    · have hsub : free.take (controls.length - 2) ⊆ free := List.take_subset _ _
      grind
  · obtain ⟨borrowed, rest, rfl⟩ : ∃ borrowed rest, free = borrowed :: rest :=
      List.exists_cons_of_ne_nil (hborrow.resolve_left (by omega))
    rw [borrowedCount, if_neg hlength] at hdistinct
    simp only [List.length_cons] at hlength hdistinct
    have hcount : controls.length + 1 + (rest.length + 1) = controls.length + 2 + rest.length := by
      omega
    rw [controlledX_eq_borrowingX, borrowingX, if_neg (by omega)]
    rw [hcount] at hdistinct
    exact halvedX_performs_of_distinct (by omega) (hall _ hdistinct) (List.Subset.refl _)

/-- If lowering completes a ladder, then its Toffoli gates are on three qubits each. -/
theorem toffoliLadder_performs_of_done {first second carry : Nat} {controls borrowed : List Nat}
    {emitted : List Instruction}
    (h : toffoliLadder (first :: second :: controls) target (carry :: borrowed) =
      .done emitted) :
    (toffoliLadder (first :: second :: controls) target (carry :: borrowed)).Performs
      (first :: second :: controls ++ carry :: (borrowed ++ [target]))
      (ladderRound [first, second] carry controls (borrowed ++ [target]) *
        ladderRound [first, second] carry controls (borrowed ++ [target])) := by
  refine toffoliLadder_performs_rounds fun rung hrung => ?_
  have hdone : ∃ list, toffoli rung.1 rung.2.1 rung.2.2 = .done list := by
    rw [toffoliLadder_eq_times] at h
    obtain ⟨lowered, hround, -⟩ := times_eq_done_iff.1 h
    obtain ⟨lists, hlists, -⟩ := sequence_map_eq_done_iff.1 hround
    exact exists_of_forall₂ hlists rung hrung
  obtain ⟨list, hlist⟩ := hdone
  have hnodup : [rung.1, rung.2.1, rung.2.2].Nodup :=
    (apply_eq_done_iff.1 hlist).2.qubits_nodup
  refine toffoli_performs hnodup ?_
  rcases mem_roundRungs hrung with rfl | hmem
  · grind
  · have hbound := mem_rungs hmem
    grind

/-- Where a ladder comes back to a borrowed qubit, it does not toggle the target as the
controls say. -/
theorem directX_misfires {emitted : List Instruction} (hmany : 3 ≤ controls.length)
    (hlength : controls.length ≤ free.length + 2) (hcontrols : (controls ++ [target]).Nodup)
    (hfree : ∀ q ∈ free, q ∉ controls ++ [target])
    (hloop : ¬(free.take (controls.length - 2)).Nodup)
    (h : directX controls target free = .done emitted) :
    ∃ f, runBits emitted = some f ∧
      ∃ s : Assignment, f s target ≠ (s target ^^ controls.all s) := by
  match controls with
  | first :: second :: third :: controls =>
      change toffoliLadder _ target (free.take (controls.length + 1)) = _ at h
      change ¬(free.take (controls.length + 1)).Nodup at hloop
      match free with
      | carry :: free =>
          rw [List.take_succ_cons] at h hloop
          have hcount : (third :: controls).length = (free.take controls.length).length + 1 := by
            rw [List.length_cons, List.length_take_of_le]
            simpa using hlength
          obtain ⟨_, hdone, -, hrun⟩ := toffoliLadder_performs_of_done h
          obtain rfl := done_inj.1 (h.symm.trans hdone)
          have htake : free.take controls.length ⊆ free := List.take_subset _ _
          have hdistinct : ([first, second] ++ third :: controls).Nodup :=
            hcontrols.of_append_left
          have hapart : ∀ q ∈ carry :: (free.take controls.length ++ [target]),
              q ∉ [first, second] ++ third :: controls := by
            grind
          have htarget : target ∉ carry :: free.take controls.length := by grind
          exact ⟨_, hrun, exists_misfire hcount hdistinct hapart htarget hloop⟩


end Synthesis

section Instructions

variable {controls ancillae : List Nat} {target : Nat} {emitted : List Instruction}

/-- X under controls, as an instruction. -/
def controlledXOn (controls : List Nat) (target : Nat) : Instruction :=
  (Operation.controlled controls.length (.gate .x)).on (controls ++ [target])

theorem valid_controlledXOn (hnodup : (controls ++ [target]).Nodup) :
    (controlledXOn controls target).Valid :=
  Instruction.valid_of_isUnitary rfl (by rw [List.length_append]; rfl) hnodup

theorem not_mem_of_mem_free {q : Nat} (hq : q ∈ (controlledXOn controls target).free ancillae) :
    q ∉ controls ++ [target] :=
  (Instruction.mem_free_iff.1 hq).2

theorem lower_controlledXOn (hnodup : (controls ++ [target]).Nodup) (ancillae : List Nat) :
    (controlledXOn controls target).lower ancillae =
      controlledX controls target ((controlledXOn controls target).free ancillae) := by
  have hx : ∀ free, lowerOn (lowerWithin free 1) (.gate .x) [target] =
      .done [(Operation.gate .x).on [target]] := fun free => lowerOn_eq_done_iff.2
    ⟨Instruction.valid_of_isUnitary rfl rfl (List.nodup_singleton target), rfl⟩
  rw [Instruction.lower_eq]
  change lowerControlled (lowerWithin _ 1) _ _ controls.length (.gate .x) = _
  by_cases hone : controls.length = 1
  · obtain ⟨control, rfl⟩ := List.length_eq_one_iff.1 hone
    have hsingle : controlledX [control] target
        ((controlledXOn [control] target).free ancillae) =
        .done [controlledXOn [control] target] := by
      rw [controlledX_eq_directX (by simp)]
      exact apply_eq_done rfl rfl hnodup
    rw [lowerControlled, if_pos ⟨rfl, hone⟩, hsingle]
  · have hsame : isUnchanged [(Operation.gate .x).on [target]] (.gate .x) [target] = true := by
      rw [isUnchanged_on]
      rfl
    have hmany : ¬((Operation.gate .x).numQubits ≠ 1 ∨ controls.length = 1) :=
      not_or.2 ⟨not_not_intro rfl, hone⟩
    rw [lowerControlled, if_neg fun h => hone h.2]
    simp only [controlledXOn, Operation.qubits_on, List.take_left, List.drop_left, hx, whole_done,
      hsame, if_true]
    rw [lowerControlledLeaf, if_neg hmany]
    rfl

/-- A block of toggles that flips the target exactly if all controls are one, and nothing
else. -/
def FlipsOnly (controls : List Nat) (target : Nat) (emitted : List Instruction) : Prop :=
  ∃ f, runBits emitted = some f ∧ ∀ s : Assignment,
    f s target = (s target ^^ controls.all s) ∧ ∀ q, q ≠ target → f s q = s q

theorem flipsOnly_of_performs {support : List Nat} {emission : Emission}
    (h : emission.Performs support (toggle controls target)) (hdone : emission = .done emitted) :
    (∀ part ∈ emitted, part.operation ∈ [Operation.gate .x, .cx, .ccx]) ∧
      FlipsOnly controls target emitted := by
  obtain ⟨_, hsame, hkind, hrun⟩ := h
  obtain rfl := done_inj.1 (hdone.symm.trans hsame)
  refine ⟨fun part hpart => (hkind part hpart).operation_mem, _, hrun, fun s => ⟨?_, ?_⟩⟩
  · exact toggle_apply_self controls target s
  · exact fun q hq => toggle_apply_of_ne controls hq s

theorem operator_controlledXOn {R : Type*} [CommRing R] (S : Semantics R)
    (hnodup : (controls ++ [target]).Nodup) :
    S.operator (controlledXOn controls target).operation (controlledXOn controls target).qubits =
      turn (toggle controls target) := by
  have hlength : (controls ++ [target]).length =
      controls.length + (Operation.gate .x).numQubits := by
    rw [List.length_append]
    rfl
  rw [controlledXOn, Operation.operation_on, Operation.qubits_on,
    S.operator_controlled hlength hnodup, List.take_left, List.drop_left, S.operator_x,
    ctrl_turn_toggle, List.append_nil]

/-- A ladder that lowering completes flips just its target only if what it borrows is
distinct. -/
theorem nodup_of_flipsOnly {free : List Nat} (hcontrols : (controls ++ [target]).Nodup)
    (hfree : ∀ q ∈ free, q ∉ controls ++ [target]) (hlength : controls.length ≤ free.length + 2)
    (hdone : controlledX controls target free = .done emitted)
    (hflips : FlipsOnly controls target emitted) : (free.take (controls.length - 2)).Nodup := by
  by_contra hloop
  have hmany : 3 ≤ controls.length := by
    by_contra hfew
    rw [Nat.sub_eq_zero_of_le (by omega), List.take_zero] at hloop
    exact hloop List.nodup_nil
  rw [controlledX_eq_directX hlength] at hdone
  obtain ⟨f, hf, s, hs⟩ := directX_misfires hmany hlength hcontrols hfree hloop hdone
  obtain ⟨g, hg, hall⟩ := hflips
  obtain rfl := Option.some.inj (hf.symm.trans hg)
  exact hs (hall s).1

/-- X under controls is lowered to a block that is X under these controls if the ancillae that
it makes use of are distinct, whatever else is listed.  A ladder is right in no other case. -/
theorem ancillae_are_safe_if_distinct {R : Type*} [CommRing R] (S : Semantics R)
    (config : LoweringConfig) (hnodup : (controls ++ [target]).Nodup) :
    let inst := controlledXOn controls target
    let free := inst.free config.ancillae
    ((free.take (borrowedCount controls.length free.length)).Nodup →
      controls.length ≤ 2 ∨ free ≠ [] ∨ S.HasRoots (.gate .x) (controls.length - 1) →
      ∃ emitted, inst.operation.lower inst.qubits [] [] config.ancillae = .done emitted ∧
        config.lowerInstruction inst = .ok ⟨"decomposed", emitted⟩ ∧
        S.run emitted = S.operator inst.operation inst.qubits ∧
        (controls.length ≤ 2 ∨ free ≠ [] →
          (∀ part ∈ emitted, part.operation ∈ [Operation.gate .x, .cx, .ccx]) ∧
          FlipsOnly controls target emitted)) ∧
    ∀ emitted, inst.operation.lower inst.qubits [] [] config.ancillae = .done emitted →
      controls.length ≤ free.length + 2 →
      (FlipsOnly controls target emitted ↔ (free.take (controls.length - 2)).Nodup) := by
  intro inst free
  have hsame : inst.operation.lower inst.qubits [] [] config.ancillae =
      inst.lower config.ancillae := (valid_controlledXOn hnodup).lower_operation _
  have hlower : inst.lower config.ancillae = controlledX controls target free :=
    lower_controlledXOn hnodup _
  have hfree : ∀ q ∈ free, q ∉ controls ++ [target] := fun q hq => not_mem_of_mem_free hq
  have htarget : target ∉ controls := fun hmem =>
    List.disjoint_of_nodup_append hnodup hmem (List.mem_singleton_self target)
  rw [hsame]
  refine ⟨fun hdistinct hroots => ?_, fun emitted hdone hlength =>
    ⟨nodup_of_flipsOnly hnodup hfree hlength (hlower.symm.trans hdone), fun hdistinct => ?_⟩⟩
  · by_cases hborrow : controls.length ≤ 2 ∨ free ≠ []
    · have hperforms := controlledX_performs_of_distinct hborrow hnodup hfree hdistinct
      obtain ⟨emitted, hdone, hrun⟩ := S.run_of_performs hperforms (toggle_mul_self htarget)
      exact ⟨emitted, hlower.trans hdone,
        LoweringConfig.lowerInstruction_eq_ok (hlower.trans hdone),
        hrun.trans (operator_controlledXOn S hnodup).symm,
        fun _ => flipsOnly_of_performs hperforms hdone⟩
    · obtain ⟨hmany, hnone⟩ := not_or.1 hborrow
      have hempty : free = [] := not_not.1 hnone
      have hroots' := (hroots.resolve_left hmany).resolve_left hnone
      rw [hempty] at hlower
      obtain ⟨emitted, hdone, hrun⟩ := S.run_controlledX hnodup hroots'
      rw [S.operator_x, ctrl_turn_toggle, List.append_nil] at hrun
      exact ⟨emitted, hlower.trans hdone,
        LoweringConfig.lowerInstruction_eq_ok (hlower.trans hdone),
        hrun.trans (operator_controlledXOn S hnodup).symm, fun h => absurd h hborrow⟩
  · have hborrow : controls.length ≤ 2 ∨ free ≠ [] := by
      by_contra hnone
      obtain ⟨hmany, hempty⟩ := not_or.1 hnone
      rw [not_not.1 hempty] at hlength
      exact hmany hlength
    have hcount : borrowedCount controls.length free.length = controls.length - 2 :=
      if_pos hlength
    rw [← hcount] at hdistinct
    exact (flipsOnly_of_performs (controlledX_performs_of_distinct hborrow hnodup hfree hdistinct)
      (hlower.symm.trans hdone)).2

/-- The fourth ancilla is the first one again, but a ladder for five controls borrows three. -/
theorem ancillae_are_safe_if_distinct_five :
    ([0, 1, 2, 3, 4] ++ [5] : List Nat).Nodup ∧
    ∃ emitted, (controlledXOn [0, 1, 2, 3, 4] 5).operation.lower [0, 1, 2, 3, 4, 5] [] []
        [6, 7, 8, 6] = .done emitted ∧
      FlipsOnly [0, 1, 2, 3, 4] 5 emitted := by
  have hnodup : ([0, 1, 2, 3, 4] ++ [5] : List Nat).Nodup := by decide
  obtain ⟨hsafe, -⟩ :=
    ancillae_are_safe_if_distinct Semantics.negationRoots ⟨[6, 7, 8, 6], 16⟩ hnodup
  obtain ⟨emitted, hlower, -, -, hflips⟩ := hsafe (by decide) (Or.inr (Or.inl (by decide)))
  exact ⟨hnodup, emitted, hlower, (hflips (Or.inr (by decide))).2⟩

/-- One round of a ladder for five controls that comes back to the first qubit it borrowed. -/
def loopedRound : List Instruction :=
  [Operation.ccx.on [4, 6, 5], Operation.ccx.on [3, 7, 6], Operation.ccx.on [2, 6, 7],
    Operation.ccx.on [0, 1, 6], Operation.ccx.on [2, 6, 7], Operation.ccx.on [3, 7, 6]]

theorem toffoliLadder_looped :
    toffoliLadder [0, 1, 2, 3, 4] 5 [6, 7, 6] = .done (loopedRound ++ loopedRound) := by
  have hdistinct : ∀ rung ∈ roundRungs 0 1 6 [2, 3, 4] ([7, 6] ++ [5]),
      [rung.1, rung.2.1, rung.2.2].Nodup := by decide
  have htoffoli : ∀ rung ∈ roundRungs 0 1 6 [2, 3, 4] ([7, 6] ++ [5]),
      toffoli rung.1 rung.2.1 rung.2.2 =
        .done [Operation.ccx.on [rung.1, rung.2.1, rung.2.2]] :=
    fun rung hrung => apply_eq_done rfl rfl (hdistinct rung hrung)
  rw [toffoliLadder_eq_times, List.map_congr_left htoffoli]
  rfl

/-- Lowering does not fail if an ancilla is listed twice, but the block that it hands out flips
the target although the third and the fourth control are zero. -/
theorem repeated_ancilla_misfires :
    (controlledXOn [0, 1, 2, 3, 4] 5).operation.lower [0, 1, 2, 3, 4, 5] [] [] [6, 7, 6] =
      .done (loopedRound ++ loopedRound) ∧
    (⟨[6, 7, 6], 16⟩ : LoweringConfig).lowerInstruction (controlledXOn [0, 1, 2, 3, 4] 5) =
      .ok ⟨"decomposed", loopedRound ++ loopedRound⟩ ∧
    ∃ f, runBits (loopedRound ++ loopedRound) = some f ∧
      f (fun q => q ∈ [0, 1, 4]) 5 = true ∧
      ¬FlipsOnly [0, 1, 2, 3, 4] 5 (loopedRound ++ loopedRound) := by
  have hnodup : ([0, 1, 2, 3, 4] ++ [5] : List Nat).Nodup := by decide
  have hlower : (controlledXOn [0, 1, 2, 3, 4] 5).lower [6, 7, 6] =
      .done (loopedRound ++ loopedRound) :=
    (lower_controlledXOn hnodup [6, 7, 6]).trans toffoliLadder_looped
  refine ⟨((valid_controlledXOn hnodup).lower_operation _).trans hlower,
    LoweringConfig.lowerInstruction_eq_ok hlower, _, rfl, ?_, ?_⟩
  · decide
  · rintro ⟨f, hf, hall⟩
    have hflip := (hall fun q => q ∈ [0, 1, 4]).1
    obtain rfl := Option.some.inj hf
    revert hflip
    decide

end Instructions

end GateAlgebra
