import GateAlgebra.Proofs.Settled
import GateAlgebra.Proofs.Total
/-!
What passes hand out.  The first pass leaves operations that are settled, controls on one
qubit, and towers; the second controls on something settled on one qubit, and the third only
what is settled.
-/

namespace GateAlgebra

open Emission

section OneQubit

variable {free qubits : List Nat} {inst : Instruction} {emitted : List Instruction}
  {op w : Operation} {n : Nat}

/-- On one qubit there is no room for a control. -/
theorem kind_ne_controlled (hform : op.WellFormed) (hunitary : op.isUnitary = true)
    (hqubit : op.numQubits = 1) : op.kind ≠ .controlled := by
  intro hkind
  cases op with
  | controlled n w =>
      have hn := hform.1
      have hw := hform.2.2.numQubits_pos hform.2.1
      change n + w.numQubits = 1 at hqubit
      omega
  | _ => cases hkind

theorem Operation.Settled.invert_of_one_qubit (h : op.Settled) (hform : op.WellFormed)
    (hunitary : op.isUnitary = true) (hqubit : op.numQubits = 1) : op.invert.Settled := by
  have hkind := kind_ne_controlled hform hunitary hqubit
  cases op with
  | controlled n w => exact absurd rfl hkind
  | inverted w => exact h.of_inverted
  | repeated n w => exact absurd h not_settled_repeated
  | _ => exact h.inverted hunitary rfl

/-- One control on a root, or on the inverse of one. -/
theorem settled_addControls_one (hform : op.WellFormed) (hunitary : op.isUnitary = true)
    (hqubit : op.numQubits = 1) : (op.addControls 1).Settled := by
  rw [Operation.addControls_eq_controlled (kind_ne_controlled hform hunitary hqubit)]
  exact settled_single hunitary hqubit

/-- Every rung of a controlled operation on one qubit is settled. -/
theorem IsRung.settled {rung : Operation} (h : IsRung op rung) (hform : op.WellFormed)
    (hunitary : op.isUnitary = true) (hqubit : op.numQubits = 1) : rung.Settled := by
  cases h with
  | toggle h =>
      simp only [List.mem_cons, List.not_mem_nil, or_false] at h
      rcases h with rfl | rfl | rfl
      · exact settled_x
      · exact settled_single rfl rfl
      · exact settled_ccx
  | root k =>
      obtain ⟨hroot, hk⟩ := hform.rootAt hunitary k
      exact settled_addControls_one hroot hk (by rw [Operation.numQubits_rootAt, hqubit])
  | unroot k =>
      obtain ⟨hroot, hk⟩ := hform.rootAt hunitary k
      refine settled_addControls_one (hroot.invert hk) (by simpa using hk) ?_
      rw [Operation.numQubits_invert, Operation.numQubits_rootAt, hqubit]

/-- One level of lowering on one qubit. -/
theorem settled_of_one_qubit_step (hinst : inst.Placed free)
    (hqubit : inst.operation.numQubits = 1)
    (h : LowerStep (fun part list => Calls free inst part ∧ Lowers free part list ∧
      (part.Placed free → part.operation.numQubits = 1 →
        ∀ last ∈ list, last.operation.numQubits = 1 ∧ last.operation.Settled)) free inst emitted) :
    ∀ part ∈ emitted, part.operation.numQubits = 1 ∧ part.operation.Settled := by
  have hlowers : Lowers free inst emitted :=
    LowerStep.lowers hinst.valid (h.mono fun part list hlist => hlist.2.1)
  have hkind := kind_ne_controlled hinst.wellFormed hinst.unitary hqubit
  cases h with
  | keep =>
      exact List.forall_mem_singleton.2
        ⟨hqubit, settled_of_lowers hinst.valid hinst.unitary hlowers⟩
  | @expand g steps lists hop hsteps hlists =>
      rw [hop] at hqubit
      have hgate : g.numQubits = 1 := hqubit
      refine forall_mem_flatten hlists fun step hstep list hlist part hpart => ?_
      have hplaced := hinst.step hop hsteps hstep
      have hwidth := ((isStep_of_expansionSteps hsteps).2 step hstep).2
      have hpositive := hplaced.numQubits_pos
      rw [Operation.operation_on] at hpositive
      exact hlist.2.2.2 hplaced (by rw [Operation.operation_on]; omega) part hpart
  | @invert w lowered inverses hop hvalid hsub hinverses =>
      have hplaced := hinst.wrapped (e := .ofNat 1) (Or.inl hop)
      rw [hop] at hqubit
      refine forall_mem_of_forall₂ hinverses fun part hpart inverse hinverse => ?_
      have hmem := List.mem_reverse.1 hpart
      obtain ⟨hone, hsettled⟩ := hsub.2.2 hplaced hqubit part hmem
      have hyields := hsub.2.1.yields hvalid part hmem
      have hunitary := hyields.unitary hplaced.unitary
      obtain rfl := (Instruction.inverse_eq_ok_iff hunitary).1 hinverse
      refine ⟨by simpa using hone, hsettled.invert_of_one_qubit ?_ hunitary hone⟩
      exact hyields.wellFormed hplaced.unitary hplaced.wellFormed
  | @blocks n w lists hop hwidth hlists =>
      refine forall_mem_flatten hlists fun block hblock list hlist part hpart => ?_
      have hplaced := hinst.block hop hblock
      rw [hop] at hqubit
      exact hlist.2.2.2 hplaced (Nat.eq_one_of_mul_eq_one_left hqubit) part hpart
  | zeroth => simp
  | times hop hn hvalid hsub =>
      intro part hpart
      have hplaced := hinst.wrapped (Or.inr hop)
      rw [hop] at hqubit
      obtain ⟨list, hlist, hmem⟩ := List.mem_flatten.1 hpart
      rw [List.eq_of_mem_replicate hlist] at hmem
      exact hsub.2.2 hplaced hqubit part hmem
  | root hop hroot hvalid hsub =>
      have hplaced := hinst.root hop hroot
      rw [hop] at hqubit
      exact hsub.2.2 hplaced ((Gate.numQubits_of_root? hroot).trans hqubit)
  | powerOf hop hvalid hsub hpowered hvalid' hsub' =>
      have hplaced := hinst.wrapped (Or.inr hop)
      obtain ⟨hmade, hagain⟩ := hinst.powerOf hop hsub.2.1
      obtain rfl := Except.ok.inj (hmade.symm.trans hpowered)
      rw [hop] at hqubit
      obtain ⟨hone, -⟩ := hsub.2.2 hplaced hqubit _ List.mem_cons_self
      exact hsub'.2.2 hagain (by rw [Operation.operation_on, Operation.numQubits_raise, hone])
  | controlX hn hop | controlRoot hn hop | controlEach hop =>
      exact absurd (by rw [hop]; rfl) hkind

/-- What an operation on one qubit is lowered to is settled, and on one qubit. -/
theorem Lowers.settled_of_one_qubit (h : Lowers free inst emitted) (hinst : inst.Placed free)
    (hqubit : inst.operation.numQubits = 1) :
    ∀ part ∈ emitted, part.operation.numQubits = 1 ∧ part.operation.Settled := by
  refine Lowers.induction (P := fun inst emitted => inst.Placed free →
    inst.operation.numQubits = 1 →
    ∀ part ∈ emitted, part.operation.numQubits = 1 ∧ part.operation.Settled)
    (fun inst emitted hstep hinst hqubit => ?_) h hinst hqubit
  exact settled_of_one_qubit_step hinst hqubit hstep

end OneQubit

section First

variable {free : List Nat} {inst : Instruction} {emitted : List Instruction} {op : Operation}

/-- What the first pass hands out: what is settled, controls on one qubit, and towers. -/
inductive Operation.FirstStage : Operation → Prop where
  | settled {op : Operation} (h : op.Settled) : FirstStage op
  | single (n : Nat) {w : Operation} (hqubit : w.numQubits = 1) : FirstStage (.controlled n w)
  | tower {op : Operation} (h : op.Tower) : FirstStage op

theorem Operation.FirstStage.invert (h : op.FirstStage) (hunitary : op.isUnitary = true)
    (hself : (op == op) = true) : op.invert.FirstStage := by
  cases h with
  | settled h => exact (h.invert hunitary hself).elim .settled .tower
  | single n hqubit => exact .single n (by simpa using hqubit)
  | tower h => exact .settled h.settled_invert

theorem Operation.FirstStage.addControls (h : op.FirstStage) (hunitary : op.isUnitary = true)
    (hself : (op == op) = true) (n : Nat) : (op.addControls n).FirstStage := by
  cases h with
  | settled h =>
      by_cases hkind : op.kind = .controlled
      · cases op with
        | controlled m w =>
            have hselfW := beq_self_of_controlled hself
            rcases h.of_controlled hselfW with ⟨hqubit, -⟩ | ⟨hmany, hw⟩
            · exact .single (n + m) hqubit
            · exact .settled (hw.controlled hunitary hmany hselfW (n + m))
        | _ => cases hkind
      · rw [addControls_eq_controlled hkind]
        by_cases hqubit : op.numQubits = 1
        · exact .single n hqubit
        · exact .settled (h.controlled hunitary hqubit hself n)
  | single m hqubit => exact .single (n + m) hqubit
  | tower h =>
      cases h with
      | base => exact .single (n + 2) rfl
      | step m hw => exact .tower (.step (n + m) hw)

/-- The rungs that X or another operation on one qubit becomes under controls. -/
theorem settled_controlledX {n : Nat} (hinst : inst.Placed free)
    (hop : inst.operation = .controlled n (.gate .x))
    (h : controlledX (inst.qubits.take n) ((inst.qubits.drop n).headD 0) free =
      .done emitted) : ∀ part ∈ emitted, part.operation.Settled := by
  obtain ⟨target, -, hparts⟩ := rungs_controlledX hinst.valid hop h
  exact fun part hpart => (hparts part hpart).rung.settled trivial rfl rfl

theorem settled_controlledRoot {n : Nat} {w : Operation} (hinst : inst.Placed free)
    (hop : inst.operation = .controlled n w) (hqubit : w.numQubits = 1)
    (h : controlledRoot w (inst.qubits.take n) ((inst.qubits.drop n).headD 0) free =
      .done emitted) : ∀ part ∈ emitted, part.operation.Settled := by
  have hform := hinst.wellFormed
  rw [hop] at hform
  obtain ⟨target, -, ⟨rfl, -, -⟩ | ⟨-, hparts⟩⟩ := rungs_controlledRoot hinst.valid hop hqubit h
  · exact absurd hform.1 (Nat.lt_irrefl 0)
  · exact fun part hpart => (hparts part hpart).rung.settled hform.2.2 hform.2.1 hqubit

/-- One level of lowering. -/
theorem firstStage_step (hinst : inst.Placed free)
    (h : LowerStep (fun part list => Calls free inst part ∧ Lowers free part list ∧
      (part.Placed free → ∀ last ∈ list, (last.operation == last.operation) = true →
        last.operation.FirstStage)) free inst emitted) :
    ∀ part ∈ emitted, (part.operation == part.operation) = true →
      part.operation.FirstStage := by
  have hlowers : Lowers free inst emitted :=
    LowerStep.lowers hinst.valid (h.mono fun part list hlist => hlist.2.1)
  cases h with
  | keep =>
      exact List.forall_mem_singleton.2 fun _ =>
        .settled (settled_of_lowers hinst.valid hinst.unitary hlowers)
  | expand hop hsteps hlists =>
      exact forall_mem_flatten hlists fun step hstep list hlist =>
        hlist.2.2.2 (hinst.step hop hsteps hstep)
  | invert hop hvalid hsub hinverses =>
      have hplaced := hinst.wrapped (e := .ofNat 1) (Or.inl hop)
      refine forall_mem_of_forall₂ hinverses fun part hpart inverse hinverse hself => ?_
      have hmem := List.mem_reverse.1 hpart
      have hunitary := (hsub.2.1.yields hvalid part hmem).unitary hplaced.unitary
      obtain rfl := (Instruction.inverse_eq_ok_iff hunitary).1 hinverse
      have hpartSelf := Operation.beq_self_invert.1 hself
      exact (hsub.2.2 hplaced part hmem hpartSelf).invert hunitary hpartSelf
  | blocks hop hwidth hlists =>
      exact forall_mem_flatten hlists fun block hblock list hlist =>
        hlist.2.2.2 (hinst.block hop hblock)
  | zeroth => simp
  | times hop hn hvalid hsub =>
      intro part hpart
      obtain ⟨list, hlist, hmem⟩ := List.mem_flatten.1 hpart
      rw [List.eq_of_mem_replicate hlist] at hmem
      exact hsub.2.2 (hinst.wrapped (Or.inr hop)) part hmem
  | root hop hroot hvalid hsub => exact hsub.2.2 (hinst.root hop hroot)
  | powerOf hop hvalid hsub hpowered hvalid' hsub' =>
      obtain ⟨hmade, hagain⟩ := hinst.powerOf hop hsub.2.1
      obtain rfl := Except.ok.inj (hmade.symm.trans hpowered)
      exact hsub'.2.2 hagain
  | controlX hn hop hemitted =>
      exact fun part hpart _ => .settled (settled_controlledX hinst hop hemitted part hpart)
  | controlRoot hn hop hqubit hvalid hsub hsame hemitted =>
      exact fun part hpart _ =>
        .settled (settled_controlledRoot hinst hop hqubit hemitted part hpart)
  | controlEach hop hvalid hsub hcontrolled =>
      have hplaced := hinst.targets hop
      refine forall_mem_of_forall₂ hcontrolled fun part hpart other hother hself => ?_
      obtain ⟨-, hunitary, -, rfl⟩ := controlInstruction_cases hother
      have hpartSelf := Operation.beq_self_addControls.1 hself
      exact (hsub.2.2 hplaced part hpart hpartSelf).addControls hunitary hpartSelf _

theorem Lowers.firstStage (h : Lowers free inst emitted) (hinst : inst.Placed free) :
    ∀ part ∈ emitted, (part.operation == part.operation) = true →
      part.operation.FirstStage := by
  refine Lowers.induction (P := fun inst emitted => inst.Placed free →
    ∀ part ∈ emitted, (part.operation == part.operation) = true → part.operation.FirstStage)
    (fun inst emitted hstep hinst => ?_) h hinst
  exact firstStage_step hinst hstep

end First

section Second

variable {free qubits : List Nat} {inst : Instruction} {emitted : List Instruction}
  {op w : Operation} {n : Nat}

/-- Something settled on one qubit, without controls or under some. -/
inductive Operation.Slim : Operation → Prop where
  | bare {op : Operation} (hqubit : op.numQubits = 1) (h : op.Settled) : Slim op
  | under (n : Nat) (w : Operation) (hqubit : w.numQubits = 1) (h : w.Settled) :
      Slim (.controlled n w)

/-- What the second pass hands out. -/
def Operation.SecondStage (op : Operation) : Prop :=
  op.Settled ∨ op.Slim

theorem Operation.Slim.addControls (h : op.Slim) (hform : op.WellFormed)
    (hunitary : op.isUnitary = true) (n : Nat) : (op.addControls n).Slim := by
  cases h with
  | bare hqubit h =>
      rw [Operation.addControls_eq_controlled (kind_ne_controlled hform hunitary hqubit)]
      exact .under n op hqubit h
  | under m w hqubit h => exact .under (n + m) w hqubit h

/-- Two controls on one qubit: five instructions. -/
theorem controlledRoot_two (hunitary : w.isUnitary = true) (hqubit : w.numQubits = 1)
    {a b target : Nat} (hnodup : [a, b, target].Nodup) :
    controlledRoot w [a, b] target free = .done [
      ((w.raise .half).addControls 1).on [b, target], Operation.cx.on [a, b],
      ((w.raise .half).invert.addControls 1).on [b, target], Operation.cx.on [a, b],
      ((w.raise .half).addControls 1).on [a, target]] := by
  have hab : [a, b].Nodup := by grind
  have hat : [a, target].Nodup := by grind
  have hbt : [b, target].Nodup := by grind
  have hflip : borrowingX [a] b target free = .done [Operation.cx.on [a, b]] := by
    rw [borrowingX, if_pos (by simp)]
    exact apply_eq_done rfl rfl hab
  have hone : ∀ {op : Operation} {control : Nat}, op.isUnitary = true → op.numQubits = 1 →
      [control, target].Nodup →
      (build (op.control 1) fun controlled => apply controlled [control, target]) =
        .done [(op.addControls 1).on [control, target]] := by
    intro op control hop hwidth hdistinct
    rw [Operation.control_eq_ok Nat.one_pos hop, build_ok]
    exact apply_eq_done (by simpa using hop) (by simp [hwidth]) hdistinct
  have hladder : rootLadder (w.raise .half) [a] target (free ++ [b]) =
      .done [((w.raise .half).addControls 1).on [a, target]] :=
    hone (by simpa using hunitary) (by simpa using hqubit) hat
  rw [controlledRoot]
  change rootLadder w (b :: [a]) target free = _
  rw [rootLadder_cons hunitary (List.cons_ne_nil a []), List.reverse_singleton, hflip, hladder,
    hone (by simpa using hunitary) (by simpa using hqubit) hbt,
    hone (by simpa using hunitary) (by simpa using hqubit) hbt]
  rfl

theorem settled_inverted_x : (Operation.inverted (.gate .x)).Settled :=
  settled_x.inverted rfl rfl

theorem settled_root_inverted_x : ((Operation.inverted (.gate .x)).raise .half).Settled := by
  obtain ⟨free, qubits, hvalid, hlowers⟩ := settled_inverted_x
  have hraise : (Operation.inverted (.gate .x)).raise .half =
      .powered .half (.inverted (.gate .x)) := rfl
  rw [hraise]
  have hpowered : ((Operation.powered .half (.inverted (.gate .x))).on qubits).Valid :=
    Instruction.valid_of_isUnitary rfl hvalid.qubits_length hvalid.qubits_nodup
  have hnatural : Exponent.half.natural? = none := rfl
  refine ⟨free, qubits, hpowered, LowerStep.lowers hpowered (.keep (by simp [Operation.kind])
    (by simp [Operation.kind]) (.powered rfl hnatural rfl hvalid hlowers ?_))⟩
  intro only honly
  obtain rfl := List.singleton_inj.1 honly
  exact isUnchanged_on _ _ _

theorem slim_tower_base
    (hvalid : ((Operation.controlled 2 (.inverted (.gate .x))).on qubits).Valid)
    (hlowers : Lowers free ((Operation.controlled 2 (.inverted (.gate .x))).on qubits) emitted) :
    ∀ part ∈ emitted, part.operation.Slim := by
  have hlength : qubits.length = 3 := hvalid.qubits_length
  obtain ⟨a, b, target, rfl⟩ := List.length_eq_three.1 hlength
  rcases hlowers.of_controlled rfl with ⟨hone, -⟩ | ⟨-, hvalidW, lowered, hsub, hcases⟩
  · exact absurd hone.2 (by decide)
  · have hsame := settled_inverted_x.eq_singleton hvalidW hsub
    rcases hcases with ⟨-, ⟨hfew, -⟩ | ⟨-, -, ⟨hx, -⟩ | ⟨-, hroot⟩⟩⟩ | ⟨hchanged, -⟩
    · exact absurd hfew (by simp [Operation.numQubits, Operation.arity, Arity.onQubits,
        Gate.numQubits])
    · cases hx
    · have hemitted : controlledRoot (.inverted (.gate .x)) [a, b] target free =
          .done emitted := hroot
      rw [controlledRoot_two rfl rfl hvalid.qubits_nodup, done_inj] at hemitted
      subst hemitted
      have hcx : Operation.cx.Slim := .under 1 _ rfl settled_x
      have hrootSlim := Operation.Slim.under 1 _ rfl settled_root_inverted_x
      simp only [List.forall_mem_cons, List.not_mem_nil, false_imp_iff, implies_true, and_true]
      exact ⟨hrootSlim, hcx, .under 1 _ rfl (settled_root_inverted_x.inverted rfl rfl), hcx,
        hrootSlim⟩
    · rw [hsame, isUnchanged_on] at hchanged
      cases hchanged

/-- What a tower is lowered to. -/
theorem Operation.Tower.slim (h : op.Tower) (hplaced : (op.on qubits).Placed free)
    (hlowers : Lowers free (op.on qubits) emitted) : ∀ part ∈ emitted, part.operation.Slim := by
  induction h generalizing qubits emitted with
  | base => exact slim_tower_base hplaced.valid hlowers
  | @step n w h ih =>
      have hwide := h.two_lt_numQubits
      have htargets := hplaced.targets rfl
      rcases hlowers.of_controlled rfl with ⟨hone, -⟩ | ⟨-, hvalidW, lowered, hsub, hcases⟩
      · omega
      · rcases hcases with ⟨hsame, -⟩ | ⟨-, hcontrolled⟩
        · obtain rfl := hsub.eq_of_isUnchanged hvalidW hsame
          exact absurd (settled_of_lowers hvalidW h.isUnitary hsub) h.not_settled
        · refine forall_mem_of_forall₂ hcontrolled fun part hpart other hother => ?_
          obtain ⟨-, hunitary, -, rfl⟩ := controlInstruction_cases hother
          have hform := (hsub.yields hvalidW part hpart).wellFormed htargets.unitary
            htargets.wellFormed
          exact (ih htargets hsub part hpart).addControls hform hunitary _

/-- Controls on one qubit become settled, unless they are put in front of what the operation
under them is lowered to. -/
theorem settled_or_controlEach (hqubit : w.numQubits = 1)
    (hplaced : ((Operation.controlled n w).on qubits).Placed free)
    (hlowers : Lowers free ((Operation.controlled n w).on qubits) emitted) :
    (∀ part ∈ emitted, part.operation.Settled) ∨
    ∃ lowered, Lowers free (w.on (qubits.drop n)) lowered ∧
      isUnchanged lowered w (qubits.drop n) = false ∧
      List.Forall₂ (fun part other =>
        controlInstruction (qubits.take n) part = .done [other]) lowered emitted := by
  have hkept : Lowers free ((Operation.controlled n w).on qubits)
      [(Operation.controlled n w).on qubits] →
      ∀ part ∈ [(Operation.controlled n w).on qubits], part.operation.Settled :=
    fun hstable => List.forall_mem_singleton.2
      (settled_of_lowers hplaced.valid hplaced.unitary hstable)
  rcases hlowers.of_controlled rfl with ⟨-, rfl⟩ | ⟨-, hvalidW, lowered, hsub, hcases⟩
  · exact Or.inl (hkept hlowers)
  · rcases hcases with ⟨-, ⟨-, rfl⟩ | ⟨-, -, ⟨rfl, hx⟩ | ⟨-, hroot⟩⟩⟩ | ⟨hchanged, hcontrolled⟩
    · exact Or.inl (hkept hlowers)
    · exact Or.inl (settled_controlledX hplaced rfl hx)
    · exact Or.inl (settled_controlledRoot hplaced rfl hqubit hroot)
    · exact Or.inr ⟨lowered, hsub, hchanged, hcontrolled⟩

/-- What becomes of the first stage. -/
theorem Operation.FirstStage.secondStage (h : op.FirstStage) (hplaced : (op.on qubits).Placed free)
    (hlowers : Lowers free (op.on qubits) emitted) :
    ∀ part ∈ emitted, part.operation.SecondStage := by
  cases h with
  | settled h =>
      obtain rfl := h.eq_singleton hplaced.valid hlowers
      exact List.forall_mem_singleton.2 (Or.inl h)
  | single n hqubit =>
      rcases settled_or_controlEach hqubit hplaced hlowers with
        hsettled | ⟨lowered, hsub, -, hcontrolled⟩
      · exact fun part hpart => Or.inl (hsettled part hpart)
      · have htargets := hplaced.targets rfl
        refine forall_mem_of_forall₂ hcontrolled fun part hpart other hother => ?_
        obtain ⟨-, hunitary, -, rfl⟩ := controlInstruction_cases hother
        obtain ⟨hone, hsettled⟩ := hsub.settled_of_one_qubit htargets hqubit part hpart
        have hform := (hsub.yields htargets.valid part hpart).wellFormed htargets.unitary
          htargets.wellFormed
        exact Or.inr (Operation.Slim.addControls (.bare hone hsettled) hform hunitary _)
  | tower h => exact fun part hpart => Or.inr (h.slim hplaced hlowers part hpart)

/-- What becomes of the second stage. -/
theorem Operation.SecondStage.settled (h : op.SecondStage) (hself : (op == op) = true)
    (hplaced : (op.on qubits).Placed free) (hlowers : Lowers free (op.on qubits) emitted) :
    ∀ part ∈ emitted, part.operation.Settled := by
  rcases h with h | ⟨hqubit, h⟩ | ⟨n, w, hqubit, h⟩
  · obtain rfl := h.eq_singleton hplaced.valid hlowers
    exact List.forall_mem_singleton.2 h
  · obtain rfl := h.eq_singleton hplaced.valid hlowers
    exact List.forall_mem_singleton.2 h
  · rcases settled_or_controlEach hqubit hplaced hlowers with
      hsettled | ⟨lowered, hsub, hchanged, -⟩
    · exact hsettled
    · have hsame : lowered = [w.on (qubits.drop n)] :=
        h.eq_singleton (hplaced.targets rfl).valid hsub
      rw [hsame, isUnchanged_on, Operation.beq_self_of_controlled hself] at hchanged
      cases hchanged

end Second

end GateAlgebra
