import GateAlgebra.Proofs.ExactSemantics
import GateAlgebra.Proofs.Placement
/-!
Lowering preserves meaning.  Every case of one level does, if what is lowered within it does and
the powers and square roots it takes are those of matrices, and complete lowerings follow by
induction on the calls.  For gates in normal form without rounding errors they are.
-/

namespace GateAlgebra

namespace Semantics

variable {R : Type*} [CommRing R] (S : Semantics R)

/-- Lists that have the meanings of instructions, one after the other. -/
theorem run_flatten {α : Type} {made : α → Instruction} {items : List α}
    {lists : List (List Instruction)}
    (h : List.Forall₂ (fun item list => S.run list =
      S.operator (made item).operation (made item).qubits) items lists) :
    S.run lists.flatten = S.run (items.map made) := by
  induction h with
  | nil => rfl
  | cons hhead _ ih =>
      rw [List.flatten_cons, run_append, hhead, ih, List.map_cons, run_cons]

theorem run_replicate (n : Nat) (instructions : List Instruction) :
    S.run (List.replicate n instructions).flatten = S.run instructions ^ n := by
  induction n with
  | zero => rfl
  | succ n ih => rw [List.replicate_succ, List.flatten_cons, run_append, ih, pow_succ]

/-- Instructions under controls that they leave alone. -/
theorem run_control {controls : List Nat} {parts controlled : List Instruction}
    (hvalid : ∀ part ∈ parts, part.Valid)
    (h : List.Forall₂ (fun part inst => inst.Valid ∧
      inst = (part.operation.addControls controls.length).on (controls ++ part.qubits))
      parts controlled) :
    S.run controlled = ctrl controls (S.run parts) ∧ (S.run parts).Keeps controls := by
  induction h with
  | nil => exact ⟨(ctrl_one controls).symm, .one controls⟩
  | @cons part inst parts controlled hhead _ ih =>
      obtain ⟨hpart, hrest⟩ := List.forall_mem_cons.1 hvalid
      obtain ⟨hinst, rfl⟩ := hhead
      obtain ⟨hrun, hkeeps⟩ := ih hrest
      have hnodup : (controls ++ part.qubits).Nodup := hinst.qubits_nodup
      have hdisjoint : ∀ q ∈ part.qubits, q ∉ controls :=
        fun q hq hmem => (List.nodup_append.1 hnodup).2.2 q hmem q hq rfl
      have hpartKeeps : (S.operator part.operation part.qubits).Keeps controls :=
        place_keeps hpart.qubits_length hdisjoint _
      rw [run_cons, run_cons, hrun, Operation.operation_on, Operation.qubits_on,
        S.operator_addControls hpart.qubits_length hnodup, ctrl_mul hkeeps]
      exact ⟨rfl, hkeeps.mul hpartKeeps⟩

end Semantics

/-- A valid gate that acts on no qubit to be borrowed. -/
abbrev Instruction.ApartFrom (free : List Nat) (inst : Instruction) : Prop :=
  inst.PlacedWith (fun op => op.isUnitary = true) free

/-- The angle of the known root that an instruction is lowered to is the exact product. -/
def Instruction.ScalesAt (angle : Scalar → ℝ) (inst : Instruction) : Prop :=
  ∀ (e : Exponent) (g root : Gate), inst.operation = .powered e (.gate g) → e.natural? = none →
    g.root? e = some root → g.ScalesExactly angle e root

/-- The same for all that is lowered on the way. -/
def Instruction.ScalesFrom (angle : Scalar → ℝ) (free : List Nat) (inst : Instruction) : Prop :=
  ∀ part, Relation.ReflTransGen (Calls free) inst part → part.ScalesAt angle

namespace Instruction.ApartFrom

open Operation (modifierClosed_isUnitary)

variable {free : List Nat} {inst other : Instruction} {w : Operation} {e : Exponent}

theorem wrapped (h : inst.ApartFrom free)
    (hop : inst.operation = .inverted w ∨ inst.operation = .powered e w) :
    (w.on inst.qubits).ApartFrom free :=
  PlacedWith.wrapped modifierClosed_isUnitary.callClosed h hop

theorem targets (h : inst.ApartFrom free) {n : Nat} (hop : inst.operation = .controlled n w) :
    (w.on (inst.qubits.drop n)).ApartFrom free :=
  PlacedWith.targets modifierClosed_isUnitary.callClosed h hop

theorem powerOf (h : inst.ApartFrom free) {only : Instruction}
    (hop : inst.operation = .powered e w) (hsub : Lowers free (w.on inst.qubits) [only]) :
    only.operation.power e = .ok (only.operation.raise e) ∧
      ((only.operation.raise e).on only.qubits).ApartFrom free :=
  PlacedWith.powerOf modifierClosed_isUnitary.callClosed h hop hsub

theorem calls (h : inst.ApartFrom free) (hcalls : Calls free inst other) :
    other.ApartFrom free :=
  PlacedWith.calls modifierClosed_isUnitary.callClosed h hcalls

theorem reaches (h : inst.ApartFrom free)
    (hreaches : Relation.ReflTransGen (Calls free) inst other) : other.ApartFrom free := by
  induction hreaches with
  | refl => exact h
  | tail _ hcalls ih => exact ih.calls hcalls

end Instruction.ApartFrom

namespace ExactSemantics

variable {R : Type*} [CommRing R] [StarRing R] (S : ExactSemantics R) {free : List Nat}

/-- The inverses of instructions, last to first, undo them. -/
theorem run_inverses {parts inverses : List Instruction}
    (hparts : ∀ part ∈ parts, part.Valid ∧ part.operation.isUnitary = true)
    (h : List.Forall₂ (fun part inverse => part.inverse = .ok inverse) parts inverses) :
    S.run inverses * S.run parts.reverse = 1 := by
  induction h with
  | nil => rfl
  | @cons part inverse parts inverses hinverse _ ih =>
      obtain ⟨⟨hvalid, hunitary⟩, hrest⟩ := List.forall_mem_cons.1 hparts
      have hlength := hvalid.qubits_length
      have hnodup := hvalid.qubits_nodup
      obtain rfl := (Instruction.inverse_eq_ok_iff hunitary).1 hinverse
      have hself := S.adjoint_mul_operator hunitary hlength hnodup
      rw [Semantics.run_cons, List.reverse_cons, Semantics.run_append, Semantics.run_singleton,
        S.operator_invert hlength hnodup, mul_assoc, ← mul_assoc (S.adjoint _ _), hself, one_mul,
        ih hrest]

section Powers

variable {op op' : Operation} {e : Exponent} {qubits : List Nat}

/-- Raising an operation to a power takes the power of its matrix. -/
def RaisesMatrix (op : Operation) (e : Exponent) : Prop :=
  ∀ qubits : List Nat, qubits.length = op.numQubits → qubits.Nodup →
    S.operator (op.raise e) qubits = S.operator (.powered e op) qubits

/-- It is a matter of the matrices, on whatever qubits. -/
theorem raisesMatrix_iff (hlength : qubits.length = op.numQubits) (hnodup : qubits.Nodup) :
    S.RaisesMatrix op e ↔
      S.operator (op.raise e) qubits = S.operator (.powered e op) qubits := by
  refine ⟨fun h => h qubits hlength hnodup, fun h other hother hdistinct => ?_⟩
  have hraise : qubits.length = (op.raise e).numQubits := by
    rw [Operation.numQubits_raise, hlength]
  exact place_congr_of_place_eq hraise hlength hnodup h

/-- Powers of operations with one operator are one operator. -/
theorem operator_powered_congr (hlength : qubits.length = op.numQubits)
    (hlength' : qubits.length = op'.numQubits) (hnodup : qubits.Nodup)
    (h : S.operator op qubits = S.operator op' qubits) :
    S.operator (.powered e op) qubits = S.operator (.powered e op') qubits := by
  rw [S.operator_powered, S.operator_powered]
  exact S.place_power_congr hlength hlength' hnodup h

end Powers

/-- What lowering of an instruction relies on, besides what is lowered within it. -/
structure FaithfulAt (free : List Nat) (inst : Instruction) : Prop where
  /-- The power of the one other operation that what is under the power is lowered to. -/
  power : ∀ {e : Exponent} {w only : Operation}, inst.operation = .powered e w →
    e.natural? = none → Lowers free (w.on inst.qubits) [only.on inst.qubits] →
    (only == w) = false → S.RaisesMatrix only e
  /-- The square roots of an operation on one qubit that stays as it is under its controls. -/
  roots : ∀ {n : Nat} {w : Operation} {lowered : List Instruction},
    inst.operation = .controlled n w → w.numQubits = 1 →
    Lowers free (w.on (inst.qubits.drop n)) lowered →
    isUnchanged lowered w (inst.qubits.drop n) = true → S.HasRoots w (n - 1)
  /-- The known root of a gate. -/
  known : inst.ScalesAt S.angle

/-- The same for all that is lowered on the way. -/
def FaithfulFrom (free : List Nat) (inst : Instruction) : Prop :=
  ∀ part, Relation.ReflTransGen (Calls free) inst part → S.FaithfulAt free part

section Step

variable {inst : Instruction} {w : Operation} {lowered emitted : List Instruction}

theorem run_inverted (h : inst.ApartFrom free) (hop : inst.operation = .inverted w)
    {inverses : List Instruction}
    (hlowered : ∀ part ∈ lowered, part.Valid ∧ part.operation.isUnitary = true)
    (hrun : S.run lowered = S.operator w inst.qubits)
    (hinverses : List.Forall₂ (fun part inverse => part.inverse = .ok inverse)
      lowered.reverse inverses) :
    S.run inverses = S.operator inst.operation inst.qubits := by
  have hunitary : w.isUnitary = true := by
    have hwhole := h.unitary
    rwa [hop] at hwhole
  have hlength := h.valid.qubits_length
  rw [hop] at hlength
  have hright := S.operator_mul_adjoint hunitary hlength h.valid.qubits_nodup
  have hleft := S.run_inverses (by simpa using hlowered) hinverses
  rw [List.reverse_reverse, hrun] at hleft
  have hinverse : S.operator inst.operation inst.qubits = S.adjoint w inst.qubits := by
    rw [hop, S.operator_inverted]
  calc S.run inverses
      = S.run inverses * (S.operator w inst.qubits * S.adjoint w inst.qubits) := by
        rw [hright, mul_one]
    _ = S.adjoint w inst.qubits := by rw [← mul_assoc, hleft, one_mul]
    _ = S.operator inst.operation inst.qubits := hinverse.symm

/-- Copies act like one operation on each block. -/
theorem run_blocks {n : Nat} (h : inst.Valid) (hop : inst.operation = .repeated n w)
    (hwidth : w.numQubits ≠ 0) :
    S.run ((blocks w.numQubits inst.qubits inst.qubits.length).map w.on) =
      S.operator inst.operation inst.qubits := by
  have hlength : inst.qubits.length = n * w.numQubits := by
    rw [h.qubits_length, hop]
    rfl
  rw [hop, S.operator_repeated,
    place_tensorPower (Nat.pos_of_ne_zero hwidth) hlength h.qubits_nodup, Semantics.run,
    List.map_map]
  rfl

/-- A whole power of an operation is a power of its operator. -/
theorem operator_powered_natural {n : Nat} {e : Exponent} (h : inst.ApartFrom free)
    (hop : inst.operation = .powered e w) (hn : e.natural? = some n) :
    S.operator inst.operation inst.qubits = S.operator w inst.qubits ^ n := by
  have hunitary : w.isUnitary = true := by
    have hwhole := h.unitary
    rwa [hop] at hwhole
  have hlength : inst.qubits.length = w.numQubits := by
    rw [h.valid.qubits_length, hop]
    rfl
  rw [hop, S.operator_powered, basePower, Exponent.number_of_natural? hn,
    S.power_natCast (S.den_mem hunitary), place_pow hlength h.valid.qubits_nodup]
  rfl

/-- An operation on one qubit under controls. -/
theorem operator_controlled_qubit {n : Nat} (h : inst.ApartFrom free) (hfree : free.Nodup)
    (hop : inst.operation = .controlled n w) (hqubit : w.numQubits = 1) :
    ∃ target, inst.qubits.drop n = [target] ∧ (inst.qubits.take n).length = n ∧
      (inst.qubits.take n ++ target :: free).Nodup ∧
      S.operator inst.operation inst.qubits =
        ctrl (inst.qubits.take n) (S.operator w [target]) := by
  obtain ⟨target, hdrop, hcount, hnodup⟩ :=
    h.valid.split_controlled hop hqubit hfree h.free_disjoint
  have hlength := h.valid.qubits_length
  rw [hop] at hlength
  refine ⟨target, hdrop, hcount, hnodup, ?_⟩
  rw [hop, S.operator_controlled hlength h.valid.qubits_nodup, hdrop]

/-- One level of lowering. -/
theorem run_of_lowerStep (hfree : free.Nodup) (hinst : inst.ApartFrom free)
    (hfaithful : S.FaithfulAt free inst)
    (h : LowerStep (fun part list => Lowers free part list ∧
      S.run list = S.operator part.operation part.qubits) free inst emitted) :
    S.run emitted = S.operator inst.operation inst.qubits := by
  have hlength := hinst.valid.qubits_length
  have hnodup := hinst.valid.qubits_nodup
  have hunitary := hinst.unitary
  cases h with
  | keep => exact S.run_singleton inst
  | @expand g steps lists hop hsteps hlists =>
      rw [hop] at hlength
      rw [hop, S.expansion_eq g inst.qubits steps hlength hnodup hsteps]
      exact S.run_flatten (hlists.imp fun step list hlist => hlist.2.2)
  | invert hop hvalid hsub hinverses =>
      rw [hop] at hunitary
      refine S.run_inverted hinst hop (fun part hpart => ?_) hsub.2 hinverses
      have hyields := hsub.1.yields hvalid part hpart
      exact ⟨hyields.valid, hyields.unitary hunitary⟩
  | @blocks n w lists hop hwidth hlists =>
      rw [← S.run_blocks hinst.valid hop hwidth]
      exact S.run_flatten (hlists.imp fun block list hlist => hlist.2.2)
  | zeroth hop hzero => rw [S.operator_powered_natural hinst hop hzero, pow_zero, S.run_nil]
  | times hop hn hvalid hsub =>
      rw [S.operator_powered_natural hinst hop hn, S.run_replicate, hsub.2]
      rfl
  | root hop hroot hvalid hsub hnone =>
      rw [hop] at hlength
      rw [hsub.2, hop]
      exact S.root_eq _ _ _ _ hlength hnodup hroot (hfaithful.known _ _ _ hop hnone hroot)
  | @powerOf e w powered only lowered hop hvalid hsub hpowered hvalid' hsub' hnone hroot
      hchanged =>
      obtain ⟨other, rfl⟩ := hsub.1.only_on hvalid
      obtain ⟨-, rfl⟩ := Operation.power_eq_ok_iff.1 hpowered
      rw [isUnchanged_on] at hchanged
      rw [hop] at hlength
      have hwidth : inst.qubits.length = other.numQubits :=
        (hsub.1.yields hvalid _ List.mem_cons_self).valid.qubits_length
      have honly : S.operator other inst.qubits = S.operator w inst.qubits :=
        (S.run_singleton (other.on inst.qubits)).symm.trans hsub.2
      calc S.run emitted
          = S.operator (other.raise e) inst.qubits := hsub'.2
        _ = S.operator (.powered e other) inst.qubits :=
          hfaithful.power hop hnone hsub.1 hchanged inst.qubits hwidth hnodup
        _ = S.operator (.powered e w) inst.qubits :=
          S.operator_powered_congr hwidth hlength hnodup honly
        _ = S.operator inst.operation inst.qubits := by rw [hop]
  | controlX hn hop hemitted hvalid hsub hsame =>
      obtain ⟨target, hdrop, hcount, hall, hoperator⟩ :=
        S.operator_controlled_qubit hinst hfree hop rfl
      have hroots := hfaithful.roots hop rfl hsub.1 hsame
      rw [← hcount] at hroots
      obtain ⟨list, hdone, hrun⟩ := S.run_controlledX hall hroots
      rw [hdrop, List.headD_cons, hdone] at hemitted
      obtain rfl := Emission.done_inj.1 hemitted
      exact hrun.trans hoperator.symm
  | @controlRoot n w lowered emitted hn hop hqubit hvalid hsub hsame hemitted =>
      have hw : w.isUnitary = true := by rwa [hop] at hunitary
      obtain ⟨target, hdrop, hcount, hall, hoperator⟩ :=
        S.operator_controlled_qubit hinst hfree hop hqubit
      have hroots := hfaithful.roots hop hqubit hsub.1 hsame
      rw [← hcount] at hroots
      obtain ⟨list, hdone, hrun⟩ := S.run_controlledRoot hw hqubit hall hroots
      rw [hdrop, List.headD_cons, hdone] at hemitted
      obtain rfl := Emission.done_inj.1 hemitted
      exact hrun.trans hoperator.symm
  | @controlEach n w lowered controlled hop hvalid hsub hcontrolled =>
      have hparts : ∀ part ∈ lowered, part.Valid :=
        fun part hpart => (hsub.1.yields hvalid part hpart).valid
      have hruns := S.run_control hparts (hcontrolled.imp fun part inst hpart =>
        (controlInstruction_cases hpart).2.2)
      rw [hop] at hlength
      rw [hruns.1, hsub.2, hop, S.operator_controlled hlength hnodup]
      rfl

end Step

/-- A complete lowering does what the instruction does, if the powers and square roots taken on
the way are those of matrices. -/
theorem run_of_lowers (hfree : free.Nodup) {inst : Instruction} {emitted : List Instruction}
    (hinst : inst.ApartFrom free) (hfaithful : S.FaithfulFrom free inst)
    (h : Lowers free inst emitted) :
    S.run emitted = S.operator inst.operation inst.qubits := by
  refine Lowers.induction (P := fun inst emitted => inst.ApartFrom free →
    S.FaithfulFrom free inst → S.run emitted = S.operator inst.operation inst.qubits) ?_ h hinst
    hfaithful
  intro inst emitted hstep hinst hfaithful
  refine S.run_of_lowerStep hfree hinst (hfaithful inst .refl) (hstep.mono ?_)
  rintro part list ⟨hcalls, hlowers, hpart⟩
  refine ⟨hlowers, hpart (hinst.calls hcalls) fun last hlast => ?_⟩
  exact hfaithful last (.head hcalls hlast)

end ExactSemantics

section Exact

variable {free : List Nat} {inst other : Instruction} {emitted : List Instruction}

theorem Instruction.Lowerable.apart {c : Nat} (h : inst.Lowerable c free) : inst.ApartFrom free :=
  ⟨h.valid, h.exact.unitary, h.exact.unitary, h.free_disjoint⟩

theorem Lowers.emitsExactly (h : Lowers free inst emitted) : EmitsExactly free inst emitted := by
  obtain ⟨depth, hdepth⟩ := h
  exact lowerWithin_emitsExactly hdepth

/-- What a gate without rounding errors is lowered by has none either. -/
theorem Instruction.Lowerable.calls {c : Nat} (h : inst.Lowerable c free)
    (hcalls : Calls free inst other) : other.Lowerable c free := by
  cases hcalls with
  | step hop hsteps hvalid =>
      exact h.step hop hsteps (by simp) (hvalid _ (by simp))
  | inverted hop hvalid => exact h.wrapped (e := .half) (Or.inl hop) hvalid
  | @block n w before after block hop hwidth hblocks hvalid =>
      have hmem : block ∈ blocks w.numQubits inst.qubits inst.qubits.length := by
        rw [hblocks]
        exact List.mem_append_right before List.mem_cons_self
      exact h.block hop hmem hvalid
  | times hop hn hvalid => exact h.wrapped (Or.inr hop) hvalid
  | @root e w root hop hnone hroot hvalid =>
      cases w with
      | gate g => exact h.root hop hroot hvalid
      | _ => cases hroot
  | powered hop hnone hroot hvalid => exact h.wrapped (Or.inr hop) hvalid
  | powerOf hop hnone hroot hvalid hlowers hchanged hpowered hvalid' =>
      have hemits := hlowers.emitsExactly c (h.wrapped (Or.inr hop) hvalid)
      exact (h.powered hop hemits hpowered hvalid').2.2
  | controlled hop hmany hvalid => exact (h.targets hop hvalid).mono (Nat.le_add_right c _)

theorem Instruction.Lowerable.reaches {c : Nat} (h : inst.Lowerable c free)
    (hreaches : Relation.ReflTransGen (Calls free) inst other) : other.Lowerable c free := by
  induction hreaches with
  | refl => exact h
  | tail _ hcalls ih => exact ih.calls hcalls

namespace ExactSemantics

variable {R : Type*} [CommRing R] [StarRing R] (S : ExactSemantics R)

/-- In normal form powers are not merged, and exponents halve as far as roots are taken. -/
theorem faithfulAt_of_lowerable (h : inst.Lowerable 0 free) (hscales : inst.ScalesAt S.angle) :
    S.FaithfulAt free inst where
  power {e w only} hop _ hlowers _ := by
    obtain ⟨hpower, hagain⟩ := h.apart.powerOf hop hlowers
    have hwrapped := h.wrapped (Or.inr hop) (h.apart.wrapped (Or.inr hop)).valid
    have hraise := (h.powered hop (hlowers.emitsExactly 0 hwrapped) hpower hagain.valid).2.1
    intro qubits _ _
    exact congrArg (fun op => S.operator op qubits) hraise
  roots {n w lowered} hop hqubit hlowers hsame := by
    have hexact := h.exact_of hop
    have hpositive := hexact.canonical.1
    have hvalid := (h.apart.targets hop).valid
    have hlowered := (hlowers.emitsExactly _ (h.targets hop hvalid)).lowered
    have hw : w.Exact (n - 1 + 1) := hexact.of_controlled.mono (by omega)
    exact S.hasRoots hw (isCore_of_isUnchanged hexact hlowered hsame) hqubit
  known := hscales

theorem faithfulFrom_of_lowerable (h : inst.Lowerable 0 free)
    (hscales : inst.ScalesFrom S.angle free) : S.FaithfulFrom free inst :=
  fun part hreaches => S.faithfulAt_of_lowerable (h.reaches hreaches) (hscales part hreaches)

/-- A complete lowering of a gate in normal form does what the gate does. -/
theorem run_of_lowerable (hinst : inst.Lowerable 0 free) (hscales : inst.ScalesFrom S.angle free)
    (h : Lowers free inst emitted) : S.run emitted = S.operator inst.operation inst.qubits :=
  S.run_of_lowers hinst.free_nodup hinst.apart (S.faithfulFrom_of_lowerable hinst hscales) h

end ExactSemantics

end Exact

end GateAlgebra
