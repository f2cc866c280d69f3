import GateAlgebra.Proofs.Stable
import GateAlgebra.Proofs.TensorPower
/-!
Lowering on other qubits.  Which qubits an operation acts on, and which may be borrowed, does
not decide whether it becomes one instruction, nor which operation that is.
-/

namespace GateAlgebra

open Emission

/-- What an operation is lowered to here and there: one operation on all of its qubits, the
same in both places, or other than one instruction in both. -/
def Alike (qubits qubits' : List Nat) (lowered lowered' : List Instruction) : Prop :=
  (∃ op : Operation, lowered = [op.on qubits] ∧ lowered' = [op.on qubits']) ∨
    (lowered.length ≠ 1 ∧ lowered'.length ≠ 1)

theorem Alike.length_iff {qubits qubits' : List Nat} {lowered lowered' : List Instruction}
    (h : Alike qubits qubits' lowered lowered') : lowered.length = 1 ↔ lowered'.length = 1 := by
  rcases h with ⟨op, rfl, rfl⟩ | ⟨hne, hne'⟩
  · exact ⟨fun _ => rfl, fun _ => rfl⟩
  · exact ⟨fun hone => absurd hone hne, fun hone => absurd hone hne'⟩

section Blocks

variable {k n : Nat} {qubits : List Nat}

theorem length_blocks (hk : 0 < k) (hlength : qubits.length = n * k) :
    (blocks k qubits qubits.length).length = n := by
  have hcount : n ≤ qubits.length := by
    rw [hlength]
    exact Nat.le_mul_of_pos_right n hk
  rw [blocks_eq_ofFn hk hlength hcount, List.length_ofFn]

theorem blocks_one (hk : 0 < k) (hlength : qubits.length = k) :
    blocks k qubits qubits.length = [qubits] := by
  have hone : qubits.length = 1 * k := by rw [hlength, Nat.one_mul]
  rw [blocks_eq_ofFn hk hone (by omega)]
  simp [← hlength]

end Blocks

/-- A single item has a single image. -/
theorem forall₂_singleton_left_iff {α γ : Type} {R : α → γ → Prop} {item : α}
    {images : List γ} :
    List.Forall₂ R [item] images ↔ ∃ image, images = [image] ∧ R item image := by
  rw [List.forall₂_cons_left_iff]
  simp only [List.forall₂_nil_left_iff]
  constructor
  · rintro ⟨image, rest, hitem, rfl, rfl⟩
    exact ⟨image, rfl, hitem⟩
  · rintro ⟨image, rfl, hitem⟩
    exact ⟨image, [], hitem, rfl, rfl⟩

section Lists

variable {lists : List (List Instruction)}

theorem length_flatten_of_ones (h : ∀ list ∈ lists, list.length = 1) :
    lists.flatten.length = lists.length := by
  induction lists with
  | nil => rfl
  | cons list lists ih =>
      obtain ⟨hhead, htail⟩ := List.forall_mem_cons.1 h
      rw [List.flatten_cons, List.length_append, hhead, ih htail, List.length_cons,
        Nat.add_comm]

theorem length_flatten_ne_one (h : ∀ list ∈ lists, list.length ≠ 1) :
    lists.flatten.length ≠ 1 := by
  intro hone
  obtain ⟨only, honly⟩ := List.length_eq_one_iff.1 hone
  exact h _ (singleton_mem_of_flatten honly) rfl

/-- Lists that are alike one by one make up lists of one length, or of no single part. -/
theorem length_flatten_alike {lists' : List (List Instruction)}
    (hcount : lists.length = lists'.length) (hmany : lists.length ≠ 1)
    (h : ∀ list ∈ lists, ∀ list' ∈ lists', list.length = 1 ↔ list'.length = 1) :
    lists.flatten.length ≠ 1 ∧ lists'.flatten.length ≠ 1 := by
  by_cases hone : ∃ list ∈ lists, list.length = 1
  · obtain ⟨list, hlist, hsingle⟩ := hone
    have hall' : ∀ list' ∈ lists', list'.length = 1 :=
      fun list' hlist' => (h list hlist list' hlist').1 hsingle
    have hsome : lists' ≠ [] := by
      rw [← List.length_pos_iff, ← hcount]
      exact List.length_pos_of_mem hlist
    obtain ⟨first', hfirst'⟩ := List.exists_mem_of_ne_nil lists' hsome
    have hall : ∀ list ∈ lists, list.length = 1 :=
      fun list hlist => (h list hlist first' hfirst').2 (hall' first' hfirst')
    rw [length_flatten_of_ones hall, length_flatten_of_ones hall', ← hcount]
    exact ⟨hmany, hmany⟩
  · have hnone : ∀ list ∈ lists, list.length ≠ 1 :=
      fun list hlist hsingle => hone ⟨list, hlist, hsingle⟩
    refine ⟨length_flatten_ne_one hnone, length_flatten_ne_one fun list' hlist' hsingle => ?_⟩
    have hsome : lists ≠ [] := by
      rw [← List.length_pos_iff, hcount]
      exact List.length_pos_of_mem hlist'
    obtain ⟨first, hfirst⟩ := List.exists_mem_of_ne_nil lists hsome
    exact hnone first hfirst ((h first hfirst list' hlist').2 hsingle)

end Lists

section Step

variable {free free' qubits qubits' : List Nat} {emitted emitted' : List Instruction}

/-- What may be lowered in two places within. -/
def AlikeWithin (free free' : List Nat) (op : Operation) : Prop :=
  ∀ {qubits qubits' lowered lowered'}, (op.on qubits).Valid → (op.on qubits').Valid →
    Lowers free (op.on qubits) lowered → Lowers free' (op.on qubits') lowered' →
    Alike qubits qubits' lowered lowered'

variable {w : Operation}

theorem alike_gate {g : Gate}
    (h : Lowers free ((Operation.gate g).on qubits) emitted)
    (h' : Lowers free' ((Operation.gate g).on qubits') emitted') :
    Alike qubits qubits' emitted emitted' := by
  have hsame : ∀ {steps : List (Operation × List Nat)} {indices indices' : List Nat},
      g.expansionSteps indices = none → g.expansionSteps indices' ≠ some steps := by
    intro steps indices indices' hnone hsome
    cases g <;> simp [Gate.expansionSteps] at hnone hsome
  rcases h.of_gate rfl with ⟨hnone, rfl⟩ | ⟨steps, lists, hsteps, hlists, rfl⟩
  · rcases h'.of_gate rfl with ⟨-, rfl⟩ | ⟨steps', -, hsteps', -⟩
    · exact Or.inl ⟨_, rfl, rfl⟩
    · exact absurd hsteps' (hsame hnone)
  · rcases h'.of_gate rfl with ⟨hnone', -⟩ | ⟨steps', lists', hsteps', hlists', rfl⟩
    · exact absurd hsteps (hsame hnone')
    · have hlong := Lowers.length_expansion hsteps hlists
      have hlong' := Lowers.length_expansion hsteps' hlists'
      exact Or.inr ⟨by omega, by omega⟩

theorem isUnchanged_of_length_ne {lowered : List Instruction} {op : Operation}
    {indices : List Nat} (h : lowered.length ≠ 1) : isUnchanged lowered op indices = false := by
  unfold isUnchanged
  split
  · exact absurd rfl h
  · rfl

theorem alike_inverted (hw : AlikeWithin free free' w)
    (h : Lowers free ((Operation.inverted w).on qubits) emitted)
    (h' : Lowers free' ((Operation.inverted w).on qubits') emitted') :
    Alike qubits qubits' emitted emitted' := by
  obtain ⟨hvalid, lowered, hsub, hinverses⟩ := h.of_inverted rfl
  obtain ⟨hvalid', lowered', hsub', hinverses'⟩ := h'.of_inverted rfl
  have hcount := hinverses.length_eq
  have hcount' := hinverses'.length_eq
  rw [List.length_reverse] at hcount hcount'
  rcases hw hvalid hvalid' hsub hsub' with ⟨op, rfl, rfl⟩ | ⟨hne, hne'⟩
  · left
    obtain ⟨inverse, rfl, hinverse⟩ := forall₂_singleton_left_iff.1 hinverses
    obtain ⟨inverse', rfl, hinverse'⟩ := forall₂_singleton_left_iff.1 hinverses'
    rw [Instruction.inverse] at hinverse hinverse'
    obtain ⟨back, hback, hmade⟩ := bind_eq_ok_iff.1 hinverse
    obtain ⟨back', hback', hmade'⟩ := bind_eq_ok_iff.1 hinverse'
    obtain rfl := Except.ok.inj (hback.symm.trans hback')
    exact ⟨back, by rw [← Except.ok.inj hmade]; rfl, by rw [← Except.ok.inj hmade']; rfl⟩
  · exact Or.inr ⟨by omega, by omega⟩

theorem alike_repeated {n : Nat} (hw : AlikeWithin free free' w)
    (hvalid : ((Operation.repeated n w).on qubits).Valid)
    (hvalid' : ((Operation.repeated n w).on qubits').Valid)
    (h : Lowers free ((Operation.repeated n w).on qubits) emitted)
    (h' : Lowers free' ((Operation.repeated n w).on qubits') emitted') :
    Alike qubits qubits' emitted emitted' := by
  obtain ⟨hwidth, lists, hlists, rfl⟩ := h.of_repeated rfl
  obtain ⟨-, lists', hlists', rfl⟩ := h'.of_repeated rfl
  have hk := Nat.pos_of_ne_zero hwidth
  have hlength : qubits.length = n * w.numQubits := hvalid.qubits_length
  have hlength' : qubits'.length = n * w.numQubits := hvalid'.qubits_length
  have hcount := hlists.length_eq
  have hcount' := hlists'.length_eq
  rw [Operation.qubits_on] at hlists hlists' hcount hcount'
  rw [length_blocks hk hlength] at hcount
  rw [length_blocks hk hlength'] at hcount'
  by_cases hone : n = 1
  · subst hone
    rw [Nat.one_mul] at hlength hlength'
    rw [blocks_one hk hlength] at hlists
    rw [blocks_one hk hlength'] at hlists'
    obtain ⟨list, rfl, hlist⟩ := forall₂_singleton_left_iff.1 hlists
    obtain ⟨list', rfl, hlist'⟩ := forall₂_singleton_left_iff.1 hlists'
    rw [List.flatten_singleton, List.flatten_singleton]
    exact hw hlist.1 hlist'.1 hlist.2 hlist'.2
  · right
    refine length_flatten_alike (by omega) (by omega) ?_
    refine forall_mem_of_forall₂ hlists fun block _ list hlist => ?_
    refine forall_mem_of_forall₂ hlists' fun block' _ list' hlist' => ?_
    exact (hw hlist.1 hlist'.1 hlist.2 hlist'.2).length_iff

theorem alike_times {n : Nat} {lowered lowered' : List Instruction}
    (h : Alike qubits qubits' lowered lowered') :
    Alike qubits qubits' (List.replicate (n + 1) lowered).flatten
      (List.replicate (n + 1) lowered').flatten := by
  by_cases hone : n = 0
  · subst hone
    simpa using h
  · right
    refine length_flatten_alike (by simp) (by simpa using hone) fun list hlist list' hlist' => ?_
    rw [List.eq_of_mem_replicate hlist, List.eq_of_mem_replicate hlist']
    exact h.length_iff

/-- The power of one instruction that is not what was lowered.  It weighs less than the power
that is lowered, or lowering would not have come to an end. -/
theorem rank_lt_of_powerOf {inst only : Instruction} {e : Exponent} {powered : Operation}
    (hvalid : inst.Valid) (hop : inst.operation = .powered e w) (hnone : e.natural? = none)
    (hroot : w.root? e = none) (hvalidW : (w.on inst.qubits).Valid)
    (hsub : Lowers free (w.on inst.qubits) [only])
    (hchanged : isUnchanged [only] w inst.qubits = false)
    (hpowered : only.operation.power e = .ok powered)
    (hvalidP : (powered.on only.qubits).Valid) (h : Lowers free inst emitted) :
    powered.rank < inst.operation.rank := by
  rcases dominates_power hvalid hop hvalidW (hsub.dominates hvalidW) hpowered with heq | hlt
  · have hcalls := Calls.powerOf hop hnone hroot hvalidW hsub hchanged hpowered hvalidP
    rw [heq] at hcalls
    obtain ⟨depth, hdepth⟩ := h
    have hnot := not_finished_of_self_call hcalls depth
    rw [hdepth] at hnot
    exact absurd finished_done hnot
  · exact hlt

/-- The root of a gate weighs less than the power that it is. -/
theorem rank_lt_of_root {e : Exponent} {root : Gate} (hroot : w.root? e = some root) :
    (Operation.gate root).rank < (Operation.powered e w).rank := by
  cases w with
  | gate g =>
      have hpositive := g.rank_pos
      have hle := Gate.rank_of_root? hroot
      simp only [Operation.rank]
      omega
  | _ => cases hroot

/-- A power without a rule of its own is lowered through what it is a power of, which is
unchanged in both places or in neither. -/
theorem alike_open_power {e : Exponent}
    (hvalid : ((Operation.powered e w).on qubits).Valid)
    (hless : ∀ op : Operation, op.rank < (Operation.powered e w).rank → AlikeWithin free free' op)
    (hw : AlikeWithin free free' w) (hnone : e.natural? = none) (hroot : w.root? e = none)
    (h : Lowers free ((Operation.powered e w).on qubits) emitted)
    (h' : Lowers free' ((Operation.powered e w).on qubits') emitted') :
    Alike qubits qubits' emitted emitted' := by
  obtain ⟨hvalidW, lowered, hsub, hkept⟩ := h.of_open_power rfl hnone hroot
  obtain ⟨hvalidW', lowered', hsub', hkept'⟩ := h'.of_open_power rfl hnone hroot
  rw [Operation.qubits_on] at hvalidW hvalidW' hsub hsub' hkept hkept'
  rcases hw hvalidW hvalidW' hsub hsub' with ⟨op, rfl, rfl⟩ | ⟨hne, hne'⟩
  · rcases hkept with ⟨hsame, rfl⟩ | ⟨only, powered, hsingle, hchanged, hpowered, hvalidP, hagain⟩
    · rcases hkept' with ⟨-, rfl⟩ | ⟨only', powered', hsingle', hchanged', -⟩
      · exact Or.inl ⟨_, rfl, rfl⟩
      · have hsame' := hsame _ rfl
        obtain rfl := List.singleton_inj.1 hsingle'
        rw [isUnchanged_on] at hsame' hchanged'
        cases hsame'.symm.trans hchanged'
    · obtain rfl := List.singleton_inj.1 hsingle
      rcases hkept' with ⟨hsame', -⟩ | ⟨only', powered', hsingle', -, hpowered', hvalidP', hagain'⟩
      · have hsame := hsame' _ rfl
        rw [isUnchanged_on] at hsame hchanged
        cases hsame.symm.trans hchanged
      · obtain rfl := List.singleton_inj.1 hsingle'
        obtain rfl := Except.ok.inj (hpowered.symm.trans hpowered')
        refine hless powered ?_ hvalidP hvalidP' hagain hagain'
        exact rank_lt_of_powerOf hvalid rfl hnone hroot hvalidW hsub hchanged hpowered hvalidP h
  · left
    rcases hkept with ⟨-, rfl⟩ | ⟨only, powered, rfl, -⟩
    · rcases hkept' with ⟨-, rfl⟩ | ⟨only', powered', rfl, -⟩
      · exact ⟨_, rfl, rfl⟩
      · exact absurd rfl hne'
    · exact absurd rfl hne

theorem alike_powered {e : Exponent}
    (hvalid : ((Operation.powered e w).on qubits).Valid)
    (hless : ∀ op : Operation, op.rank < (Operation.powered e w).rank → AlikeWithin free free' op)
    (h : Lowers free ((Operation.powered e w).on qubits) emitted)
    (h' : Lowers free' ((Operation.powered e w).on qubits') emitted') :
    Alike qubits qubits' emitted emitted' := by
  have hpositive := w.rank_pos
  have hw : AlikeWithin free free' w := hless w (by rw [Operation.rank]; omega)
  rcases h.of_powered rfl with ⟨hzero, rfl⟩ | ⟨n, lowered, hn, hvalidW, hsub, rfl⟩ |
    ⟨hnone, hcases⟩
  · rcases h'.of_powered rfl with ⟨-, rfl⟩ | ⟨n', lowered', hn', -⟩ | ⟨hnone', -⟩
    · exact Or.inr ⟨by simp, by simp⟩
    · cases hzero.symm.trans hn'
    · cases hzero.symm.trans hnone'
  · rcases h'.of_powered rfl with ⟨hzero', -⟩ | ⟨n', lowered', hn', hvalidW', hsub', rfl⟩ |
      ⟨hnone', -⟩
    · cases hn.symm.trans hzero'
    · obtain rfl := Nat.succ.inj (Option.some.inj (hn.symm.trans hn'))
      exact alike_times (hw hvalidW hvalidW' hsub hsub')
    · cases hn.symm.trans hnone'
  · rcases h'.of_powered rfl with ⟨hzero', -⟩ | ⟨n', lowered', hn', -⟩ | ⟨-, hcases'⟩
    · cases hnone.symm.trans hzero'
    · cases hnone.symm.trans hn'
    · rcases hcases with ⟨root, hroot, hvalidR, hsub⟩ | ⟨hroot, -⟩
      · rcases hcases' with ⟨root', hroot', hvalidR', hsub'⟩ | ⟨hroot', -⟩
        · obtain rfl := Option.some.inj (hroot.symm.trans hroot')
          exact hless (.gate root) (rank_lt_of_root hroot) hvalidR hvalidR' hsub hsub'
        · cases hroot.symm.trans hroot'
      · exact alike_open_power hvalid hless hw hnone hroot h h'

/-- Only no control or two make one instruction of X under controls. -/
theorem controlledX_outcome {n : Nat} (hn : n ≠ 1)
    (hvalid : ((Operation.controlled n (.gate .x)).on qubits).Valid)
    (h : controlledX (qubits.take n) ((qubits.drop n).headD 0) free = .done emitted) :
    n = 0 ∧ emitted = [(Operation.gate .x).on qubits] ∨
    n = 2 ∧ emitted = [Operation.ccx.on qubits] ∨ 3 ≤ n ∧ emitted.length ≠ 1 := by
  have hlength : qubits.length = n + 1 := hvalid.qubits_length
  by_cases hmany : 3 ≤ n
  · refine Or.inr (Or.inr ⟨hmany, fun hone => ?_⟩)
    obtain ⟨only, rfl⟩ := List.length_eq_one_iff.1 hone
    refine controlledX_ne_singleton ?_ h
    rw [List.length_take]
    omega
  · by_cases hnone : n = 0
    · subst hnone
      obtain ⟨target, rfl⟩ := List.length_eq_one_iff.1 hlength
      exact Or.inl ⟨rfl, (apply_eq_done_iff.1 h).1⟩
    · obtain rfl : n = 2 := by omega
      obtain ⟨a, b, target, rfl⟩ := List.length_eq_three.1 hlength
      exact Or.inr (Or.inl ⟨rfl, (apply_eq_done_iff.1 h).1⟩)

theorem controlledRoot_outcome {n : Nat} (hn : n ≠ 1) (hqubit : w.numQubits = 1)
    (hvalid : ((Operation.controlled n w).on qubits).Valid)
    (h : controlledRoot w (qubits.take n) ((qubits.drop n).headD 0) free = .done emitted) :
    n = 0 ∧ emitted = [w.on qubits] ∨ 2 ≤ n ∧ emitted.length ≠ 1 := by
  have hlength : qubits.length = n + 1 := by
    rw [← hqubit]
    exact hvalid.qubits_length
  by_cases hnone : n = 0
  · subst hnone
    obtain ⟨target, rfl⟩ := List.length_eq_one_iff.1 hlength
    exact Or.inl ⟨rfl, (apply_eq_done_iff.1 h).1⟩
  · refine Or.inr ⟨by omega, fun hone => ?_⟩
    obtain ⟨only, rfl⟩ := List.length_eq_one_iff.1 hone
    refine rootLadder_ne_singleton ?_ h
    rw [List.length_reverse, List.length_take]
    omega

/-- Several controls on one qubit, built from fewer. -/
theorem alike_controlledLeaf {n : Nat} (hn : n ≠ 1) (hqubit : w.numQubits = 1)
    (hvalid : ((Operation.controlled n w).on qubits).Valid)
    (hvalid' : ((Operation.controlled n w).on qubits').Valid)
    (h : w = .gate .x ∧
        controlledX (qubits.take n) ((qubits.drop n).headD 0) free = .done emitted ∨
      (w == .gate .x) = false ∧
        controlledRoot w (qubits.take n) ((qubits.drop n).headD 0) free = .done emitted)
    (h' : w = .gate .x ∧
        controlledX (qubits'.take n) ((qubits'.drop n).headD 0) free' = .done emitted' ∨
      (w == .gate .x) = false ∧
        controlledRoot w (qubits'.take n) ((qubits'.drop n).headD 0) free' = .done emitted') :
    Alike qubits qubits' emitted emitted' := by
  rcases h with ⟨rfl, hx⟩ | ⟨hother, hroot⟩
  · rcases h' with ⟨-, hx'⟩ | ⟨hother', -⟩
    · have hout := controlledX_outcome hn hvalid hx
      have hout' := controlledX_outcome hn hvalid' hx'
      unfold Alike
      grind
    · exact absurd hother' (by decide)
  · rcases h' with ⟨rfl, -⟩ | ⟨-, hroot'⟩
    · exact absurd hother (by decide)
    · have hout := controlledRoot_outcome hn hqubit hvalid hroot
      have hout' := controlledRoot_outcome hn hqubit hvalid' hroot'
      unfold Alike
      grind

/-- Controls in front of everything that is under them. -/
theorem alike_controlEach {n : Nat} {lowered lowered' : List Instruction}
    (hcount : (qubits.take n).length = n) (hcount' : (qubits'.take n).length = n)
    (halike : Alike (qubits.drop n) (qubits'.drop n) lowered lowered')
    (h : List.Forall₂ (fun part other =>
      controlInstruction (qubits.take n) part = .done [other]) lowered emitted)
    (h' : List.Forall₂ (fun part other =>
      controlInstruction (qubits'.take n) part = .done [other]) lowered' emitted') :
    Alike qubits qubits' emitted emitted' := by
  have hparts := h.length_eq
  have hparts' := h'.length_eq
  rcases halike with ⟨op, rfl, rfl⟩ | ⟨hne, hne'⟩
  · obtain ⟨other, rfl, hother⟩ := forall₂_singleton_left_iff.1 h
    obtain ⟨other', rfl, hother'⟩ := forall₂_singleton_left_iff.1 h'
    obtain ⟨-, -, -, rfl⟩ := controlInstruction_cases hother
    obtain ⟨-, -, -, rfl⟩ := controlInstruction_cases hother'
    rw [hcount, hcount', Operation.qubits_on, Operation.qubits_on, Operation.operation_on,
      Operation.operation_on, List.take_append_drop, List.take_append_drop]
    exact Or.inl ⟨_, rfl, rfl⟩
  · exact Or.inr ⟨by omega, by omega⟩

theorem alike_controlled {n : Nat} (hw : AlikeWithin free free' w)
    (hvalid : ((Operation.controlled n w).on qubits).Valid)
    (hvalid' : ((Operation.controlled n w).on qubits').Valid)
    (h : Lowers free ((Operation.controlled n w).on qubits) emitted)
    (h' : Lowers free' ((Operation.controlled n w).on qubits') emitted') :
    Alike qubits qubits' emitted emitted' := by
  have hcount : (qubits.take n).length = n := hvalid.length_take rfl
  have hcount' : (qubits'.take n).length = n := hvalid'.length_take rfl
  rcases h.of_controlled rfl with ⟨hone, rfl⟩ | ⟨hmany, hvalidW, lowered, hsub, hcases⟩
  · rcases h'.of_controlled rfl with ⟨-, rfl⟩ | ⟨hmany', -⟩
    · exact Or.inl ⟨_, rfl, rfl⟩
    · exact absurd hone hmany'
  · rcases h'.of_controlled rfl with ⟨hone', -⟩ | ⟨-, hvalidW', lowered', hsub', hcases'⟩
    · exact absurd hone' hmany
    · rw [Operation.qubits_on] at hvalidW hvalidW' hsub hsub' hcases hcases'
      have halike := hw hvalidW hvalidW' hsub hsub'
      have hsame : isUnchanged lowered w (qubits.drop n) =
          isUnchanged lowered' w (qubits'.drop n) := by
        rcases halike with ⟨op, rfl, rfl⟩ | ⟨hne, hne'⟩
        · rw [isUnchanged_on, isUnchanged_on]
        · rw [isUnchanged_of_length_ne hne, isUnchanged_of_length_ne hne']
      rcases hcases with ⟨hunchanged, hcases⟩ | ⟨hchanged, hcontrolled⟩
      · rcases hcases' with ⟨-, hcases'⟩ | ⟨hchanged', -⟩
        · rw [hcount] at hcases
          rw [hcount'] at hcases'
          rcases hcases with ⟨hfew, rfl⟩ | ⟨hqubit, hn, hleaf⟩
          · rcases hcases' with ⟨-, rfl⟩ | ⟨hqubit', hn', -⟩
            · exact Or.inl ⟨_, rfl, rfl⟩
            · exact absurd hfew (by simp [hqubit', hn'])
          · rcases hcases' with ⟨hfew', -⟩ | ⟨-, -, hleaf'⟩
            · exact absurd hfew' (by simp [hqubit, hn])
            · exact alike_controlledLeaf hn hqubit hvalid hvalid' hleaf hleaf'
        · rw [hunchanged, hchanged'] at hsame
          cases hsame
      · rcases hcases' with ⟨hunchanged', -⟩ | ⟨-, hcontrolled'⟩
        · rw [hchanged, hunchanged'] at hsame
          cases hsame
        · exact alike_controlEach hcount hcount' halike hcontrolled hcontrolled'

/-- Lowering an operation has the same outcome everywhere, as far as single instructions
go. -/
theorem alikeWithin (free free' : List Nat) (op : Operation) : AlikeWithin free free' op := by
  induction hrank : op.rank using Nat.strong_induction_on generalizing op with
  | h rank ih =>
      intro qubits qubits' lowered lowered' hvalid hvalid' h h'
      have hless : ∀ other : Operation, other.rank < op.rank → AlikeWithin free free' other :=
        fun other hlt => ih other.rank (hrank ▸ hlt) other rfl
      cases op with
      | gate g => exact alike_gate h h'
      | inverted w =>
          have hpositive := w.rank_pos
          exact alike_inverted (hless w (by rw [Operation.rank]; omega)) h h'
      | repeated n w => exact alike_repeated (hless w (Nat.lt_succ_self _)) hvalid hvalid' h h'
      | powered e w => exact alike_powered hvalid hless h h'
      | controlled n w =>
          exact alike_controlled (hless w (Nat.lt_succ_self _)) hvalid hvalid' h h'
      | _ =>
          left
          refine ⟨_, h.of_leaf ?_ rfl, h'.of_leaf ?_ rfl⟩ <;> simp [Operation.kind]

end Step

namespace Lowers

variable {free free' qubits qubits' : List Nat} {op : Operation}

/-- The only instruction that an operation is lowered to is on all of its qubits. -/
theorem only_on {only : Instruction} (hvalid : (op.on qubits).Valid)
    (h : Lowers free (op.on qubits) [only]) : ∃ other : Operation, only = other.on qubits := by
  rcases alikeWithin free free op hvalid hvalid h h with ⟨other, hother, -⟩ | ⟨hne, -⟩
  · exact ⟨other, List.singleton_inj.1 hother⟩
  · exact absurd rfl hne

/-- What stays as it is somewhere stays as it is everywhere. -/
theorem stable_elsewhere {lowered : List Instruction} (hvalid : (op.on qubits).Valid)
    (h : Lowers free (op.on qubits) [op.on qubits]) (hvalid' : (op.on qubits').Valid)
    (h' : Lowers free' (op.on qubits') lowered) : lowered = [op.on qubits'] := by
  rcases alikeWithin free free' op hvalid hvalid' h h' with ⟨other, hother, rfl⟩ | ⟨hne, -⟩
  · obtain rfl : op = other := congrArg Instruction.operation (List.singleton_inj.1 hother)
    rfl
  · exact absurd rfl hne

end Lowers

section Forms

/-! Lowerings put together from those of what is wrapped. -/

variable {free : List Nat} {n : Nat} {w : Operation} {qubits : List Nat}

theorem lowers_single (hqubit : w.numQubits = 1)
    (hvalid : ((Operation.controlled 1 w).on qubits).Valid) :
    Lowers free ((Operation.controlled 1 w).on qubits) [(Operation.controlled 1 w).on qubits] :=
  LowerStep.lowers hvalid (.keep (by simp [Operation.kind]) (by simp [Operation.kind])
    (.single rfl ⟨hqubit, rfl⟩))

/-- One copy is lowered as what it is a copy of. -/
theorem Lowers.copy {lowered : List Instruction} (hpositive : 0 < w.numQubits)
    (hvalid : ((Operation.repeated 1 w).on qubits).Valid) (hvalidW : (w.on qubits).Valid)
    (h : Lowers free (w.on qubits) lowered) :
    Lowers free ((Operation.repeated 1 w).on qubits) lowered := by
  have hlists : List.Forall₂ (fun block list => (w.on block).Valid ∧ Lowers free (w.on block) list)
      (blocks w.numQubits qubits qubits.length) [lowered] := by
    have hlength : qubits.length = w.numQubits := hvalidW.qubits_length
    rw [blocks_one hpositive hlength]
    exact .cons ⟨hvalidW, h⟩ .nil
  have hstep : LowerStep (Lowers free) free ((Operation.repeated 1 w).on qubits)
      [lowered].flatten := .blocks rfl hpositive.ne' hlists
  rw [List.flatten_singleton] at hstep
  exact hstep.lowers hvalid

/-- Controls are put in front of the one instruction that something becomes. -/
theorem Lowers.control {op : Operation} (hn : 0 < n) (hunitary : op.isUnitary = true)
    (hvalid : ((Operation.controlled n w).on qubits).Valid)
    (hvalidW : (w.on (qubits.drop n)).Valid)
    (h : Lowers free (w.on (qubits.drop n)) [op.on (qubits.drop n)])
    (hmany : ¬(w.numQubits = 1 ∧ n = 1)) (hchanged : (op == w) = false) :
    Lowers free ((Operation.controlled n w).on qubits) [(op.addControls n).on qubits] := by
  have hcount : (qubits.take n).length = n := hvalid.length_take rfl
  have hwidth : (qubits.drop n).length = op.numQubits :=
    (h.yields hvalidW _ List.mem_cons_self).valid.qubits_length
  have hlength : qubits.length = (op.addControls n).numQubits := by
    rw [Operation.numQubits_addControls, ← hwidth, List.length_drop]
    rw [List.length_take] at hcount
    omega
  have hcontrol : controlInstruction (qubits.take n) (op.on (qubits.drop n)) =
      .done [(op.addControls n).on qubits] := by
    rw [controlInstruction, hcount, Operation.operation_on, Operation.qubits_on,
      Operation.control_eq_ok hn hunitary, List.take_append_drop]
    exact apply_eq_done (by simpa using hunitary) hlength hvalid.qubits_nodup
  refine LowerStep.lowers hvalid (.controlEach rfl hvalidW h (.cons hcontrol .nil) hmany ?_)
  rw [Operation.qubits_on, isUnchanged_on, hchanged]

end Forms

end GateAlgebra
