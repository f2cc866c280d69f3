import Mathlib.Data.List.Lattice
import GateAlgebra.Lowering.ControlledX
import GateAlgebra.Proofs.Emission
import GateAlgebra.Proofs.Toggle
/-!
Multi-controlled X with borrowed qubits.  Both the ladder and the split into two
groups are conjugations of toggles, so they act as one toggle whatever state the
borrowed qubits are in.
-/

namespace GateAlgebra

/-- X with at most two controls, on qubits of a list. -/
structure Instruction.IsToggle (support : List Nat) (inst : Instruction) : Prop where
  operation_mem : inst.operation ∈ [Operation.gate .x, .cx, .ccx]
  valid : inst.Valid
  qubits_subset : inst.qubits ⊆ support

namespace Emission

/-- The emission is complete, holds toggles only, and runs as `f`. -/
def Performs (support : List Nat) (emission : Emission)
    (f : Function.End Assignment) : Prop :=
  ∃ emitted, emission = done emitted ∧
    (∀ inst ∈ emitted, inst.IsToggle support) ∧ runBits emitted = some f

variable {support : List Nat}

theorem performs_done_nil : (done []).Performs support 1 :=
  ⟨[], rfl, by simp, rfl⟩

theorem Performs.andThen {first second : Emission} {f g : Function.End Assignment}
    (hfirst : first.Performs support f) (hsecond : second.Performs support g) :
    (first.andThen second).Performs support (g * f) := by
  obtain ⟨left, rfl, hleft, hrunLeft⟩ := hfirst
  obtain ⟨right, rfl, hright, hrunRight⟩ := hsecond
  refine ⟨left ++ right, rfl, ?_, runBits_append hrunLeft hrunRight⟩
  intro inst hinst
  rcases List.mem_append.1 hinst with hinst | hinst
  · exact hleft inst hinst
  · exact hright inst hinst

theorem Performs.twice {emission : Emission} {f : Function.End Assignment}
    (h : emission.Performs support f) : (emission.times 2).Performs support (f * f) := by
  have htwice : emission.times 2 = emission.andThen emission := by
    rw [times_succ, times_succ, times_zero, done_andThen]
  rw [htwice]
  exact h.andThen h

theorem Performs.sequence {β : Type} {part : β → Emission}
    {step : β → Function.End Assignment} {items : List β}
    (h : ∀ item ∈ items, (part item).Performs support (step item)) :
    (Emission.sequence (items.map part)).Performs support (items.map step).reverse.prod := by
  induction items with
  | nil => exact performs_done_nil
  | cons item items ih =>
      have hhead := h item List.mem_cons_self
      have htail := ih fun other hother => h other (List.mem_cons_of_mem item hother)
      simpa [List.prod_append] using hhead.andThen htail

end Emission

/-- One X gate with as many controls as its operation has. -/
theorem apply_performs {op : Operation} {qubits support : List Nat}
    {f : Function.End Assignment} (hop : op ∈ [Operation.gate .x, .cx, .ccx])
    (hlength : qubits.length = op.numQubits) (hnodup : qubits.Nodup)
    (hsub : qubits ⊆ support) (hrun : runBits [⟨op, qubits, [], []⟩] = some f) :
    (Emission.apply op qubits).Performs support f := by
  have hunitary : op.isUnitary = true := by
    simp only [List.mem_cons, List.not_mem_nil, or_false] at hop
    rcases hop with rfl | rfl | rfl <;> rfl
  refine ⟨_, Emission.apply_eq_done hunitary hlength hnodup, ?_, hrun⟩
  intro inst hinst
  rw [List.mem_singleton] at hinst
  subst hinst
  exact ⟨hop, Instruction.valid_of_isUnitary hunitary hlength hnodup, hsub⟩

theorem toffoli_performs {a b target : Nat} {support : List Nat}
    (hnodup : [a, b, target].Nodup) (hsub : [a, b, target] ⊆ support) :
    (toffoli a b target).Performs support (toggle [a, b] target) :=
  apply_performs (by simp) rfl hnodup hsub rfl

section Ladder

/-- Control, carry and target of each rung of a ladder. -/
def rungs (carry : Nat) : List Nat → List Nat → List (Nat × Nat × Nat)
  | control :: controls, target :: targets =>
      (control, carry, target) :: rungs target controls targets
  | _, _ => []

def rungToggle (rung : Nat × Nat × Nat) : Function.End Assignment :=
  toggle [rung.1, rung.2.1] rung.2.2

theorem ladderRungs_eq_map (carry : Nat) (controls targets : List Nat) :
    ladderRungs carry controls targets =
      (rungs carry controls targets).map fun rung => toffoli rung.1 rung.2.1 rung.2.2 := by
  induction controls generalizing carry targets with
  | nil => rfl
  | cons control controls ih =>
      cases targets with
      | nil => rfl
      | cons target targets => simp only [ladderRungs, rungs, List.map_cons, ih]

/-- The controls of a rung are a control of the ladder and the carry or a target
before its own. -/
theorem mem_rungs {carry : Nat} {controls targets : List Nat} {rung : Nat × Nat × Nat}
    (hrung : rung ∈ rungs carry controls targets) :
    rung.1 ∈ controls ∧ rung.2.1 ∈ carry :: targets ∧ rung.2.2 ∈ targets := by
  induction controls generalizing carry targets with
  | nil => simp [rungs] at hrung
  | cons control controls ih =>
      cases targets with
      | nil => simp [rungs] at hrung
      | cons target targets =>
          rw [rungs, List.mem_cons] at hrung
          rcases hrung with rfl | hrung
          · simp
          · obtain ⟨hcontrol, hcarry, htarget⟩ := ih hrung
            exact ⟨List.mem_cons_of_mem control hcontrol,
              List.mem_cons_of_mem carry hcarry, List.mem_cons_of_mem target htarget⟩

/-- The qubits of a rung stand in this order among those of the ladder. -/
theorem sublist_rung {carry : Nat} {controls targets : List Nat} {rung : Nat × Nat × Nat}
    (hrung : rung ∈ rungs carry controls targets) :
    [rung.1, rung.2.1, rung.2.2].Sublist (controls ++ carry :: targets) := by
  induction controls generalizing carry targets with
  | nil => simp [rungs] at hrung
  | cons control controls ih =>
      cases targets with
      | nil => simp [rungs] at hrung
      | cons target targets =>
          rw [rungs, List.mem_cons] at hrung
          rcases hrung with rfl | hrung
          · apply List.Sublist.cons_cons
            refine List.Sublist.trans ?_ (List.sublist_append_right controls _)
            exact ((List.nil_sublist targets).cons_cons target).cons_cons carry
          · refine (ih hrung).trans (List.Sublist.cons control ?_)
            exact (List.Sublist.refl controls).append (List.sublist_cons_self carry _)

theorem nodup_rung {carry : Nat} {controls targets : List Nat} {rung : Nat × Nat × Nat}
    (hnodup : (controls ++ carry :: targets).Nodup)
    (hrung : rung ∈ rungs carry controls targets) :
    [rung.1, rung.2.1, rung.2.2].Nodup :=
  hnodup.sublist (sublist_rung hrung)

/-- Rungs commute with a toggle that they share no bit with but controls. -/
theorem commute_rungs {P : List Nat} {a carry : Nat} {controls targets : List Nat}
    {part : List (Nat × Nat × Nat)} (hcontrols : a ∉ controls)
    (hcarry : a ∉ carry :: targets) (hP : ∀ t ∈ targets, t ∉ P)
    (hpart : part ⊆ rungs carry controls targets) :
    Commute (toggle P a) (part.map rungToggle).prod := by
  apply Commute.list_prod_right
  intro f hf
  obtain ⟨rung, hrung, rfl⟩ := List.mem_map.1 hf
  obtain ⟨hcontrol, hlast, htarget⟩ := mem_rungs (hpart hrung)
  apply toggle_commute
  · simp only [List.mem_cons, List.not_mem_nil, or_false, not_or]
    exact ⟨fun h => hcontrols (h ▸ hcontrol), fun h => hcarry (h ▸ hlast)⟩
  · exact hP _ htarget

/-- The rungs that are climbed again, the last of them first. -/
def climbed (carry : Nat) (controls targets : List Nat) : List (Nat × Nat × Nat) :=
  (rungs carry controls targets).dropLast.reverse

theorem climbed_subset (carry : Nat) (controls targets : List Nat) :
    climbed carry controls targets ⊆ rungs carry controls targets := by
  intro rung hrung
  exact List.dropLast_subset _ (List.mem_reverse.1 hrung)

/-- One way down and up the rungs, with a toggle of the carry at the bottom and
without the first rung on the way back. -/
def ladderRound (P : List Nat) (carry : Nat) (controls targets : List Nat) :
    Function.End Assignment :=
  ((climbed carry controls targets).map rungToggle).prod * toggle P carry *
    ((rungs carry controls targets).map rungToggle).prod

theorem commute_ladderRound {P Q : List Nat} {a carry : Nat} {controls targets : List Nat}
    (hcontrols : a ∉ controls) (hcarry : a ∉ carry :: targets)
    (hP : ∀ t ∈ targets, t ∉ P) (haQ : a ∉ Q) (hcarryP : carry ∉ P) :
    Commute (toggle P a) (ladderRound Q carry controls targets) :=
  ((commute_rungs hcontrols hcarry hP (climbed_subset _ _ _)).mul_right
    (toggle_commute haQ hcarryP)).mul_right
      (commute_rungs hcontrols hcarry hP (List.Subset.refl _))

/-- The lowest rung hands the controls of the carry on to its own target.  What is
left of the toggle of the carry commutes with the rest of the ladder. -/
theorem ladderRound_cons {P : List Nat} {carry control next : Nat}
    {controls targets : List Nat} (hrest : rungs next controls targets ≠ [])
    (hnodup : (P ++ (control :: controls) ++ carry :: next :: targets).Nodup) :
    ladderRound P carry (control :: controls) (next :: targets) =
      toggle P carry * ladderRound (P ++ [control]) next controls targets := by
  obtain ⟨hcarryP, hnextP, hP⟩ : carry ∉ P ∧ next ∉ P ∧ ∀ t ∈ targets, t ∉ P := by grind
  have hcontrol : control ≠ carry ∧ next ≠ control ∧ next ≠ carry := by grind
  have hcarry : carry ∉ controls ∧ carry ∉ next :: targets := by grind
  let rest := ((rungs next controls targets).map rungToggle).prod
  let back := ((climbed next controls targets).map rungToggle).prod
  have hconj : toggle [control, carry] next * toggle P carry * toggle [control, carry] next =
      toggle P carry * toggle (P ++ [control]) next := by
    have h := toggle_conj (S := [control]) hcarryP hnextP (by simp [hcontrol.2.1])
      hcontrol.2.2 (by simp [Ne.symm hcontrol.1])
    rw [List.singleton_append] at h
    rw [h]
    exact congrArg _ (toggle_congr (by grind) next)
  have hback : Commute (toggle P carry) back :=
    commute_rungs hcarry.1 hcarry.2 hP (climbed_subset _ _ _)
  calc ladderRound P carry (control :: controls) (next :: targets)
      = back * toggle [control, carry] next * toggle P carry *
          (toggle [control, carry] next * rest) := by
        simp [ladderRound, climbed, rungs, List.dropLast_cons_of_ne_nil hrest,
          rungToggle, back, rest]
    _ = back * (toggle [control, carry] next * toggle P carry *
          toggle [control, carry] next) * rest := by
        simp only [mul_assoc]
    _ = back * toggle P carry * toggle (P ++ [control]) next * rest := by
        rw [hconj]
        simp only [mul_assoc]
    _ = toggle P carry * (back * toggle (P ++ [control]) next * rest) := by
        rw [← hback.eq]
        simp only [mul_assoc]

/-- Two rounds toggle the last target by all controls and give every borrowed
target back. -/
theorem ladderRound_mul_self {P : List Nat} {carry target : Nat}
    {controls borrowed : List Nat} (hlength : controls.length = borrowed.length + 1)
    (hnodup : (P ++ controls ++ carry :: (borrowed ++ [target])).Nodup) :
    ladderRound P carry controls (borrowed ++ [target]) *
      ladderRound P carry controls (borrowed ++ [target]) =
        toggle (P ++ controls) target := by
  induction borrowed generalizing P carry controls with
  | nil =>
      obtain ⟨control, rfl⟩ := List.length_eq_one_iff.1 hlength
      have hround : ladderRound P carry [control] ([] ++ [target]) =
          toggle P carry * toggle [control, carry] target := by
        simp [ladderRound, climbed, rungs, rungToggle]
      obtain ⟨hcarryP, htargetP, htarget, hcarry⟩ : carry ∉ P ∧ target ∉ P ∧
          target ∉ [control] ∧ target ≠ carry ∧ carry ∉ [control] := by grind
      have hconj := toggle_conj hcarryP htargetP htarget hcarry.1 hcarry.2
      rw [List.singleton_append] at hconj
      rw [hround, mul_assoc, ← mul_assoc (toggle [control, carry] target), hconj,
        ← mul_assoc, toggle_mul_self hcarryP, one_mul]
      exact toggle_congr (by grind) target
  | cons next borrowed ih =>
      obtain ⟨control, controls, rfl⟩ := List.exists_cons_of_length_eq_add_one hlength
      have hlength' : controls.length = borrowed.length + 1 := by simpa using hlength
      have hrest : rungs next controls (borrowed ++ [target]) ≠ [] := by
        obtain ⟨x, xs, rfl⟩ := List.exists_cons_of_length_eq_add_one hlength'
        cases borrowed <;> simp [rungs]
      have hcarry : carry ∉ P ∧ carry ∉ P ++ [control] ∧ carry ∉ controls ∧
          carry ∉ next :: (borrowed ++ [target]) := by grind
      have hnext : next ∉ P := by grind
      have hP : ∀ t ∈ borrowed ++ [target], t ∉ P := by grind
      have hcommute : Commute (toggle P carry)
          (ladderRound (P ++ [control]) next controls (borrowed ++ [target])) :=
        commute_ladderRound hcarry.2.2.1 hcarry.2.2.2 hP hcarry.2.1 hnext
      have hnodup' : (P ++ [control] ++ controls ++
          next :: (borrowed ++ [target])).Nodup := by grind
      rw [List.cons_append, ladderRound_cons hrest hnodup, hcommute.symm.mul_mul_mul_comm,
        toggle_mul_self hcarry.1, one_mul, ih hlength' hnodup']
      exact toggle_congr (by grind) target

/-- Controls and target of the Toffoli gates of one round. -/
def roundRungs (first second carry : Nat) (controls targets : List Nat) :
    List (Nat × Nat × Nat) :=
  (rungs carry controls targets).reverse ++
    (first, second, carry) :: (rungs carry controls targets).dropLast

theorem mem_roundRungs {first second carry : Nat} {controls targets : List Nat}
    {rung : Nat × Nat × Nat} (h : rung ∈ roundRungs first second carry controls targets) :
    rung = (first, second, carry) ∨ rung ∈ rungs carry controls targets := by
  rcases List.mem_append.1 h with hup | hdown
  · exact Or.inr (List.mem_reverse.1 hup)
  · rcases List.mem_cons.1 hdown with hbottom | hdown
    · exact Or.inl hbottom
    · exact Or.inr (List.dropLast_subset _ hdown)

theorem toffoliLadder_eq_times (first second carry target : Nat) (controls borrowed : List Nat) :
    toffoliLadder (first :: second :: controls) target (carry :: borrowed) =
      (Emission.sequence ((roundRungs first second carry controls (borrowed ++ [target])).map
        fun rung => toffoli rung.1 rung.2.1 rung.2.2)).times 2 := by
  simp [toffoliLadder, ladderRungs_eq_map, roundRungs, List.map_dropLast]

/-- A ladder of complete Toffoli gates is two rounds over its rungs. -/
theorem toffoliLadder_performs_rounds {first second carry target : Nat}
    {controls borrowed support : List Nat}
    (h : ∀ rung ∈ roundRungs first second carry controls (borrowed ++ [target]),
      (toffoli rung.1 rung.2.1 rung.2.2).Performs support (rungToggle rung)) :
    (toffoliLadder (first :: second :: controls) target (carry :: borrowed)).Performs support
      (ladderRound [first, second] carry controls (borrowed ++ [target]) *
        ladderRound [first, second] carry controls (borrowed ++ [target])) := by
  have hround : ((roundRungs first second carry controls (borrowed ++ [target])).map
      rungToggle).reverse.prod =
        ladderRound [first, second] carry controls (borrowed ++ [target]) := by
    simp [roundRungs, ladderRound, climbed, rungToggle, List.map_dropLast, mul_assoc]
  rw [toffoliLadder_eq_times, ← hround]
  exact (Emission.Performs.sequence h).twice

/-- A ladder that borrows two qubits fewer than it has controls toggles the target,
whatever the borrowed qubits hold. -/
theorem toffoliLadder_performs {first second carry target : Nat}
    {controls borrowed support : List Nat}
    (hlength : controls.length = borrowed.length + 1)
    (hnodup : (first :: second :: controls ++ target :: carry :: borrowed).Nodup)
    (hsub : first :: second :: controls ++ target :: carry :: borrowed ⊆ support) :
    (toffoliLadder (first :: second :: controls) target (carry :: borrowed)).Performs
      support (toggle (first :: second :: controls) target) := by
  have hrungs : ∀ rung ∈ roundRungs first second carry controls (borrowed ++ [target]),
      (toffoli rung.1 rung.2.1 rung.2.2).Performs support (rungToggle rung) := by
    intro rung hrung
    rcases mem_roundRungs hrung with rfl | hrung
    · exact toffoli_performs (by grind) (by grind)
    · have hbound := mem_rungs hrung
      have hdistinct : (controls ++ carry :: (borrowed ++ [target])).Nodup := by grind
      exact toffoli_performs (nodup_rung hdistinct hrung) (by grind)
  have hperforms := toffoliLadder_performs_rounds hrungs
  rwa [ladderRound_mul_self hlength (by grind)] at hperforms

end Ladder

/-- Of the free qubits a ladder takes one as the carry, and one for each control after the
third. -/
theorem ladder_qubits {first second third target carry : Nat} {controls free : List Nat}
    (hlength : controls.length ≤ free.length)
    (hnodup : (first :: second :: third :: controls ++ target :: carry :: free).Nodup) :
    (third :: controls).length = (free.take controls.length).length + 1 ∧
      (first :: second :: third :: controls ++
        target :: carry :: free.take controls.length).Nodup := by
  constructor
  · rw [List.length_take, List.length_cons]
    omega
  · refine hnodup.sublist ((List.Sublist.refl _).append ?_)
    exact ((List.take_sublist _ free).cons_cons carry).cons_cons target

/-- The second group and the borrowed qubit control the target, and the first group is to
borrow. -/
theorem perm_secondGroup (first second rest : List Nat) (target borrowed : Nat) :
    (second ++ [borrowed] ++ target :: (first ++ rest)).Perm
      (first ++ second ++ target :: borrowed :: rest) := by
  apply List.perm_iff_count.2
  intro q
  simp only [List.count_append, List.count_cons, List.count_nil]
  omega

/-- With qubits enough for a ladder, or no need of one, the controls toggle the
target. -/
theorem directX_performs {controls free support : List Nat} {target : Nat}
    (hlength : controls.length ≤ free.length + 2)
    (hnodup : (controls ++ target :: free).Nodup)
    (hsub : controls ++ target :: free ⊆ support) :
    (directX controls target free).Performs support (toggle controls target) := by
  match controls with
  | [] => exact apply_performs (by simp) rfl (by grind) (by grind) rfl
  | [a] => exact apply_performs (by simp) rfl (by grind) (by grind) rfl
  | [a, b] => exact apply_performs (by simp) rfl (by grind) (by grind) rfl
  | first :: second :: third :: controls =>
      cases free with
      | nil => simp at hlength
      | cons carry free =>
          simp only [List.length_cons] at hlength
          obtain ⟨hborrowed, hdistinct⟩ := ladder_qubits (by omega) hnodup
          have htake : free.take controls.length ⊆ free := List.take_subset _ _
          exact toffoliLadder_performs hborrowed hdistinct (by grind)

/-- Two groups of controls around a borrowed qubit.  Each group borrows from the
other one, and doing both twice restores the qubit between them. -/
theorem twoGroups_performs {first second rest support : List Nat} {target borrowed : Nat}
    (hfirst : first.length ≤ second.length + rest.length + 3)
    (hsecond : second.length ≤ first.length + rest.length + 1)
    (hnodup : (first ++ second ++ target :: borrowed :: rest).Nodup)
    (hsub : first ++ second ++ target :: borrowed :: rest ⊆ support) :
    (((directX first borrowed (second ++ target :: rest)).andThen
      (directX (second ++ [borrowed]) target (first ++ rest))).times 2).Performs support
        (toggle (first ++ second) target) := by
  have hleft : (directX first borrowed (second ++ target :: rest)).Performs support
      (toggle first borrowed) := by
    apply directX_performs _ (by grind) (by grind)
    simp only [List.length_append, List.length_cons]
    omega
  have hright : (directX (second ++ [borrowed]) target (first ++ rest)).Performs support
      (toggle (second ++ [borrowed]) target) := by
    have hperm := perm_secondGroup first second rest target borrowed
    apply directX_performs _ (hperm.nodup_iff.2 hnodup) (by grind)
    simp only [List.length_append, List.length_cons, List.length_nil]
    omega
  obtain ⟨hborrowed, htarget, hne⟩ : (borrowed ∉ first ∧ borrowed ∉ second) ∧
      (target ∉ first ∧ target ∉ second) ∧ target ≠ borrowed := by grind
  have hconj := toggle_conj hborrowed.1 htarget.1 htarget.2 hne hborrowed.2
  have hcommute : Commute (toggle first borrowed) (toggle (second ++ first) target) :=
    toggle_commute (by simp [hborrowed]) htarget.1
  have hproduct : toggle (second ++ [borrowed]) target * toggle first borrowed *
      (toggle (second ++ [borrowed]) target * toggle first borrowed) =
        toggle (first ++ second) target := by
    calc toggle (second ++ [borrowed]) target * toggle first borrowed *
          (toggle (second ++ [borrowed]) target * toggle first borrowed)
        = toggle (second ++ [borrowed]) target * toggle first borrowed *
            toggle (second ++ [borrowed]) target * toggle first borrowed := by
          simp only [mul_assoc]
      _ = toggle (second ++ first) target * (toggle first borrowed *
            toggle first borrowed) := by
          rw [hconj, hcommute.eq, mul_assoc]
      _ = toggle (first ++ second) target := by
          rw [toggle_mul_self hborrowed.1, mul_one]
          exact toggle_congr (by simp [or_comm]) target
  rw [← hproduct]
  exact (hleft.andThen hright).twice

theorem halvedX_performs {controls rest support : List Nat} {target borrowed : Nat}
    (hlength : rest.length + 3 < controls.length)
    (hnodup : (controls ++ target :: borrowed :: rest).Nodup)
    (hsub : controls ++ target :: borrowed :: rest ⊆ support) :
    (halvedX controls target borrowed rest).Performs support
      (toggle controls target) := by
  let half := (controls.length + 2 + rest.length) / 2
  have hsplit : controls.take half ++ controls.drop half = controls :=
    List.take_append_drop half controls
  rw [← hsplit] at hnodup hsub
  have hperforms : (halvedX controls target borrowed rest).Performs support
      (toggle (controls.take half ++ controls.drop half) target) := by
    apply twoGroups_performs _ _ hnodup hsub
    · rw [List.length_take, List.length_drop]
      omega
    · rw [List.length_take, List.length_drop]
      omega
  rw [hsplit] at hperforms
  exact hperforms

/-- With at least one qubit to borrow, the controls toggle the target. -/
theorem borrowingX_performs {controls rest support : List Nat} {target borrowed : Nat}
    (hnodup : (controls ++ target :: borrowed :: rest).Nodup)
    (hsub : controls ++ target :: borrowed :: rest ⊆ support) :
    (borrowingX controls target borrowed rest).Performs support
      (toggle controls target) := by
  unfold borrowingX
  split
  · rename_i hlength
    exact directX_performs (by simpa using hlength) hnodup hsub
  · rename_i hlength
    exact halvedX_performs (by omega) hnodup hsub

theorem controlledX_eq_directX {controls free : List Nat} {target : Nat}
    (hlength : controls.length ≤ free.length + 2) :
    controlledX controls target free = directX controls target free := by
  simp [controlledX, hlength]

theorem controlledX_eq_borrowingX (controls : List Nat) (target borrowed : Nat)
    (rest : List Nat) :
    controlledX controls target (borrowed :: rest) =
      borrowingX controls target borrowed rest := by
  simp [controlledX, borrowingX]

/-- X under controls with few controls or a qubit to borrow. -/
theorem controlledX_performs {controls free support : List Nat} {target : Nat}
    (hborrow : controls.length ≤ 2 ∨ free ≠ [])
    (hnodup : (controls ++ target :: free).Nodup)
    (hsub : controls ++ target :: free ⊆ support) :
    (controlledX controls target free).Performs support (toggle controls target) := by
  cases free with
  | nil =>
      have hlength : controls.length ≤ 2 := by simpa using hborrow
      rw [controlledX_eq_directX hlength]
      exact directX_performs hlength hnodup hsub
  | cons borrowed rest =>
      rw [controlledX_eq_borrowingX]
      exact borrowingX_performs hnodup hsub

/-- A block of X gates with at most two controls each flips the target exactly if
all controls are one.  Controls, borrowed qubits and bystanders keep their bits,
whatever these are. -/
theorem controlledX_flips_target {controls free : List Nat} {target : Nat}
    (hcontrols : controls.Nodup) (htarget : target ∉ controls) (hfree : free.Nodup)
    (hdisjoint : ∀ q ∈ free, q ∉ controls ∧ q ≠ target)
    (hborrow : controls.length ≤ 2 ∨ free ≠ []) :
    ∃ emitted f, controlledX controls target free = .done emitted ∧
      (∀ inst ∈ emitted, inst.operation ∈ [Operation.gate .x, .cx, .ccx]) ∧
      runBits emitted = some f ∧
      ∀ s : Assignment, f s target = (s target ^^ controls.all s) ∧
        ∀ q, q ≠ target → f s q = s q := by
  have hnodup : (controls ++ target :: free).Nodup := by grind
  obtain ⟨emitted, hdone, hkind, hrun⟩ :=
    controlledX_performs hborrow hnodup (List.Subset.refl _)
  refine ⟨emitted, toggle controls target, hdone, ?_, hrun, ?_⟩
  · exact fun inst hinst => (hkind inst hinst).operation_mem
  · intro s
    exact ⟨toggle_apply_self controls target s,
      fun q hq => toggle_apply_of_ne controls hq s⟩

/-- Five controls around one borrowed qubit. -/
theorem controlledX_flips_target_five :
    ([0, 1, 2, 3, 4] : List Nat).Nodup ∧
    ∃ emitted f, controlledX [0, 1, 2, 3, 4] 5 [6] = .done emitted ∧
      (∀ inst ∈ emitted, inst.operation ∈ [Operation.gate .x, .cx, .ccx]) ∧
      runBits emitted = some f ∧
      ∀ s : Assignment, f s 5 = (s 5 ^^ [0, 1, 2, 3, 4].all s) ∧
        ∀ q, q ≠ 5 → f s q = s q :=
  ⟨by decide, controlledX_flips_target (by decide) (by decide) (by decide)
    (by decide) (by decide)⟩

end GateAlgebra
