import GateAlgebra.Proofs.Rungs
/-!
How many gates multi-controlled gates take, and of which kind.  With enough qubits to
borrow a ladder is linear in the controls; with fewer the two groups of controls are ladders
again, or so small that they need none, so the cost stays linear.  Square roots are
quadratic.
-/

namespace GateAlgebra

/-- The controls of an operation, those inside of other modifiers included. -/
def Operation.totalControls : Operation → Nat
  | controlled n w => n + w.totalControls
  | powered _ w => w.totalControls
  | inverted w => w.totalControls
  | repeated _ w => w.totalControls
  | _ => 0

namespace Operation

@[simp] theorem totalControls_raise (e : Exponent) (op : Operation) :
    (op.raise e).totalControls = op.totalControls :=
  raise_keeps totalControls (fun _ _ => rfl) (fun n _ _ h => congrArg (n + ·) h)
    (fun _ _ _ h => h) e op

@[simp] theorem totalControls_rootAt (op : Operation) (k : Nat) :
    (op.rootAt k).totalControls = op.totalControls := by
  induction k with
  | zero => rfl
  | succ k ih => rw [rootAt, totalControls_raise, ih]

/-- A root of X is X to a power, or X itself should the exponent come out as one. -/
theorem rootAt_x (k : Nat) :
    (gate .x).rootAt k = gate .x ∨ ∃ e, (gate .x).rootAt k = powered e (gate .x) := by
  have hraise : ∀ e : Exponent, (gate .x).raise e = gate .x ∨
      ∃ e', (gate .x).raise e = powered e' (gate .x) := by
    intro e
    unfold raise
    split
    · exact .inl rfl
    · exact .inr ⟨e, rfl⟩
  induction k with
  | zero => exact .inl rfl
  | succ k ih =>
      rw [rootAt]
      rcases ih with hx | ⟨e, hpower⟩
      · rw [hx]
        exact hraise .half
      · rw [hpower]
        unfold raise
        split
        · exact .inr ⟨e, rfl⟩
        · exact hraise (e * .half)

theorem addControls_rootAt_x (n k : Nat) :
    ((gate .x).rootAt k).addControls n = controlled n ((gate .x).rootAt k) := by
  rcases rootAt_x k with h | ⟨e, h⟩ <;> rw [h] <;> rfl

theorem invert_rootAt_x (k : Nat) :
    ((gate .x).rootAt k).invert = inverted ((gate .x).rootAt k) := by
  rcases rootAt_x k with h | ⟨e, h⟩ <;> rw [h] <;> rfl

end Operation

namespace Emission

variable {P : Operation → Prop}

/-- The emission is complete and holds so many instructions, all of one kind. -/
def Emits (P : Operation → Prop) (size : Nat) (emission : Emission) : Prop :=
  ∃ emitted, emission = done emitted ∧ (∀ inst ∈ emitted, P inst.operation) ∧
    emitted.length = size

theorem emits_apply {op : Operation} {qubits : List Nat} (hop : P op)
    (hunitary : op.isUnitary = true) (hlength : qubits.length = op.numQubits)
    (hnodup : qubits.Nodup) : (apply op qubits).Emits P 1 :=
  ⟨_, apply_eq_done hunitary hlength hnodup, List.forall_mem_singleton.2 hop, rfl⟩

theorem Emits.andThen {first second : Emission} {m n : Nat} (hfirst : first.Emits P m)
    (hsecond : second.Emits P n) : (first.andThen second).Emits P (m + n) := by
  obtain ⟨left, rfl, hleft, rfl⟩ := hfirst
  obtain ⟨right, rfl, hright, rfl⟩ := hsecond
  exact ⟨left ++ right, rfl, List.forall_mem_append.2 ⟨hleft, hright⟩, List.length_append⟩

theorem Emits.twice {emission : Emission} {n : Nat} (h : emission.Emits P n) :
    (emission.times 2).Emits P (2 * n) := by
  have htwice : emission.times 2 = emission.andThen emission := by
    rw [times_succ, times_succ, times_zero, done_andThen]
  rw [htwice, Nat.two_mul]
  exact h.andThen h

theorem emits_sequence {β : Type} {part : β → Emission} {items : List β}
    (h : ∀ item ∈ items, (part item).Emits P 1) :
    (Emission.sequence (items.map part)).Emits P items.length := by
  induction items with
  | nil => exact ⟨[], rfl, List.forall_mem_nil _, rfl⟩
  | cons item items ih =>
      obtain ⟨hhead, htail⟩ := List.forall_mem_cons.1 h
      rw [List.map_cons, sequence_cons, List.length_cons, Nat.add_comm]
      exact hhead.andThen (ih htail)

end Emission

open Emission

section Sizes

/-- The gates of X under controls, if there are qubits enough for a ladder. -/
def directSize (controls : Nat) : Nat :=
  if controls ≤ 2 then 1 else 4 * (controls - 2)

/-- The gates of X under two groups of controls. -/
def halvedSize (controls borrowed : Nat) : Nat :=
  let half := (controls + 1 + borrowed) / 2
  2 * (directSize half + directSize (controls - half + 1))

/-- The gates of X under controls with a qubit to borrow. -/
def borrowingSize (controls borrowed : Nat) : Nat :=
  if controls ≤ borrowed + 2 then directSize controls else halvedSize controls borrowed

/-- The gates of an operation under controls by square roots. -/
def rootSize : Nat → Nat → Nat
  | 0, _ => 1
  | 1, _ => 1
  | controls + 2, free =>
      2 + 2 * borrowingSize (controls + 1) (free + 1) + rootSize (controls + 1) (free + 1)

/-- Both groups together are two controls short of a ladder over all of them, unless the
second is down to one control and the borrowed qubit. -/
theorem halvedSize_eq {controls borrowed : Nat} (hsome : 1 ≤ borrowed)
    (hfew : borrowed + 2 < controls) :
    halvedSize controls borrowed =
      if (controls + 1 + borrowed) / 2 < controls - 1 then 8 * (controls - 3)
      else 8 * (controls - 3) + 2 := by
  unfold halvedSize directSize
  grind

theorem borrowingSize_le {controls borrowed : Nat} (hcontrols : 1 ≤ controls)
    (hsome : 1 ≤ borrowed) : borrowingSize controls borrowed + 7 ≤ 8 * controls := by
  unfold borrowingSize
  split
  · unfold directSize
    split <;> omega
  · rw [halvedSize_eq hsome (by omega)]
    split <;> omega

/-- Each control costs two blocks of X gates, and these are linear. -/
theorem rootSize_le {controls : Nat} (hcontrols : 1 ≤ controls) (free : Nat) :
    rootSize controls free ≤ 8 * controls ^ 2 := by
  induction controls, hcontrols using Nat.le_induction generalizing free with
  | base => simp [rootSize]
  | succ controls hcontrols ih =>
      obtain ⟨rest, rfl⟩ := Nat.exists_eq_add_of_le' hcontrols
      have hflip := borrowingSize_le hcontrols (Nat.le_add_left 1 free)
      have hrest := ih (free + 1)
      rw [rootSize]
      nlinarith

end Sizes

section Toggles

variable {P : Operation → Prop}

theorem length_rungs {carry : Nat} {controls targets : List Nat}
    (hlength : controls.length = targets.length) :
    (rungs carry controls targets).length = controls.length := by
  induction controls generalizing carry targets with
  | nil => rfl
  | cons control controls ih =>
      obtain ⟨target, targets, rfl⟩ := List.exists_cons_of_length_eq_add_one hlength.symm
      simp only [rungs, List.length_cons, ih (Nat.succ.inj hlength)]

theorem toffoliLadder_emits (hccx : P .ccx) {first second carry target : Nat}
    {controls borrowed : List Nat} (hlength : controls.length = borrowed.length + 1)
    (hnodup : (first :: second :: controls ++ target :: carry :: borrowed).Nodup) :
    (toffoliLadder (first :: second :: controls) target (carry :: borrowed)).Emits P
      (4 * controls.length) := by
  have hrungs : ∀ rung ∈ roundRungs first second carry controls (borrowed ++ [target]),
      (toffoli rung.1 rung.2.1 rung.2.2).Emits P 1 := by
    intro rung hrung
    refine emits_apply hccx rfl rfl ?_
    rcases mem_roundRungs hrung with rfl | hrung
    · grind
    · have hdistinct : (controls ++ carry :: (borrowed ++ [target])).Nodup := by grind
      exact nodup_rung hdistinct hrung
  have hround : (roundRungs first second carry controls (borrowed ++ [target])).length =
      2 * controls.length := by
    simp only [roundRungs, List.length_append, List.length_reverse, List.length_cons,
      List.length_dropLast]
    rw [length_rungs (by simpa using hlength)]
    omega
  have htwice := (emits_sequence hrungs).twice
  rw [toffoliLadder_eq_times]
  rwa [hround, ← Nat.mul_assoc] at htwice

/-- One control makes a CX gate, and more make Toffoli gates only. -/
theorem directX_emits {controls free : List Nat} {target : Nat}
    (hcx : controls.length = 1 → P .cx) (hccx : P .ccx) (hsome : 1 ≤ controls.length)
    (hlength : controls.length ≤ free.length + 2)
    (hnodup : (controls ++ target :: free).Nodup) :
    (directX controls target free).Emits P (directSize controls.length) := by
  match controls with
  | [] => exact absurd hsome (by simp)
  | [a] => exact emits_apply (hcx rfl) rfl rfl (by grind)
  | [a, b] => exact emits_apply hccx rfl rfl (by grind)
  | first :: second :: third :: controls =>
      cases free with
      | nil => simp at hlength
      | cons carry free =>
          simp only [List.length_cons] at hlength
          obtain ⟨hborrowed, hdistinct⟩ := ladder_qubits (by omega) hnodup
          exact toffoliLadder_emits hccx hborrowed hdistinct

/-- Each group finds in the other one, and in what is left to borrow, the qubits for a
ladder. -/
theorem twoGroups_emits (hccx : P .ccx) {first second rest : List Nat}
    {target borrowed : Nat} (hsome : 2 ≤ first.length ∧ 1 ≤ second.length)
    (hfirst : first.length ≤ second.length + rest.length + 3)
    (hsecond : second.length ≤ first.length + rest.length + 1)
    (hnodup : (first ++ second ++ target :: borrowed :: rest).Nodup) :
    (((directX first borrowed (second ++ target :: rest)).andThen
      (directX (second ++ [borrowed]) target (first ++ rest))).times 2).Emits P
        (2 * (directSize first.length + directSize (second.length + 1))) := by
  have hleft : (directX first borrowed (second ++ target :: rest)).Emits P
      (directSize first.length) := by
    have hpool : (second ++ target :: rest).length = second.length + (rest.length + 1) := by
      rw [List.length_append, List.length_cons]
    exact directX_emits (fun hone => by omega) hccx (by omega) (by omega) (by grind)
  have hright : (directX (second ++ [borrowed]) target (first ++ rest)).Emits P
      (directSize (second.length + 1)) := by
    have hcontrols : (second ++ [borrowed]).length = second.length + 1 := List.length_append
    have hpool : (first ++ rest).length = first.length + rest.length := List.length_append
    have hperm := perm_secondGroup first second rest target borrowed
    rw [← hcontrols]
    exact directX_emits (fun hone => by omega) hccx (by omega) (by omega)
      (hperm.nodup_iff.2 hnodup)
  exact (hleft.andThen hright).twice

theorem halvedX_emits (hccx : P .ccx) {controls rest : List Nat} {target borrowed : Nat}
    (hlength : rest.length + 3 < controls.length)
    (hnodup : (controls ++ target :: borrowed :: rest).Nodup) :
    (halvedX controls target borrowed rest).Emits P
      (halvedSize controls.length (rest.length + 1)) := by
  let half := (controls.length + 2 + rest.length) / 2
  have hsplit : controls.take half ++ controls.drop half = controls :=
    List.take_append_drop half controls
  have hfirst : (controls.take half).length = half := by
    rw [List.length_take]
    omega
  have hsecond : (controls.drop half).length = controls.length - half := List.length_drop
  rw [← hsplit] at hnodup
  have hemits : (halvedX controls target borrowed rest).Emits P (2 *
      (directSize (controls.take half).length +
        directSize ((controls.drop half).length + 1))) :=
    twoGroups_emits hccx (by omega) (by omega) (by omega) hnodup
  have hhalf : half = (controls.length + 1 + (rest.length + 1)) / 2 := by omega
  rwa [hfirst, hsecond, hhalf] at hemits

theorem borrowingX_emits {controls rest : List Nat} {target borrowed : Nat}
    (hcx : controls.length = 1 → P .cx) (hccx : P .ccx) (hsome : 1 ≤ controls.length)
    (hnodup : (controls ++ target :: borrowed :: rest).Nodup) :
    (borrowingX controls target borrowed rest).Emits P
      (borrowingSize controls.length (rest.length + 1)) := by
  unfold borrowingX borrowingSize
  split
  · exact directX_emits hcx hccx hsome (by simpa using ‹_›) hnodup
  · exact halvedX_emits hccx (by omega) hnodup

end Toggles

section Roots

variable {P : Operation → Prop}

theorem controlled_emits {op : Operation} (hop : P (op.addControls 1))
    (hunitary : op.isUnitary = true) (hqubit : op.numQubits = 1) {control target : Nat}
    (hne : control ≠ target) :
    (build (op.control 1) fun controlled => apply controlled [control, target]).Emits P 1 := by
  rw [Operation.control_eq_ok Nat.one_pos hunitary, build_ok]
  exact emits_apply hop (by simp [hunitary]) (by simp [hqubit]) (by simp [hne])

/-- Under several controls an operation comes as its iterated roots and their inverses,
one fewer than there are controls, each under one control. -/
theorem rootLadder_emits {op : Operation} (hunitary : op.isUnitary = true)
    (hqubit : op.numQubits = 1) (hcx : P .cx) (hccx : P .ccx) {controls free : List Nat}
    {target : Nat} (hsome : controls ≠ [])
    (hone : controls.length = 1 → P (op.addControls 1))
    (hroots : ∀ k, 1 ≤ k → k < controls.length →
      P ((op.rootAt k).addControls 1) ∧ P ((op.rootAt k).invert.addControls 1))
    (hnodup : (controls ++ target :: free).Nodup) :
    (rootLadder op controls target free).Emits P
      (rootSize controls.length free.length) := by
  induction controls generalizing op free with
  | nil => exact absurd rfl hsome
  | cons last rest ih =>
      have hne : last ≠ target := by grind
      cases hrest : rest with
      | nil =>
          subst hrest
          exact controlled_emits (hone rfl) hunitary hqubit hne
      | cons second others =>
          subst hrest
          obtain ⟨hfirst, hinverse⟩ := hroots 1 Nat.le.refl (by simp)
          have hroot : (op.raise .half).isUnitary = true := by simp [hunitary]
          have hrootQubit : (op.raise .half).numQubits = 1 := by simp [hqubit]
          have hreversed : ((second :: others).reverse ++ last :: target :: free).Nodup := by
            have hmoved := List.perm_middle.nodup_iff.2 hnodup
            exact ((List.reverse_perm _).append_right _).nodup_iff.2 hmoved
          have hflip : (borrowingX (second :: others).reverse last target free).Emits P
              (borrowingSize (second :: others).reverse.length (free.length + 1)) :=
            borrowingX_emits (fun _ => hcx) hccx (by simp) hreversed
          have hwidened : (second :: others ++ target :: (free ++ [last])).Nodup := by grind
          have hrest := ih hroot hrootQubit (List.cons_ne_nil second others)
            (fun _ => hfirst) (fun k hk hlt => by
              rw [Operation.rootAt_raise]
              exact hroots (k + 1) (by omega) (Nat.succ_lt_succ hlt)) hwidened
          have hall := (controlled_emits hfirst hroot hrootQubit hne).andThen
            (hflip.andThen ((controlled_emits hinverse (by simpa) (by simpa) hne).andThen
              (hflip.andThen hrest)))
          rw [rootLadder_cons hunitary (List.cons_ne_nil second others)]
          simp only [sequence_cons, sequence_nil, done_andThen]
          simp only [List.length_reverse, List.length_append, List.length_cons,
            List.length_nil, Nat.zero_add] at hall
          have hsize : rootSize (last :: second :: others).length free.length =
              1 + (borrowingSize (others.length + 1) (free.length + 1) + (1 +
                (borrowingSize (others.length + 1) (free.length + 1) +
                  rootSize (others.length + 1) (free.length + 1)))) := by
            simp only [List.length_cons, rootSize]
            omega
          rwa [hsize]

/-- X under one or two controls, or a root of X or its inverse under one. -/
def IsRootGate (depth : Nat) (op : Operation) : Prop :=
  op = .cx ∨ op = .ccx ∨ ∃ k, 1 ≤ k ∧ k < depth ∧
    (op = .controlled 1 ((Operation.gate .x).rootAt k) ∨
      op = .controlled 1 (.inverted ((Operation.gate .x).rootAt k)))

theorem IsRootGate.totalControls_le {depth : Nat} {op : Operation}
    (h : IsRootGate depth op) : op.totalControls ≤ 2 := by
  have hroot (k : Nat) : ((Operation.gate .x).rootAt k).totalControls = 0 := by simp; rfl
  rcases h with rfl | rfl | ⟨k, -, -, rfl | rfl⟩
  · exact Nat.le_succ 1
  · exact Nat.le.refl
  · rw [Operation.totalControls, hroot]
    exact Nat.le_succ 1
  · rw [Operation.totalControls, Operation.totalControls, hroot]
    exact Nat.le_succ 1

/-- Without a qubit to borrow, X under more than two controls is built by square roots. -/
theorem controlledX_nil_emits {controls : List Nat} {target : Nat}
    (hmany : 3 ≤ controls.length) (hnodup : (controls ++ [target]).Nodup) :
    (controlledX controls target []).Emits (IsRootGate controls.length)
      (rootSize controls.length 0) := by
  have hnone : ¬controls.length ≤ 0 + 2 := by omega
  have hsome : controls.reverse ≠ [] := by
    rw [List.reverse_ne_nil_iff, ← List.length_pos_iff]
    omega
  have hreversed := ((List.reverse_perm controls).append_right [target]).nodup_iff.2 hnodup
  have hroots : ∀ k, 1 ≤ k → k < controls.reverse.length →
      IsRootGate controls.length (((Operation.gate .x).rootAt k).addControls 1) ∧
      IsRootGate controls.length (((Operation.gate .x).rootAt k).invert.addControls 1) := by
    intro k hk hlt
    rw [List.length_reverse] at hlt
    constructor
    · rw [Operation.addControls_rootAt_x]
      exact .inr (.inr ⟨k, hk, hlt, .inl rfl⟩)
    · rw [Operation.invert_rootAt_x]
      exact .inr (.inr ⟨k, hk, hlt, .inr rfl⟩)
  have hemits : (rootLadder (.gate .x) controls.reverse target []).Emits
      (IsRootGate controls.length) (rootSize controls.reverse.length 0) :=
    rootLadder_emits rfl rfl (.inl rfl) (.inr (.inl rfl)) hsome (fun _ => .inl rfl) hroots
      hreversed
  simp only [controlledX, List.length_nil, hnone, ↓reduceIte, controlledRoot]
  rwa [List.length_reverse] at hemits

end Roots

/-- The groups of controls around a borrowed qubit are X gates under controls in turn,
and each finds the qubits for a ladder at once. -/
theorem halvedX_eq_controlledX {controls rest : List Nat} (target borrowed : Nat)
    (hlength : rest.length + 3 < controls.length) :
    let half := (controls.length + 2 + rest.length) / 2
    let first := controls.take half
    let second := controls.drop half
    first.length ≤ (second ++ target :: rest).length + 2 ∧
    (second ++ [borrowed]).length ≤ (first ++ rest).length + 2 ∧
    halvedX controls target borrowed rest =
      ((controlledX first borrowed (second ++ target :: rest)).andThen
        (controlledX (second ++ [borrowed]) target (first ++ rest))).times 2 := by
  intro half first second
  have hfirst : first.length ≤ (second ++ target :: rest).length + 2 := by
    simp only [first, second, half, List.length_append, List.length_cons, List.length_take,
      List.length_drop]
    omega
  have hsecond : (second ++ [borrowed]).length ≤ (first ++ rest).length + 2 := by
    simp only [first, second, half, List.length_append, List.length_cons, List.length_nil,
      List.length_take, List.length_drop]
    omega
  refine ⟨hfirst, hsecond, ?_⟩
  rw [controlledX_eq_directX hfirst, controlledX_eq_directX hsecond]
  rfl

/-- X under three controls or more.  With two qubits fewer to borrow than there are
controls it is one ladder.  With any fewer, both groups of controls are within reach of a
ladder at once.  Without any, the square roots take a number of gates that is quadratic in
the controls. -/
theorem controlledX_gates {controls free : List Nat} {target : Nat}
    (hmany : 3 ≤ controls.length) (hnodup : (controls ++ target :: free).Nodup) :
    ∃ emitted, controlledX controls target free = .done emitted ∧
      (controls.length ≤ free.length + 2 →
        (∀ inst ∈ emitted, inst.operation = .ccx) ∧
        emitted.length = 4 * (controls.length - 2)) ∧
      (∀ borrowed rest, free = borrowed :: rest → free.length + 2 < controls.length →
        let half := (controls.length + 1 + free.length) / 2
        let first := controls.take half
        let second := controls.drop half
        (∀ inst ∈ emitted, inst.operation = .ccx) ∧
        half ≤ controls.length - 1 ∧
        emitted.length =
          (if half < controls.length - 1 then 8 * (controls.length - 3)
          else 8 * (controls.length - 3) + 2) ∧
        first.length ≤ (second ++ target :: rest).length + 2 ∧
        (second ++ [borrowed]).length ≤ (first ++ rest).length + 2 ∧
        controlledX controls target free =
          ((controlledX first borrowed (second ++ target :: rest)).andThen
            (controlledX (second ++ [borrowed]) target (first ++ rest))).times 2) ∧
      (free = [] →
        (∀ inst ∈ emitted, IsRootGate controls.length inst.operation) ∧
        emitted.length ≤ 8 * controls.length ^ 2) ∧
      ∀ inst ∈ emitted, inst.operation.totalControls ≤ 2 := by
  cases free with
  | nil =>
      obtain ⟨emitted, hdone, hkind, hsize⟩ := controlledX_nil_emits hmany hnodup
      refine ⟨emitted, hdone, fun hlength => ?_, by simp, fun _ => ⟨hkind, ?_⟩, ?_⟩
      · rw [List.length_nil] at hlength
        omega
      · rw [hsize]
        exact rootSize_le (by omega) 0
      · exact fun inst hinst => (hkind inst hinst).totalControls_le
  | cons borrowed rest =>
      have hemits : (controlledX controls target (borrowed :: rest)).Emits (· = .ccx)
          (borrowingSize controls.length (rest.length + 1)) := by
        rw [controlledX_eq_borrowingX]
        exact borrowingX_emits (by omega) rfl (by omega) hnodup
      obtain ⟨emitted, hdone, hkind, hsize⟩ := hemits
      refine ⟨emitted, hdone, fun hlength => ⟨hkind, ?_⟩, ?_, by simp, ?_⟩
      · rw [List.length_cons] at hlength
        rw [hsize, borrowingSize, if_pos hlength, directSize, if_neg (by omega)]
      · rintro b others heq hlength
        obtain ⟨rfl, rfl⟩ := List.cons.inj heq
        rw [List.length_cons] at hlength
        have hhalf : (controls.length + 2 + rest.length) / 2 =
            (controls.length + 1 + (rest.length + 1)) / 2 := by omega
        have hsplit := halvedX_eq_controlledX target borrowed
          (show rest.length + 3 < controls.length by omega)
        rw [hhalf] at hsplit
        obtain ⟨hfirst, hsecond, hgroups⟩ := hsplit
        refine ⟨hkind, ?_, ?_, hfirst, hsecond, ?_⟩
        · rw [List.length_cons]
          omega
        · rw [hsize, borrowingSize, if_neg (by omega),
            halvedSize_eq (Nat.le_add_left 1 rest.length) (by omega)]
          rfl
        · rw [controlledX_eq_borrowingX, borrowingX, if_neg (by omega), hgroups]
          rfl
      · intro inst hinst
        rw [hkind inst hinst]
        exact Nat.le.refl

/-- Eight controls around one borrowed qubit. -/
theorem controlledX_gates_eight :
    3 ≤ [0, 1, 2, 3, 4, 5, 6, 7].length ∧
    ([0, 1, 2, 3, 4, 5, 6, 7] ++ 8 :: [9] : List Nat).Nodup ∧
    ∃ emitted, controlledX [0, 1, 2, 3, 4, 5, 6, 7] 8 [9] = .done emitted ∧
      emitted.length = 40 ∧ ∀ inst ∈ emitted, inst.operation = .ccx := by
  have hmany : 3 ≤ [0, 1, 2, 3, 4, 5, 6, 7].length := by decide
  have hnodup : ([0, 1, 2, 3, 4, 5, 6, 7] ++ 8 :: [9] : List Nat).Nodup := by decide
  obtain ⟨emitted, hdone, -, hhalved, -⟩ := controlledX_gates hmany hnodup
  obtain ⟨hkind, -, hsize, -⟩ := hhalved 9 [] rfl (by decide)
  exact ⟨hmany, hnodup, emitted, hdone, hsize, hkind⟩

end GateAlgebra
