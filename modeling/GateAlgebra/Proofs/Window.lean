import GateAlgebra.Proofs.CircuitMatrix
/-!
Circuits on a window of qubits.  A circuit on the qubits of a small register that stand for the
targets in a larger one does to the targets what it does to the small register.
-/

namespace GateAlgebra

open Finset

variable {n k p : Nat} {targets positions : List Nat} {value value' index bit : Nat}

section Bits

/-- Places below the first one do not depend on it. -/
theorem setQubitBit_succ (hp : p < k) :
    setQubitBit (k + 1) (p + 1) value bit = setQubitBit k p value bit := by
  have hplace : k + 1 - 1 - (p + 1) = k - 1 - p := by omega
  rw [setQubitBit_eq, setQubitBit_eq, hplace]

theorem qubitBit_succ (hp : p < k) : qubitBit (k + 1) (p + 1) value = qubitBit k p value := by
  have hplace : k + 1 - 1 - (p + 1) = k - 1 - p := by omega
  rw [qubitBit, qubitBit, hplace]

/-- A place of the number that the bits of the targets spell. -/
theorem qubitBit_readTargets (hp : p < targets.length) :
    qubitBit targets.length p (readTargets n targets index) =
      qubitBit n (targets.getD p 0) index := by
  induction targets generalizing p with
  | nil => exact absurd hp (Nat.not_lt_zero p)
  | cons q rest ih =>
      have hrest : readTargets n rest index < dimension rest.length := readTargets_lt
      rw [readTargets_cons, List.length_cons]
      cases p with
      | zero =>
          change (qubitBit n q index * dimension rest.length + readTargets n rest index) /
            dimension rest.length % 2 = qubitBit n q index
          rw [Nat.mul_comm, Nat.mul_add_div (dimension_pos _), Nat.div_eq_of_lt hrest,
            Nat.add_zero, Nat.mod_eq_of_lt qubitBit_lt_two]
      | succ p =>
          have hp : p < rest.length := Nat.lt_of_succ_lt_succ hp
          have htest : (dimension rest.length * qubitBit n q index +
              readTargets n rest index).testBit (rest.length - 1 - p) =
                (readTargets n rest index).testBit (rest.length - 1 - p) :=
            (Nat.testBit_two_pow_mul_add _ hrest _).trans (if_pos (by omega))
          rw [qubitBit_succ hp, List.getD_cons_succ, ← ih hp, Nat.mul_comm, qubitBit_eq, htest,
            ← qubitBit_eq]

/-- All qubits in order spell the index itself. -/
theorem readTargets_range (hindex : index < dimension n) :
    readTargets n (List.range n) index = index := by
  have hread : readTargets n (List.range n) index < dimension (List.range n).length :=
    readTargets_lt
  have hplaces : ∀ p < (List.range n).length, qubitBit (List.range n).length p
      (readTargets n (List.range n) index) = qubitBit n ((List.range n).getD p 0) index :=
    fun p hp => qubitBit_readTargets hp
  rw [List.length_range] at hread hplaces
  refine eq_of_qubitBit hread hindex fun p hp => ?_
  rw [hplaces p hp, List.getD_eq_getElem _ _ (by rwa [List.length_range]), List.getElem_range]

/-- Writing a number with one place changed changes the bit of one target. -/
theorem writeTargets_setQubitBit (h : TargetsBelow n targets) (hp : p < targets.length)
    (hbit : bit < 2) :
    writeTargets n targets (setQubitBit targets.length p value bit) index =
      setQubitBit n (targets.getD p 0) (writeTargets n targets value index) bit := by
  induction targets generalizing p index with
  | nil => exact absurd hp (Nat.not_lt_zero p)
  | cons q rest ih =>
      have hfirst : ∀ x, x / dimension rest.length % 2 = qubitBit (rest.length + 1) 0 x :=
        fun x => rfl
      rw [List.length_cons, writeTargets, writeTargets, hfirst, hfirst]
      cases p with
      | zero =>
          have hbelow : setQubitBit (rest.length + 1) 0 value bit % dimension rest.length =
              value % dimension rest.length := by
            rw [setQubitBit_eq]
            change (2 ^ rest.length * _ + value % 2 ^ rest.length) % 2 ^ rest.length = _
            rw [Nat.mul_add_mod, Nat.mod_mod]
            rfl
          rw [qubitBit_setQubitBit hbit, ← writeTargets_mod, hbelow, writeTargets_mod,
            List.getD_cons_zero, setQubitBit_writeTargets h.tail.lt h.head h.not_mem hbit,
            setQubitBit_setQubitBit qubitBit_lt_two hbit]
      | succ p =>
          have hp : p < rest.length := Nat.lt_of_succ_lt_succ hp
          rw [qubitBit_setQubitBit_of_ne hbit (Nat.succ_lt_succ hp) (Nat.succ_pos _)
            (Nat.succ_ne_zero p).symm, setQubitBit_succ hp, List.getD_cons_succ, ih h.tail hp]

/-- The targets that positions in a list of targets stand for. -/
def standFor (targets positions : List Nat) : List Nat :=
  positions.map fun p => targets.getD p 0

theorem readTargets_readTargets (hpositions : ∀ p ∈ positions, p < targets.length) :
    readTargets targets.length positions (readTargets n targets index) =
      readTargets n (standFor targets positions) index := by
  induction positions with
  | nil => rfl
  | cons p rest ih =>
      obtain ⟨hp, hrest⟩ := List.forall_mem_cons.1 hpositions
      rw [standFor, List.map_cons, readTargets_cons, readTargets_cons, qubitBit_readTargets hp,
        ih hrest, List.length_map]
      rfl

theorem writeTargets_writeTargets_positions (h : TargetsBelow n targets)
    (hpositions : ∀ p ∈ positions, p < targets.length) :
    writeTargets n targets (writeTargets targets.length positions value value') index =
      writeTargets n (standFor targets positions) value
        (writeTargets n targets value' index) := by
  induction positions generalizing value' with
  | nil => rfl
  | cons p rest ih =>
      obtain ⟨hp, hrest⟩ := List.forall_mem_cons.1 hpositions
      rw [standFor, List.map_cons, writeTargets, writeTargets, ih hrest,
        writeTargets_setQubitBit h hp (Nat.mod_lt _ Nat.two_pos), List.length_map]
      rfl

end Bits

namespace DenseMatrix

variable {R : Type} [CommRing R] {state gate : DenseMatrix R}

/-- A gate on positions of a window is the gate on the targets that they stand for. -/
theorem applyGate_window (h : TargetsBelow n targets)
    (hpositions : ∀ p ∈ positions, p < targets.length) :
    state.applyGate ((identity (dimension targets.length)).applyGate gate positions targets.length)
        targets n =
      state.applyGate gate (standFor targets positions) n := by
  refine ext_entry rfl rfl fun row col hrow hcol => ?_
  have hrow : row < state.rows := hrow
  have hcol : col < state.cols := hcol
  have hread : readTargets n targets row < dimension targets.length := readTargets_lt
  rw [entry_applyGate state hrow hcol, entry_applyGate state hrow hcol, cols_applyGate,
    cols_identity]
  calc ∑ v ∈ range (dimension targets.length),
        ((identity (dimension targets.length)).applyGate gate positions targets.length).entry
            (readTargets n targets row) v * state.entry (writeTargets n targets v row) col
      = ∑ v ∈ range (dimension targets.length), ∑ j ∈ range gate.cols,
          gate.entry (readTargets n (standFor targets positions) row) j *
            ((identity (dimension targets.length)).entry
              (writeTargets targets.length positions j (readTargets n targets row)) v *
                state.entry (writeTargets n targets v row) col) := by
        refine sum_congr rfl fun v hv => ?_
        rw [entry_applyGate _ hread (mem_range.1 hv), readTargets_readTargets hpositions, sum_mul]
        simp only [mul_assoc]
    _ = ∑ j ∈ range gate.cols, gate.entry (readTargets n (standFor targets positions) row) j *
          state.entry (writeTargets n (standFor targets positions) j row) col := by
        rw [sum_comm]
        refine sum_congr rfl fun j _ => ?_
        rw [← mul_sum, sum_identity_mul (fun v => state.entry (writeTargets n targets v row) col)
          (writeTargets_lt hpositions hread), writeTargets_writeTargets_positions h hpositions,
          writeTargets_readTargets]

/-- On the whole register a gate is its matrix. -/
theorem applyGate_range (hgate : gate.IsSquare) (hcols : gate.cols = dimension n) :
    (identity (dimension n)).applyGate gate (List.range n) n = gate := by
  have hall : TargetsBelow n (List.range n) := ⟨List.nodup_range, fun q hq => List.mem_range.1 hq⟩
  have hwidth : gate.cols = dimension (List.range n).length := by rw [hcols, List.length_range]
  have hrows : gate.rows = dimension n := hgate.trans hcols
  refine ext_entry hrows.symm hcols.symm fun i j hi hj => ?_
  have hi : i < dimension n := hi
  have hj : j < dimension n := hj
  have hback : writeTargets n (List.range n) i j = i := by
    rw [← readTargets_range (writeTargets_lt hall.lt hj), readTargets_writeTargets hall,
      List.length_range, Nat.mod_eq_of_lt hi]
  rw [entry_identity_applyGate hall gate hwidth hi hj, readTargets_range hi, readTargets_range hj,
    if_pos hback]

end DenseMatrix

/-- The targets are distinct if the positions are. -/
theorem TargetsBelow.standFor (h : TargetsBelow n targets)
    (hpositions : TargetsBelow targets.length positions) :
    TargetsBelow n (standFor targets positions) := by
  have hget : ∀ p ∈ positions, ∃ hp : p < targets.length, targets.getD p 0 = targets[p] :=
    fun p hp => ⟨hpositions.lt p hp, List.getD_eq_getElem targets 0 (hpositions.lt p hp)⟩
  constructor
  · refine List.Nodup.map_on (fun p hp p' hp' heq => ?_) hpositions.nodup
    obtain ⟨hlt, hgetD⟩ := hget p hp
    obtain ⟨hlt', hgetD'⟩ := hget p' hp'
    rw [hgetD, hgetD'] at heq
    exact (List.Nodup.getElem_inj_iff h.nodup).1 heq
  · intro q hq
    obtain ⟨p, hp, rfl⟩ := List.mem_map.1 hq
    obtain ⟨hlt, hgetD⟩ := hget p hp
    rw [hgetD]
    exact h.lt _ (List.getElem_mem hlt)

namespace Instruction

/-- The instruction on the targets that its qubits stand for. -/
def within (targets : List Nat) (inst : Instruction) : Instruction :=
  { inst with qubits := standFor targets inst.qubits }

/-- A gate on distinct qubits of a register that has a matrix of its size. -/
structure ActsBy {R : Type} [CommRing R] [StarRing R] (leaves : LeafMatrices R) (n : Nat)
    (inst : Instruction) (m : DenseMatrix R) : Prop where
  not_barrier : inst.isBarrier = false
  below : TargetsBelow n inst.qubits
  matrix : inst.operation.matrixOver leaves = .ok m
  square : m.IsSquare
  cols : m.cols = dimension inst.qubits.length

variable {R : Type} [CommRing R] [StarRing R] {leaves : LeafMatrices R} {inst : Instruction}
  {m : DenseMatrix R}

theorem ActsBy.within (h : inst.ActsBy leaves targets.length m)
    (htargets : TargetsBelow n targets) : (inst.within targets).ActsBy leaves n m where
  not_barrier := h.not_barrier
  below := htargets.standFor h.below
  matrix := h.matrix
  square := h.square
  cols := h.cols.trans (congrArg dimension (List.length_map _).symm)

end Instruction

/-- A gate on as many qubits of the register as it needs acts by its matrix. -/
theorem Operation.actsBy_on {R : Type} [CommRing R] [StarRing R] {leaves : LeafMatrices R}
    {w : Operation} {qubits : List Nat} {m : DenseMatrix R} (hsized : leaves.Sized)
    (hunitary : w.isUnitary = true) (hm : w.matrixOver leaves = .ok m)
    (hbelow : TargetsBelow n qubits) (hlength : qubits.length = w.numQubits) :
    Instruction.ActsBy leaves n ⟨w, qubits, [], []⟩ m where
  not_barrier := isBarrier_of_isUnitary hunitary
  below := hbelow
  matrix := hm
  square := isSquare_of_matrixOver hsized.toSquare hunitary hm
  cols := by
    rw [hlength, ← rows_matrixOver hsized hunitary hm]
    exact (isSquare_of_matrixOver hsized.toSquare hunitary hm).symm

namespace Circuit

variable {R : Type} [CommRing R] [StarRing R] {leaves : LeafMatrices R}
  {state start result : DenseMatrix R} {insts : List Instruction}

theorem applyInstruction_of_actsBy {inst : Instruction} {m : DenseMatrix R}
    (h : inst.ActsBy leaves n m) (hstate : state.rows = dimension n) :
    applyInstruction leaves n state inst = .ok (state.applyGate m inst.qubits n) := by
  have hone := foldlM_gate inst h.not_barrier h.below h.matrix hstate h.square h.cols
  change (applyInstruction leaves n state inst >>= pure) = _ at hone
  rwa [bind_pure] at hone

/-- A circuit on the positions of a window does to the targets what it does to the positions. -/
theorem foldlM_within (h : TargetsBelow n targets)
    (hacts : ∀ inst ∈ insts, ∃ m, inst.ActsBy leaves targets.length m)
    (hstart : start.rows = dimension targets.length) (hstate : state.rows = dimension n)
    (hrun : insts.foldlM (applyInstruction leaves targets.length) start = .ok result) :
    (insts.map (·.within targets)).foldlM (applyInstruction leaves n)
        (state.applyGate start targets n) = .ok (state.applyGate result targets n) := by
  induction insts generalizing start with
  | nil =>
      obtain rfl := Except.ok.inj hrun
      rfl
  | cons inst insts ih =>
      obtain ⟨⟨m, hm⟩, hrest⟩ := List.forall_mem_cons.1 hacts
      -- the window's matrix of the gate multiplies what has been done to the window
      have hstep : (state.applyGate start targets n).applyGate m
          (standFor targets inst.qubits) n =
            state.applyGate (start.applyGate m inst.qubits targets.length) targets n := by
        have hproduct := @DenseMatrix.applyGate_mul _ _
          (.identity (dimension targets.length)) m _ _ rfl hm.below.lt start
        rw [← hstart, DenseMatrix.identity_mul, hstart] at hproduct
        rw [← DenseMatrix.applyGate_window h hm.below.lt, hproduct]
        exact DenseMatrix.applyGate_applyGate h hstate (DenseMatrix.rows_applyGate.trans rfl) rfl
      rw [List.foldlM_cons, applyInstruction_of_actsBy hm hstart] at hrun
      have hplaced : (state.applyGate start targets n).rows = dimension n := hstate
      rw [List.map_cons, List.foldlM_cons, applyInstruction_of_actsBy (hm.within h) hplaced]
      change (insts.map (·.within targets)).foldlM (applyInstruction leaves n)
        ((state.applyGate start targets n).applyGate m (standFor targets inst.qubits) n) = _
      rw [hstep]
      exact ih hrest hstart hrun

end Circuit

end GateAlgebra
