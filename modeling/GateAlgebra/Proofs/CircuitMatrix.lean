import GateAlgebra.DenseMatrix.Circuit
import GateAlgebra.Proofs.InPlace
import GateAlgebra.Proofs.Instruction
import GateAlgebra.Proofs.LeafMatrix
import GateAlgebra.Proofs.ModifierLaws
/-!
The unitary of a circuit.  Every instruction multiplies the state by one matrix from the
left, so circuits one after the other multiply, and the inverse of a circuit has the adjoint
of its unitary.
-/

namespace GateAlgebra

open Finset

namespace DenseMatrix

variable {R : Type} [CommRing R] {state gate first second : DenseMatrix R} {targets : List Nat}
  {n row col : Nat}

/-- A gate applied to every column of a state on `n` qubits: a row becomes the
combination of the rows that differ from it in the target bits alone. -/
def applyGate (state gate : DenseMatrix R) (targets : List Nat) (n : Nat) : DenseMatrix R :=
  ofFn state.rows state.cols fun row col =>
    sumBelow (fun j => gate.entry (readTargets n targets row) j *
      state.entry (writeTargets n targets j row) col) gate.cols

theorem entry_applyGate (state : DenseMatrix R) (hrow : row < state.rows)
    (hcol : col < state.cols) :
    (state.applyGate gate targets n).entry row col =
      ∑ j ∈ range gate.cols, gate.entry (readTargets n targets row) j *
        state.entry (writeTargets n targets j row) col :=
  (entry_ofFn _ hrow hcol).trans (sumBelow_eq_sum _ _)

@[simp] theorem rows_applyGate : (state.applyGate gate targets n).rows = state.rows := rfl

@[simp] theorem cols_applyGate : (state.applyGate gate targets n).cols = state.cols := rfl

/-- A gate acts on each column of a state by itself. -/
theorem applyGate_mul (hstate : state.rows = dimension n) (htargets : ∀ q ∈ targets, q < n)
    (x : DenseMatrix R) :
    (state * x).applyGate gate targets n = state.applyGate gate targets n * x := by
  refine ext_entry rfl rfl fun i j hi hj => ?_
  have hi : i < state.rows := hi
  have hj : j < x.cols := hj
  rw [entry_applyGate (state * x) hi hj,
    entry_mul (state.applyGate gate targets n) x hi hj, cols_applyGate]
  calc ∑ k ∈ range gate.cols, gate.entry (readTargets n targets i) k *
        (state * x).entry (writeTargets n targets k i) j
      = ∑ k ∈ range gate.cols, ∑ l ∈ range state.cols, gate.entry (readTargets n targets i) k *
          state.entry (writeTargets n targets k i) l * x.entry l j := by
        refine sum_congr rfl fun k _ => ?_
        have hrow : writeTargets n targets k i < state.rows :=
          hstate ▸ writeTargets_lt htargets (hstate ▸ hi)
        simp only [entry_mul state x hrow hj, mul_sum, mul_assoc]
    _ = ∑ l ∈ range state.cols, (state.applyGate gate targets n).entry i l * x.entry l j := by
        rw [sum_comm]
        refine sum_congr rfl fun l hl => ?_
        rw [entry_applyGate state hi (mem_range.1 hl), sum_mul]

theorem applyGate_identity :
    state.applyGate (identity (dimension targets.length)) targets n = state := by
  refine ext_entry rfl rfl fun i j hi hj => ?_
  have hi : i < state.rows := hi
  have hj : j < state.cols := hj
  rw [entry_applyGate state hi hj, cols_identity,
    sum_identity_mul (fun k => state.entry (writeTargets n targets k i) j) readTargets_lt,
    writeTargets_readTargets]

section Targets

variable (h : TargetsBelow n targets)

include h

/-- Two gates on the same targets are the gate of their product. -/
theorem applyGate_applyGate (hstate : state.rows = dimension n) (hsecond : second.IsSquare)
    (hcols : second.cols = dimension targets.length) :
    (state.applyGate first targets n).applyGate second targets n =
      state.applyGate (second * first) targets n := by
  refine ext_entry rfl rfl fun i j hi hj => ?_
  have hi : i < state.rows := hi
  have hj : j < state.cols := hj
  have hread : readTargets n targets i < second.rows := hsecond ▸ hcols ▸ readTargets_lt
  rw [entry_applyGate (state.applyGate first targets n) hi hj,
    entry_applyGate state hi hj, cols_mul]
  calc ∑ k ∈ range second.cols, second.entry (readTargets n targets i) k *
        (state.applyGate first targets n).entry (writeTargets n targets k i) j
      = ∑ k ∈ range second.cols, ∑ l ∈ range first.cols,
          second.entry (readTargets n targets i) k * first.entry k l *
            state.entry (writeTargets n targets l i) j := by
        refine sum_congr rfl fun k hk => ?_
        have hk : k < dimension targets.length := hcols ▸ mem_range.1 hk
        have hrow : writeTargets n targets k i < state.rows :=
          hstate ▸ writeTargets_lt h.lt (hstate ▸ hi)
        rw [entry_applyGate state hrow hj, readTargets_writeTargets h, Nat.mod_eq_of_lt hk, mul_sum]
        simp only [writeTargets_writeTargets h, mul_assoc]
    _ = ∑ l ∈ range first.cols, (second * first).entry (readTargets n targets i) l *
          state.entry (writeTargets n targets l i) j := by
        rw [sum_comm]
        refine sum_congr rfl fun l hl => ?_
        rw [entry_mul second first hread (mem_range.1 hl), sum_mul]

/-- The matrix of a gate on its targets has the entries of the gate where row and column agree
outside of the targets. -/
theorem entry_identity_applyGate (gate : DenseMatrix R)
    (hcols : gate.cols = dimension targets.length) (hrow : row < dimension n)
    (hcol : col < dimension n) :
    ((identity (dimension n)).applyGate gate targets n).entry row col =
      if writeTargets n targets (readTargets n targets row) col = row then
        gate.entry (readTargets n targets row) (readTargets n targets col)
      else 0 := by
  have hone : ∀ k ∈ range gate.cols, (identity (dimension n) : DenseMatrix R).entry
      (writeTargets n targets k row) col =
        if k = readTargets n targets col ∧
          writeTargets n targets (readTargets n targets row) col = row then 1 else 0 := by
    intro k hk
    have hk : k < dimension targets.length := hcols ▸ mem_range.1 hk
    rw [entry_identity (writeTargets_lt h.lt hrow) hcol]
    simp only [writeTargets_eq_iff h hk]
  have hread : readTargets n targets col ∈ range gate.cols :=
    mem_range.2 (hcols ▸ readTargets_lt)
  rw [entry_applyGate _ hrow hcol, sum_congr rfl fun k hk => by rw [hone k hk]]
  by_cases hsame : writeTargets n targets (readTargets n targets row) col = row
  · simp [hsame, hcols, readTargets_lt]
  · simp [hsame]

theorem adjoint_identity_applyGate [StarRing R] (hsquare : gate.IsSquare)
    (hcols : gate.cols = dimension targets.length) :
    ((identity (dimension n)).applyGate gate targets n).adjoint =
      (identity (dimension n)).applyGate gate.adjoint targets n := by
  have hrows : gate.rows = dimension targets.length := hsquare.trans hcols
  refine ext_entry rfl rfl fun i j hi hj => ?_
  have hi : i < dimension n := hi
  have hj : j < dimension n := hj
  have hread : ∀ k, readTargets n targets k < gate.cols := fun k => hcols ▸ readTargets_lt
  have hread' : ∀ k, readTargets n targets k < gate.rows := fun k => hrows ▸ readTargets_lt
  have hsym : writeTargets n targets (readTargets n targets j) i = j ↔
      writeTargets n targets (readTargets n targets i) j = i := by
    rw [writeTargets_eq_iff h readTargets_lt]
    exact ⟨And.right, fun hback => ⟨rfl, hback⟩⟩
  rw [entry_adjoint (m := (identity (dimension n)).applyGate gate targets n) hi hj,
    entry_identity_applyGate h gate hcols hj hi,
    entry_identity_applyGate h gate.adjoint hrows hi hj,
    entry_adjoint (hread i) (hread' j), apply_ite star, star_zero]
  simp only [hsym]

end Targets

/-- In place a gate does the same. -/
theorem applyInPlace_eq_applyGate (h : TargetsBelow n targets)
    (hstate : state.rows = dimension n) (hgate : gate.IsSquare)
    (hcols : gate.cols = dimension targets.length) :
    state.applyInPlace gate targets n = state.applyGate gate targets n := by
  obtain ⟨hrows, hwidth⟩ := shape_applyInPlace gate state targets n
  refine ext_entry hrows hwidth fun i j hi hj => ?_
  rw [hrows] at hi
  rw [hwidth] at hj
  rw [entry_applyInPlace h (hgate.trans hcols) hstate hi hj, applyGate, entry_ofFn _ hi hj,
    show gate.rows = gate.cols from hgate]

section Columns

theorem entry_eq_zero_of_le (state : DenseMatrix R) (hrow : state.rows ≤ row) (col : Nat) :
    state.entry row col = 0 := by
  unfold entry
  split
  · rename_i hcol
    have hsize : state.entries.size ≤ row * state.cols + col := by
      rw [state.size_entries]
      exact Nat.le_add_right_of_le (Nat.mul_le_mul_right state.cols hrow)
    simp [Array.getD, Nat.not_lt.2 hsize]
  · rfl

/-- Rows past the end are zero in a product as well. -/
theorem entry_mul_of_lt (state x : DenseMatrix R) (row : Nat) (hcol : col < x.cols) :
    (state * x).entry row col = ∑ l ∈ range state.cols, state.entry row l * x.entry l col := by
  by_cases hrow : row < state.rows
  · exact entry_mul state x hrow hcol
  · have hrow : state.rows ≤ row := Nat.le_of_not_lt hrow
    rw [entry_eq_zero_of_le (state * x) hrow]
    simp [entry_eq_zero_of_le state hrow]

theorem mixedValue_mul (rows : List Nat) (x : DenseMatrix R) (i : Nat) (hcol : col < x.cols) :
    mixedValue gate rows (state * x) col i =
      ∑ l ∈ range state.cols, mixedValue gate rows state l i * x.entry l col := by
  have hbuffer : ∀ (m : DenseMatrix R) (c j : Nat),
      (rows.map fun row => m.entry row c).toArray.getD j 0 =
        (rows[j]?).elim 0 fun row => m.entry row c := by
    intro m c j
    rw [Array.getD_eq_getD_getElem?, List.getElem?_toArray, List.getElem?_map]
    cases rows[j]? <;> rfl
  simp only [mixedValue, sumBelow_eq_sum, hbuffer, sum_mul]
  rw [sum_comm]
  refine sum_congr rfl fun j _ => ?_
  cases rows[j]? with
  | none => simp
  | some row => simp only [Option.elim_some, entry_mul_of_lt state x row hcol, mul_sum, mul_assoc]

/-- Columns are mixed alike, so mixing them goes past a factor from the right. -/
theorem mixRows_mul (rows : List Nat) (x : DenseMatrix R) :
    mixRows gate (state * x) rows = mixRows gate state rows * x := by
  obtain ⟨hrows, hwidth⟩ := shape_mixRows gate (state * x) rows
  obtain ⟨hrows', hwidth'⟩ := shape_mixRows gate state rows
  refine ext_entry (hrows.trans hrows'.symm) hwidth fun i j hi hj => ?_
  have hi : i < state.rows := hrows ▸ hi
  have hj : j < x.cols := hwidth ▸ hj
  have hentry : (mixRows gate (state * x) rows).entry i j =
      mixedEntry gate rows (state * x) i j := entry_mixRows hi hj
  rw [hentry, entry_mul_of_lt (mixRows gate state rows) x i hj, hwidth', mixedEntry]
  have hmixed : ∀ l ∈ range state.cols, (mixRows gate state rows).entry i l * x.entry l j =
      (lastPlace i rows.zipIdx).elim (state.entry i l) (mixedValue gate rows state l) *
        x.entry l j := fun l hl => by
    rw [entry_mixRows hi (mem_range.1 hl), mixedEntry]
  rw [sum_congr rfl hmixed]
  cases lastPlace i rows.zipIdx with
  | none => exact entry_mul_of_lt state x i hj
  | some place => exact mixedValue_mul rows x place hj

/-- A gate changes the left factor of a product, whatever its targets are. -/
theorem applyInPlace_mul (targets : List Nat) (n : Nat) (x : DenseMatrix R) :
    (state * x).applyInPlace gate targets n = state.applyInPlace gate targets n * x := by
  have hblocks : ∀ blocks : List (List Nat),
      blocks.foldl (mixRows gate) (state * x) = blocks.foldl (mixRows gate) state * x := by
    intro blocks
    induction blocks generalizing state with
    | nil => rfl
    | cons rows blocks ih => rw [List.foldl_cons, List.foldl_cons, mixRows_mul, ih]
  exact hblocks _

end Columns

/-- Gates on the same targets multiply like their matrices. -/
theorem identity_applyGate_mul (h : TargetsBelow n targets) (hsecond : second.IsSquare)
    (hcols : second.cols = dimension targets.length) :
    (identity (dimension n)).applyGate second targets n *
        (identity (dimension n)).applyGate first targets n =
      (identity (dimension n)).applyGate (second * first) targets n := by
  have hidentity : identity (dimension n) * (identity (dimension n)).applyGate first targets n =
      (identity (dimension n)).applyGate first targets n :=
    identity_mul ((identity (dimension n)).applyGate first targets n)
  rw [← applyGate_mul rfl h.lt, hidentity, applyGate_applyGate h rfl hsecond hcols]

theorem IsUnitary.applyGate [StarRing R] (hgate : gate.IsUnitary)
    (h : TargetsBelow n targets) (hcols : gate.cols = dimension targets.length) :
    ((identity (dimension n)).applyGate gate targets n).IsUnitary := by
  have hrows : gate.rows = dimension targets.length := hgate.square.trans hcols
  refine ⟨rfl, ?_, ?_⟩
  · rw [adjoint_identity_applyGate h hgate.square hcols,
      identity_applyGate_mul h hgate.square.adjoint hrows, hgate.adjoint_mul_self, hrows,
      applyGate_identity]
    rfl
  · rw [adjoint_identity_applyGate h hgate.square hcols,
      identity_applyGate_mul h hgate.square hcols, hgate.mul_adjoint_self, hrows,
      applyGate_identity]
    rfl

end DenseMatrix

/-- A barrier, or a gate on qubits of the register that has a matrix. -/
def Instruction.HasMatrix {R : Type} [CommRing R] [StarRing R] (leaves : LeafMatrices R) (n : Nat)
    (inst : Instruction) : Prop :=
  inst.isBarrier = true ∨
    inst.isUnitary = true ∧ (∃ m, inst.operation.matrixOver leaves = .ok m) ∧
      ∀ q ∈ inst.qubits, q < n

namespace Circuit

variable {R : Type} [CommRing R] [StarRing R] {leaves : LeafMatrices R} {n : Nat}
  {state next : DenseMatrix R}

section Steps

theorem rows_applyInstruction {α : Type} [Zero α] [One α] [Add α] [Mul α] [Conj α]
    {leaves : LeafMatrices α} {state next : DenseMatrix α} {inst : Instruction}
    (h : applyInstruction leaves n state inst = .ok next) : next.rows = state.rows := by
  unfold applyInstruction at h
  split at h
  · exact congrArg DenseMatrix.rows (Except.ok.inj h).symm
  · split at h
    · cases h
    · obtain ⟨m, -, hm⟩ := bind_eq_ok_iff.1 h
      obtain rfl := Except.ok.inj hm
      exact (DenseMatrix.shape_applyInPlace m state inst.qubits n).1

/-- An instruction changes the left factor of a product. -/
theorem applyInstruction_mul (x : DenseMatrix R) (inst : Instruction) :
    applyInstruction leaves n (state * x) inst =
      (· * x) <$> applyInstruction leaves n state inst := by
  unfold applyInstruction
  split
  · rfl
  · cases inst.qubits.find? (n ≤ ·) with
    | some q => rfl
    | none =>
        cases inst.operation.matrixOver leaves with
        | error e => rfl
        | ok m => exact congrArg Except.ok (DenseMatrix.applyInPlace_mul inst.qubits n x)

theorem foldlM_applyInstruction_mul (x : DenseMatrix R) (insts : List Instruction) :
    insts.foldlM (applyInstruction leaves n) (state * x) =
      (· * x) <$> insts.foldlM (applyInstruction leaves n) state := by
  induction insts generalizing state with
  | nil => rfl
  | cons inst insts ih =>
      rw [List.foldlM_cons, List.foldlM_cons, applyInstruction_mul]
      cases applyInstruction leaves n state inst with
      | error e => rfl
      | ok next => exact ih

theorem foldlM_applyInstruction_append (front back : List Instruction) :
    (front ++ back).foldlM (applyInstruction leaves n) (.identity (dimension n)) = (do
      let first ← front.foldlM (applyInstruction leaves n) (.identity (dimension n))
      let second ← back.foldlM (applyInstruction leaves n) (.identity (dimension n))
      return second * first) := by
  rw [List.foldlM_append]
  cases hfront : front.foldlM (applyInstruction leaves n) (.identity (dimension n)) with
  | error e => rfl
  | ok first =>
      have hrows : first.rows = dimension n :=
        foldlM_keeps (P := fun state => state.rows = dimension n)
          (fun _ _ _ hstate hnext => (rows_applyInstruction hnext).trans hstate) rfl hfront
      have hfirst := DenseMatrix.identity_mul first
      rw [hrows] at hfirst
      change back.foldlM (applyInstruction leaves n) first = _
      rw [← hfirst, foldlM_applyInstruction_mul, hfirst]
      cases back.foldlM (applyInstruction leaves n) (.identity (dimension n)) <;> rfl

end Steps

/-- The first instructions have a unitary, and the others have its adjoint. -/
structure UndoneBy (leaves : LeafMatrices R) (n : Nat) (insts back : List Instruction)
    (u : DenseMatrix R) : Prop where
  square : u.IsSquare
  rows : u.rows = dimension n
  runs : insts.foldlM (applyInstruction leaves n) (.identity (dimension n)) = .ok u
  undoes : back.foldlM (applyInstruction leaves n) (.identity (dimension n)) = .ok u.adjoint
  isUnitary : leaves.Unitary → u.IsUnitary

namespace UndoneBy

theorem nil : UndoneBy leaves n [] [] (.identity (dimension n)) where
  square := rfl
  rows := rfl
  runs := rfl
  undoes := congrArg Except.ok (DenseMatrix.adjoint_identity _).symm
  isUnitary _ := DenseMatrix.isUnitary_identity _

/-- What comes last is undone first. -/
theorem append {front front' back back' : List Instruction} {u v : DenseMatrix R}
    (hu : UndoneBy leaves n front front' u) (hv : UndoneBy leaves n back back' v) :
    UndoneBy leaves n (front ++ back) (back' ++ front') (v * u) := by
  have hsides : v.cols = u.rows := hv.square.symm.trans (hv.rows.trans hu.rows.symm)
  refine ⟨hv.square.trans (hsides.trans hu.square), hv.rows, ?_, ?_, fun hleaves => ?_⟩
  · rw [foldlM_applyInstruction_append, hu.runs, hv.runs]
    rfl
  · rw [foldlM_applyInstruction_append, hv.undoes, hu.undoes, DenseMatrix.adjoint_mul hsides]
    rfl
  · exact (hv.isUnitary hleaves).mul (hu.isUnitary hleaves) hsides

end UndoneBy

section Inverse

theorem foldlM_barrier {inst : Instruction} (h : inst.isBarrier = true) :
    [inst].foldlM (applyInstruction leaves n) state = .ok state := by
  rw [List.foldlM_cons, applyInstruction, if_pos h]
  rfl

theorem foldlM_gate (inst : Instruction) (hbarrier : inst.isBarrier = false)
    (htargets : TargetsBelow n inst.qubits) {m : DenseMatrix R}
    (hm : inst.operation.matrixOver leaves = .ok m) (hstate : state.rows = dimension n)
    (hsquare : m.IsSquare) (hcols : m.cols = dimension inst.qubits.length) :
    [inst].foldlM (applyInstruction leaves n) state =
      .ok (state.applyGate m inst.qubits n) := by
  have hfind : inst.qubits.find? (n ≤ ·) = none := by simpa using htargets.lt
  rw [← DenseMatrix.applyInPlace_eq_applyGate htargets hstate hsquare hcols]
  simp only [List.foldlM_cons, applyInstruction, hbarrier, hfind, hm]
  rfl

theorem exists_undoneBy_singleton (hsized : leaves.Sized) {inst : Instruction}
    (hvalid : inst.Valid) (h : inst.HasMatrix leaves n) :
    ∃ u, UndoneBy leaves n [inst] [inst.reversed] u := by
  rcases h with hbarrier | ⟨hunitary, ⟨m, hm⟩, hbelow⟩
  · have hreversed : inst.reversed = inst :=
      congrArg (fun op => { inst with operation := op }) (if_pos hbarrier)
    refine ⟨.identity (dimension n), rfl, rfl, foldlM_barrier hbarrier, ?_,
      fun _ => DenseMatrix.isUnitary_identity _⟩
    rw [hreversed, DenseMatrix.adjoint_identity]
    exact foldlM_barrier hbarrier
  · have hunitary : inst.operation.isUnitary = true := hunitary
    have hsquare := Operation.isSquare_of_matrixOver hsized.toSquare hunitary hm
    have htargets : TargetsBelow n inst.qubits := ⟨hvalid.qubits_nodup, hbelow⟩
    have hrows : m.rows = dimension inst.qubits.length := by
      rw [hvalid.qubits_length]
      exact Operation.rows_matrixOver hsized hunitary hm
    have hcols := hsquare.symm.trans hrows
    have hreversed : inst.reversed = { inst with operation := inst.operation.invert } :=
      congrArg (fun op => { inst with operation := op }) (Operation.reversed_of_isUnitary hunitary)
    have hinverse : inst.operation.invert.isUnitary = true := by simpa using hunitary
    have hadjoint : inst.operation.invert.matrixOver leaves = .ok m.adjoint := by
      rw [Operation.matrixOver_invert _ hsized.toSquare hunitary, hm]
      rfl
    refine ⟨(DenseMatrix.identity (dimension n)).applyGate m inst.qubits n, rfl, rfl,
      foldlM_gate inst (Operation.isBarrier_of_isUnitary hunitary) htargets hm rfl hsquare hcols,
      ?_, fun hleaves => ?_⟩
    · rw [DenseMatrix.adjoint_identity_applyGate htargets hsquare hcols, hreversed]
      exact foldlM_gate { inst with operation := inst.operation.invert }
        (Operation.isBarrier_of_isUnitary hinverse) htargets hadjoint rfl hsquare.adjoint hrows
    · exact (Operation.isUnitary_matrixOver hleaves hunitary hm).applyGate htargets hcols

theorem exists_undoneBy (hsized : leaves.Sized) {insts : List Instruction}
    (h : ∀ inst ∈ insts, inst.Valid ∧ inst.HasMatrix leaves n) :
    ∃ u, UndoneBy leaves n insts (insts.reverse.map Instruction.reversed) u := by
  induction insts with
  | nil => exact ⟨_, .nil⟩
  | cons inst insts ih =>
      obtain ⟨hinst, hinsts⟩ := List.forall_mem_cons.1 h
      obtain ⟨u, hu⟩ := exists_undoneBy_singleton hsized hinst.1 hinst.2
      obtain ⟨v, hv⟩ := ih hinsts
      rw [List.reverse_cons, List.map_append]
      exact ⟨v * u, hu.append hv⟩

theorem inverse_eq_ok_of_hasMatrix {c : Circuit}
    (h : ∀ inst ∈ c.instructions, inst.HasMatrix leaves n) :
    c.inverse = .ok ⟨c.name, c.instructions.reverse.map Instruction.reversed⟩ := by
  refine inverse_eq_ok fun inst hinst => ?_
  rcases h inst hinst with hbarrier | ⟨hunitary, -⟩
  · exact Operation.inverse_eq_ok_iff.2 (Or.inl ⟨hbarrier, if_pos hbarrier⟩)
  · exact (Operation.inverse_eq_ok hunitary).trans
      (congrArg Except.ok (Operation.reversed_of_isUnitary hunitary).symm)

end Inverse

end Circuit

/-- The unitary of one circuit after another is the product of theirs, and it fails as the
first of the two that fails.  If every instruction is a barrier or a gate inside the register
that has a matrix, the inverse circuit has the adjoint of the unitary, and with unitary
matrices of leaves a circuit after its inverse, or before it, does nothing. -/
theorem unitary_is_homomorphism {R : Type} [CommRing R] [StarRing R] (leaves : LeafMatrices R)
    (n : Nat) :
    (∀ a b : Circuit, (a.append b).unitaryOver leaves n = do
      let first ← a.unitaryOver leaves n
      let second ← b.unitaryOver leaves n
      return second * first) ∧
    (leaves.Sized → ∀ a : Circuit,
      (∀ inst ∈ a.instructions, inst.Valid ∧ inst.HasMatrix leaves n) →
      ∃ u back, a.unitaryOver leaves n = .ok u ∧ a.inverse = .ok back ∧
        back.unitaryOver leaves n = .ok u.adjoint ∧
        (leaves.Unitary →
          (a.append back).unitaryOver leaves n = .ok (.identity (dimension n)) ∧
          (back.append a).unitaryOver leaves n = .ok (.identity (dimension n)))) := by
  have happend : ∀ a b : Circuit, (a.append b).unitaryOver leaves n = do
      let first ← a.unitaryOver leaves n
      let second ← b.unitaryOver leaves n
      return second * first := fun a b =>
    Circuit.foldlM_applyInstruction_append a.instructions b.instructions
  refine ⟨happend, fun hsized a ha => ?_⟩
  obtain ⟨u, hu⟩ := Circuit.exists_undoneBy hsized ha
  have hruns : a.unitaryOver leaves n = .ok u := hu.runs
  let back : Circuit := ⟨a.name, a.instructions.reverse.map Instruction.reversed⟩
  have hundoes : back.unitaryOver leaves n = .ok u.adjoint := hu.undoes
  refine ⟨u, back, hruns, Circuit.inverse_eq_ok_of_hasMatrix fun inst hinst => (ha inst hinst).2,
    hundoes, fun hleaves => ⟨?_, ?_⟩⟩
  · rw [happend, hruns, hundoes, ← hu.rows, ← (hu.isUnitary hleaves).adjoint_mul_self]
    rfl
  · rw [happend, hruns, hundoes, ← hu.rows, ← (hu.isUnitary hleaves).mul_adjoint_self]
    rfl

/-- Phases under two controls, copies of an inverse square, and a barrier between them. -/
def phasesAndFlips : Circuit :=
  ⟨"phases", [
    ⟨.controlled 2 (.gate .s), [2, 0, 1], [], []⟩,
    ⟨.barrier 2, [0, 1], [], []⟩,
    ⟨.repeated 2 (.inverted (.powered (.rational 3) (.gate .y))), [1, 2], [], []⟩]⟩

theorem unitary_is_homomorphism_phasesAndFlips :
    ∃ u back, phasesAndFlips.unitaryOver .gaussian 3 = .ok u ∧
      phasesAndFlips.inverse = .ok back ∧ back.unitaryOver .gaussian 3 = .ok u.adjoint ∧
      (phasesAndFlips.append back).unitaryOver .gaussian 3 = .ok (.identity 8) := by
  obtain ⟨u, back, hruns, hback, hundoes, hidentity⟩ :=
    (unitary_is_homomorphism .gaussian 3).2 LeafMatrices.sized_gaussian phasesAndFlips (by
      intro inst hinst
      simp only [phasesAndFlips, List.mem_cons, List.not_mem_nil, or_false] at hinst
      rcases hinst with rfl | rfl | rfl
      · exact ⟨Instruction.valid_of_isUnitary rfl rfl (by decide),
          Or.inr ⟨rfl, ⟨_, rfl⟩, by decide⟩⟩
      · exact ⟨⟨fun _ => nofun, rfl, rfl, rfl, by decide, List.nodup_nil, List.nodup_nil⟩,
          Or.inl rfl⟩
      · exact ⟨Instruction.valid_of_isUnitary rfl rfl (by decide),
          Or.inr ⟨rfl, ⟨_, rfl⟩, by decide⟩⟩)
  exact ⟨u, back, hruns, hback, hundoes, (hidentity LeafMatrices.unitary_gaussian).1⟩

end GateAlgebra
