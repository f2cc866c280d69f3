import GateAlgebra.Proofs.CircuitMatrix
import GateAlgebra.Proofs.StoredMatrix
/-!
The unitary of a circuit with every access to a matrix checked.  The checked computation gives
nothing as soon as it reads or writes a position outside of a matrix or of the buffer, or comes
to a matrix that cannot be stored.  On circuits that the library gives and registers that are not
too large it never does, and is the unchecked computation.
-/

namespace GateAlgebra

/-! ### Checked computations -/

section Option

variable {α β : Type}

/-- A fold whose steps all succeed, as long as the steps keep what they rely on. -/
theorem foldlM_eq_some {P : β → Prop} {f? : β → α → Option β} {f : β → α → β} {items : List α}
    (hstep : ∀ item ∈ items, ∀ b, P b → f? b item = some (f b item) ∧ P (f b item)) {start : β}
    (hstart : P start) :
    items.foldlM f? start = some (items.foldl f start) ∧ P (items.foldl f start) := by
  induction items generalizing start with
  | nil => exact ⟨rfl, hstart⟩
  | cons item items ih =>
      obtain ⟨hitem, hitems⟩ := List.forall_mem_cons.1 hstep
      obtain ⟨hsome, hkept⟩ := hitem start hstart
      rw [List.foldlM_cons, hsome]
      exact ih hitems hkept

theorem mapM_eq_some {f? : α → Option β} {f : α → β} {items : List α}
    (h : ∀ item ∈ items, f? item = some (f item)) : items.mapM f? = some (items.map f) := by
  induction items with
  | nil => rfl
  | cons item items ih =>
      obtain ⟨hitem, hitems⟩ := List.forall_mem_cons.1 h
      rw [List.mapM_cons, hitem, ih hitems]
      rfl

/-- The sum of terms that all have to be there. -/
def sumBelow? [Zero α] [Add α] (f? : Nat → Option α) : Nat → Option α
  | 0 => some 0
  | n + 1 => do return (← sumBelow? f? n) + (← f? n)

theorem sumBelow?_eq_some [Zero α] [Add α] {f? : Nat → Option α} {f : Nat → α} {n : Nat}
    (h : ∀ k < n, f? k = some (f k)) : sumBelow? f? n = some (sumBelow f n) := by
  induction n with
  | zero => rfl
  | succ n ih =>
      rw [sumBelow?, ih fun k hk => h k (Nat.lt_succ_of_lt hk), h n (Nat.lt_succ_self n)]
      rfl

end Option

namespace DenseMatrix

variable {α : Type} [Zero α] [Add α] [Mul α]

/-- The entry at a position of the matrix. -/
def entry? (m : DenseMatrix α) (i j : Nat) : Option α :=
  if i < m.rows ∧ j < m.cols then some (m.entry i j) else none

/-- The matrix with the entry at one of its positions replaced. -/
def set? (m : DenseMatrix α) (i j : Nat) (value : α) : Option (DenseMatrix α) :=
  if i < m.rows ∧ j < m.cols then some (m.set i j value) else none

/-- `mixColumn` with checked accesses to the state, to the gate and to the buffer. -/
def mixColumn? (gate : DenseMatrix α) (rows : List Nat) (state : DenseMatrix α) (col : Nat) :
    Option (DenseMatrix α) := do
  let buffer ← rows.mapM fun row => state.entry? row col
  rows.zipIdx.foldlM (fun state place => do
    let value ← sumBelow?
      (fun j => do return (← gate.entry? place.2 j) * (← buffer[j]?)) gate.rows
    state.set? place.1 col value) state

def mixRows? (gate : DenseMatrix α) (state : DenseMatrix α) (rows : List Nat) :
    Option (DenseMatrix α) :=
  (List.range state.cols).foldlM (mixColumn? gate rows) state

/-- `applyInPlace` with checked accesses. -/
def applyInPlace? (state gate : DenseMatrix α) (targets : List Nat) (n : Nat) :
    Option (DenseMatrix α) :=
  let masks := targets.map (qubitMask n)
  let bases := baseRows state.rows (masks.foldr (· + ·) 0)
  (bases.map (mixedRows masks gate.rows)).foldlM (mixRows? gate) state

variable {gate state : DenseMatrix α} {rows : List Nat} {n : Nat} {targets : List Nat}

section Columns

variable (hgate : gate.IsSquare) (hlength : rows.length = gate.rows)
  (hrows : ∀ row ∈ rows, row < state.rows)

include hgate hlength hrows

/-- A gate mixes as many rows as it has, so every place in them is a row of the gate and
every column of the gate has its entry in the buffer. -/
theorem mixColumn?_eq_some {col : Nat} (hcol : col < state.cols) :
    mixColumn? gate rows state col = some (mixColumn gate rows state col) := by
  have hbuffer : rows.mapM (fun row => state.entry? row col) =
      some (rows.map fun row => state.entry row col) :=
    mapM_eq_some fun row hrow => if_pos ⟨hrows row hrow, hcol⟩
  have hvalue : ∀ i < gate.rows,
      sumBelow? (fun j => do
          return (← gate.entry? i j) * (← (rows.map fun row => state.entry row col)[j]?))
          gate.rows =
        some (mixedValue gate rows state col i) := by
    refine fun i hi => sumBelow?_eq_some fun j hj => ?_
    have hread : gate.entry? i j = some (gate.entry i j) := if_pos ⟨hi, hgate ▸ hj⟩
    have hj : j < rows.length := hlength ▸ hj
    simp [hread, hj]
  rw [mixColumn?, hbuffer]
  -- The writes go to the state, so the fold has to know that it keeps its shape.
  refine (foldlM_eq_some
    (P := fun next : DenseMatrix α => next.rows = state.rows ∧ next.cols = state.cols)
    (f := fun next (place : Nat × Nat) =>
      next.set place.1 col (mixedValue gate rows state col place.2))
    (fun place hplace next hnext => ?_) ⟨rfl, rfl⟩).1
  obtain ⟨-, hindex, hrow⟩ := List.mem_zipIdx hplace
  have hmem : place.1 ∈ rows := hrow ▸ List.getElem_mem _
  have hindex : place.2 < gate.rows := by omega
  have hset : ∀ value, next.set? place.1 col value = some (next.set place.1 col value) :=
    fun value => if_pos ⟨hnext.1 ▸ hrows _ hmem, hnext.2 ▸ hcol⟩
  refine ⟨?_, hnext⟩
  rw [hvalue _ hindex]
  exact hset _

theorem mixRows?_eq_some : mixRows? gate state rows = some (mixRows gate state rows) := by
  refine (foldlM_eq_some (P := fun next => next.rows = state.rows ∧ next.cols = state.cols)
    (fun col hcol next hnext => ?_) ⟨rfl, rfl⟩).1
  obtain ⟨hnextrows, hnextcols⟩ := hnext
  obtain ⟨hshaperows, hshapecols⟩ := shape_mixColumn gate rows next col
  have hin : ∀ row ∈ rows, row < next.rows := fun row hrow => hnextrows ▸ hrows row hrow
  have hcol : col < next.cols := hnextcols ▸ List.mem_range.1 hcol
  exact ⟨mixColumn?_eq_some hgate hlength hin hcol,
    hshaperows.trans hnextrows, hshapecols.trans hnextcols⟩

end Columns

/-- A square gate on qubits of the register stays in range. -/
theorem applyInPlace?_eq_some (h : TargetsBelow n targets) (hstate : state.rows = dimension n)
    (hgate : gate.IsSquare) :
    state.applyInPlace? gate targets n = some (state.applyInPlace gate targets n) := by
  refine (foldlM_eq_some (P := fun next : DenseMatrix α => next.rows = dimension n)
    (fun rows hblock next hnext => ?_) hstate).1
  obtain ⟨base, hbase, rfl⟩ := List.mem_map.1 hblock
  obtain ⟨hlt, hread⟩ := (mem_baseRows h).1 hbase
  have hlength : (mixedRows (targets.map (qubitMask n)) gate.rows base).length = gate.rows := by
    rw [mixedRows, List.length_map, List.length_range]
  have hin : ∀ row ∈ mixedRows (targets.map (qubitMask n)) gate.rows base, row < next.rows := by
    intro row hrow
    rw [mixedRows_eq h _ hread] at hrow
    obtain ⟨value, -, rfl⟩ := List.mem_map.1 hrow
    rw [hnext]
    exact writeTargets_lt h.lt (hstate ▸ hlt)
  exact ⟨mixRows?_eq_some hgate hlength hin, (shape_mixRows gate next _).1.trans hnext⟩

end DenseMatrix

/-! ### Circuits -/

namespace Circuit

/-- `applyInstruction` with checked accesses: nothing where one is out of range, and the
failures of the unchecked one otherwise. -/
def applyInstruction? (counting : Counting) (n : Nat) (state : FloatMatrix) (inst : Instruction) :
    Answer FloatMatrix :=
  if inst.isBarrier then return state
  else
    match inst.qubits.find? (n ≤ ·) with
    | some q => throw (.invalidTarget (q + 1) .outsideRegister inst.operation.name)
    | none => do
        let gate ← inst.operation.matrixIn counting .double
        state.applyInPlace? gate inst.qubits n

/-- The unitary of a circuit with checked accesses. -/
def unitary? (counting : Counting) (c : Circuit) (n : Nat) : Answer FloatMatrix := do
  let dim ← counting.shiftLeft 1 n
  if counting.holds (dim * dim) then
    c.instructions.foldlM (applyInstruction? counting n) (.identity dim)
  else ExceptT.lift none

variable {counting : Counting} {n : Nat} {state : FloatMatrix}

/-- A register has room for the qubits of an operation. -/
theorem numQubits_le {inst : Instruction} (hinst : inst.Valid)
    (hbelow : ∀ q ∈ inst.qubits, q < n) : inst.operation.numQubits ≤ n := by
  have hsubset : inst.qubits ⊆ List.range n := fun q hq => List.mem_range.2 (hbelow q hq)
  have hle := (hinst.qubits_nodup.subperm hsubset).length_le
  rwa [List.length_range, hinst.qubits_length] at hle

theorem applyInstruction?_eq {inst : Instruction} (hinst : inst.ValidWith Operation.Checked)
    (hstored : counting.Stores n) (hstate : state.rows = dimension n) :
    applyInstruction? counting n state inst =
      liftM (applyInstruction .double n state inst) := by
  unfold applyInstruction? applyInstruction
  split
  · rfl
  · cases hfind : inst.qubits.find? (n ≤ ·) with
    | some q => rfl
    | none =>
        have hbelow : ∀ q ∈ inst.qubits, q < n := by simpa using hfind
        have hmatrix := Operation.matrixIn_double hinst.operation
          (hstored.mono (numQubits_le hinst.valid hbelow))
        dsimp only
        rw [hmatrix]
        cases hm : inst.operation.matrix with
        | error e =>
            have hm' : inst.operation.matrixOver .double = .error e := hm
            rw [hm']
            rfl
        | ok m =>
            have hm' : inst.operation.matrixOver .double = .ok m := hm
            obtain ⟨hrows, hcols⟩ := Operation.sides_matrix hinst.operation hm
            have hsome := DenseMatrix.applyInPlace?_eq_some
              ⟨hinst.valid.qubits_nodup, hbelow⟩ hstate (hrows.trans hcols.symm)
            rw [hm']
            change ExceptT.lift (state.applyInPlace? m inst.qubits n) = _
            rw [hsome]
            rfl

theorem foldlM_applyInstruction? {insts : List Instruction}
    (hinsts : ∀ inst ∈ insts, inst.ValidWith Operation.Checked) (hstored : counting.Stores n)
    (hstate : state.rows = dimension n) :
    insts.foldlM (applyInstruction? counting n) state =
      liftM (insts.foldlM (applyInstruction .double n) state) := by
  induction insts generalizing state with
  | nil => rfl
  | cons inst insts ih =>
      obtain ⟨hinst, hinsts⟩ := List.forall_mem_cons.1 hinsts
      rw [List.foldlM_cons, List.foldlM_cons, applyInstruction?_eq hinst hstored hstate]
      cases hnext : applyInstruction .double n state inst with
      | error e => rfl
      | ok next =>
          exact ih hinsts ((rows_applyInstruction hnext).trans hstate)

theorem unitary?_eq {c : Circuit} (hc : c.AllWith Operation.Checked) (hstored : counting.Stores n) :
    c.unitary? counting n = liftM (c.unitary n) := by
  have hside : counting.shiftLeft 1 n = some (dimension n) :=
    Counting.shiftLeft_eq_some (k := 0) hstored
  have hidentity : c.unitary? counting n =
      c.instructions.foldlM (applyInstruction? counting n) (.identity (dimension n)) := by
    rw [unitary?, hside]
    exact if_pos (Counting.holds_iff.2 hstored)
  exact hidentity.trans (foldlM_applyInstruction? hc hstored rfl)

end Circuit

/-- A library operation has a matrix exactly if it is a pure operator, or a gate whose innermost
gate is a custom one or has real numbers for parameters, and if the matrix can be stored, provided
that the decompositions behind its powers converge.  If nothing can be stored, the program stops.
Only where counts and the shift for a control block may lose bits, it is up to the counts in it to
be kept and to the matrix not to be too large.  Failures come of an expression that is left in the
innermost gate, or of something that is not unitary.  The matrix has a row and a column for every
state of the qubits, so the unitary of a circuit never leaves a matrix or the buffer. -/
theorem matrix_exists_exactly (counting : Counting) :
    (∀ x : Operation, Issued counting (.operation x) → x.Converges →
      (counting = .wraps → x.EachCount (0 < ·) ∧ x.numQubits ≤ maxStoredQubits) →
      ((∃ m, x.matrixIn counting .double = pure m) ↔ counting.Stores x.numQubits ∧
        ((∃ o, x = .observable o) ∨ x.isUnitary = true ∧ x.innermost.HasEntries)) ∧
      (∀ error, x.matrixIn counting .double = throw error →
        (∃ g e, x.innermost = .gate g ∧ .symbolic e ∈ g.parameters ∧ error = .unbound e.text) ∨
          error = .notUnitary x.innermost.name) ∧
      ∀ m, x.matrixIn counting .double = pure m →
        m.rows = 2 ^ x.numQubits ∧ m.cols = 2 ^ x.numQubits) ∧
    ∀ (c : Circuit) (n : Nat), Issued counting (.circuit c) →
      (counting = .wraps → ∀ inst ∈ c.instructions,
        inst.operation.EachCount (0 < ·) ∧ inst.operation.numQubits ≤ maxStoredQubits) →
      counting.Stores n → c.unitary? counting n = liftM (c.unitary n) := by
  refine ⟨fun x hissued hconverges hkept => ?_, fun c n hissued hkept hstored => ?_⟩
  · have hx : x.Checked := hissued.checked fun hwraps => (hkept hwraps).1
    have hside : counting = .wraps → x.numQubits ≤ maxStoredQubits := fun h => (hkept h).2
    refine ⟨?_, fun error herror => ?_, fun m hm => ?_⟩
    · simp only [Operation.matrixIn_eq_pure_iff hx hconverges hside, exists_and_left]
      exact and_congr_right fun _ => Operation.matrix_exists_iff hx hconverges
    · exact Operation.matrix_error hx hconverges
        ((Operation.matrixIn_eq_throw_iff hx hconverges hside).1 herror)
    · exact Operation.sides_matrix hx
        ((Operation.matrixIn_eq_pure_iff hx hconverges hside).1 hm).2
  · have hchecked : Datum.Checked (.circuit c) :=
      hissued.checked fun hwraps inst hinst => (hkept hwraps inst hinst).1
    exact Circuit.unitary?_eq hchecked hstored

theorem converges_controlledRootY : Operation.controlledRootY.Converges := by
  refine ⟨trivial, fun m hm => DenseMatrix.powerConverges_of_rows (Nat.le_of_eq ?_) _⟩
  have hgate : (Operation.gate .y).Checked := ⟨trivial, trivial⟩
  exact (Operation.sides_matrix hgate hm).1

/-- A root of Y under two controls, alone and on a register of four qubits. -/
theorem matrix_exists_exactly_controlledRootY :
    (∃ m, Operation.controlledRootY.matrixIn .stops .double = pure m ∧ m.rows = 8 ∧ m.cols = 8) ∧
      Circuit.unitary? .stops ⟨"root", [Operation.controlledRootY.on [0, 1, 2]]⟩ 4 =
        liftM (Circuit.unitary ⟨"root", [Operation.controlledRootY.on [0, 1, 2]]⟩ 4) := by
  have hinst : Issued .stops (.instruction (Operation.controlledRootY.on [0, 1, 2])) :=
    .member issued_noisyRoot List.mem_cons_self
  obtain ⟨hmatrix, hunitary⟩ := matrix_exists_exactly .stops
  obtain ⟨hexists, -, hsides⟩ := hmatrix Operation.controlledRootY (.operationOf hinst)
    converges_controlledRootY nofun
  have hcircuit := hunitary _ 4 (.pushInstruction (.empty "root") hinst) nofun (Or.inr (by decide))
  refine ⟨?_, hcircuit⟩
  obtain ⟨m, hm⟩ := hexists.2 ⟨Or.inr (by decide), Or.inr ⟨rfl, List.forall_mem_nil _⟩⟩
  exact ⟨m, hm, hsides m hm⟩

/-- X under twenty-nine controls is a gate without parameters, and the array for its matrix cannot
be. -/
theorem wide_control_has_no_matrix :
    Issued .stops (.operation (.controlled 29 (.gate .x))) ∧
      (Operation.controlled 29 (.gate .x)).isUnitary = true ∧
      (Operation.controlled 29 (.gate .x)).innermost.HasEntries ∧
      (Operation.controlled 29 (.gate .x)).Converges ∧
      (Operation.controlled 29 (.gate .x)).matrixIn .stops .double = ExceptT.lift none ∧
      (Operation.controlled 29 (.gate .x)).matrixIn .wraps .double = ExceptT.lift none :=
  ⟨.controlledGate (by decide) .x, rfl, List.forall_mem_nil _, trivial, rfl, rfl⟩

end GateAlgebra
