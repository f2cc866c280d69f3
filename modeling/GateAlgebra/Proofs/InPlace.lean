import Mathlib.Data.List.Nodup
import GateAlgebra.DenseMatrix.InPlace
import GateAlgebra.Proofs.RegisterIndex
/-!
Gates applied in place.  The blocks of rows that a gate mixes are disjoint and make up all
rows, so no row is read after it has been overwritten, and every entry of the result is the
combination of old entries that the bits of the targets ask for.
-/

namespace GateAlgebra

variable {n q base value : Nat} {targets : List Nat}

section Masks

theorem qubitMask_eq : qubitMask n q = dimension (n - 1 - q) :=
  Nat.one_shiftLeft _

theorem select_bit (value k : Nat) :
    (if (value >>> k) &&& 1 = 1 then 1 else 0) = value / dimension k % 2 := by
  rw [Nat.shiftRight_eq_div_pow, Nat.and_one_is_mod]
  change _ = value / 2 ^ k % 2
  split <;> omega

/-- The masks of distinct targets do not overlap, so adding one of them sets its bit. -/
theorem mask_add (hclear : qubitBit n q base = 0) (bit : Nat) :
    bit * qubitMask n q + base = setQubitBit n q base bit := by
  rw [setQubitBit, hclear, Nat.zero_mul, Nat.sub_zero, qubitMask_eq, Nat.add_comm]

theorem qubitBit_zero : qubitBit n q 0 = 0 := by
  rw [qubitBit, Nat.zero_div]

/-- The selected masks spell the number in the bits of the targets. -/
theorem selectMasks_eq (h : TargetsBelow n targets) :
    selectMasks (targets.map (qubitMask n)) value = writeTargets n targets value 0 := by
  induction targets with
  | nil => rfl
  | cons q rest ih =>
      have hclear : qubitBit n q (writeTargets n rest value 0) = 0 := by
        rw [qubitBit_writeTargets h.tail.lt h.head h.not_mem, qubitBit_zero]
      have hbit : (if (value >>> rest.length) &&& 1 = 1 then qubitMask n q else 0) =
          value / dimension rest.length % 2 * qubitMask n q := by
        rw [← select_bit, ite_mul, Nat.one_mul, Nat.zero_mul]
      rw [List.map_cons, selectMasks, List.length_map, ih h.tail, hbit, mask_add hclear,
        setQubitBit_writeTargets h.tail.lt h.head h.not_mem (Nat.mod_lt _ Nat.two_pos)]
      rfl

theorem testBit_sum_masks (h : TargetsBelow n targets) (k : Nat) :
    (targets.map (qubitMask n)).sum.testBit k = decide (∃ q ∈ targets, k = n - 1 - q) := by
  induction targets generalizing k with
  | nil => simp
  | cons q rest ih =>
      have hclear : qubitBit n q (rest.map (qubitMask n)).sum = 0 := by
        rw [qubitBit_eq, ih h.tail, Bool.toNat_eq_zero, decide_eq_false_iff_not]
        rintro ⟨other, hother, hplace⟩
        have hlt := h.tail.lt other hother
        have hq := h.head
        have heq : q = other := by omega
        exact h.not_mem (heq ▸ hother)
      have hsum := mask_add hclear 1
      rw [Nat.one_mul] at hsum
      rw [List.map_cons, List.sum_cons, hsum, testBit_setQubitBit Nat.one_lt_two, ih h.tail]
      by_cases hplace : k = n - 1 - q
      · simp [hplace]
      · simp [hplace]

theorem readTargets_eq_zero_iff :
    readTargets n targets base = 0 ↔ ∀ q ∈ targets, qubitBit n q base = 0 := by
  induction targets with
  | nil => simp [readTargets]
  | cons q rest ih =>
      have hpos := dimension_pos rest.length
      rw [readTargets_cons, Nat.add_eq_zero_iff, Nat.mul_eq_zero, ih, List.forall_mem_cons]
      simp [Nat.ne_of_gt hpos]

/-- A base row is one whose target bits spell zero. -/
theorem and_sum_masks_eq_zero_iff (h : TargetsBelow n targets) :
    base &&& (targets.map (qubitMask n)).sum = 0 ↔ readTargets n targets base = 0 := by
  rw [readTargets_eq_zero_iff]
  constructor
  · intro hand q hq
    have hbit := congrArg (Nat.testBit · (n - 1 - q)) hand
    have hmask : ∃ other ∈ targets, n - 1 - q = n - 1 - other := ⟨q, hq, rfl⟩
    simp only [Nat.testBit_and, testBit_sum_masks h, hmask, decide_true, Bool.and_true,
      Nat.zero_testBit] at hbit
    rw [qubitBit_eq, hbit]
    rfl
  · intro hclear
    refine Nat.eq_of_testBit_eq fun k => ?_
    rw [Nat.testBit_and, testBit_sum_masks h, Nat.zero_testBit, Bool.and_eq_false_imp]
    intro hk
    rw [decide_eq_false_iff_not]
    rintro ⟨q, hq, rfl⟩
    have hbit := hclear q hq
    rw [qubitBit_eq, hk] at hbit
    cases hbit

theorem or_setQubitBit {index bit : Nat} (hclear : qubitBit n q base = 0) (hbit : bit < 2) :
    base ||| setQubitBit n q index bit = setQubitBit n q (base ||| index) bit := by
  rw [qubitBit_eq, Bool.toNat_eq_zero] at hclear
  refine Nat.eq_of_testBit_eq fun k => ?_
  rw [Nat.testBit_or, testBit_setQubitBit hbit, testBit_setQubitBit hbit, Nat.testBit_or]
  split
  · rename_i hk
    rw [hk, hclear, Bool.false_or]
  · rfl

/-- A row of the block of a base row is the base row with a number written to the
targets. -/
theorem or_selectMasks_eq (h : TargetsBelow n targets)
    (hbase : readTargets n targets base = 0) :
    base ||| selectMasks (targets.map (qubitMask n)) value =
      writeTargets n targets value base := by
  rw [selectMasks_eq h]
  rw [readTargets_eq_zero_iff] at hbase
  induction targets with
  | nil => exact Nat.or_zero base
  | cons q rest ih =>
      obtain ⟨hclear, hrest⟩ := List.forall_mem_cons.1 hbase
      have hbit : value / dimension rest.length % 2 < 2 := Nat.mod_lt _ Nat.two_pos
      rw [writeTargets, writeTargets,
        ← setQubitBit_writeTargets h.tail.lt h.head h.not_mem hbit,
        ← setQubitBit_writeTargets h.tail.lt h.head h.not_mem hbit,
        or_setQubitBit hclear hbit, ih h.tail hrest]

end Masks

section Blocks

/-- The last of the places that hold a row. -/
def lastPlace (row : Nat) : List (Nat × Nat) → Option Nat
  | [] => none
  | place :: rest =>
      (lastPlace row rest).or (if place.1 = row then some place.2 else none)

theorem lastPlace_eq_none {row : Nat} {places : List (Nat × Nat)}
    (h : ∀ place ∈ places, place.1 ≠ row) : lastPlace row places = none := by
  induction places with
  | nil => rfl
  | cons place rest ih =>
      obtain ⟨hplace, hrest⟩ := List.forall_mem_cons.1 h
      rw [lastPlace, ih hrest, if_neg hplace]
      rfl

/-- If a row has one place only, that is the last. -/
theorem lastPlace_eq_some {row i : Nat} {places : List (Nat × Nat)}
    (hmem : (row, i) ∈ places) (honly : ∀ j, (row, j) ∈ places → j = i) :
    lastPlace row places = some i := by
  induction places with
  | nil => cases hmem
  | cons place rest ih =>
      rw [lastPlace]
      by_cases hrest : ∃ j, (row, j) ∈ rest
      · obtain ⟨j, hj⟩ := hrest
        obtain rfl := honly j (List.mem_cons_of_mem place hj)
        rw [ih hj fun k hk => honly k (List.mem_cons_of_mem place hk)]
        rfl
      · have hnone : lastPlace row rest = none := by
          refine lastPlace_eq_none fun other hother heq => hrest ⟨other.2, ?_⟩
          rw [← heq]
          exact hother
        have hhead : (row, i) = place := by
          rcases List.mem_cons.1 hmem with heq | hmem
          · exact heq
          · exact absurd ⟨i, hmem⟩ hrest
        rw [hnone, ← hhead, if_pos rfl]
        rfl

variable {rows : Nat}

theorem mem_baseRows (h : TargetsBelow n targets) :
    base ∈ baseRows rows (targets.map (qubitMask n)).sum ↔
      base < rows ∧ readTargets n targets base = 0 := by
  rw [baseRows, List.mem_filter, List.mem_range, decide_eq_true_iff,
    and_sum_masks_eq_zero_iff h]

theorem nodup_baseRows (mask : Nat) : (baseRows rows mask).Nodup :=
  List.nodup_range.filter _

/-- The block of a base row has the row with every number written to its targets. -/
theorem mixedRows_eq (h : TargetsBelow n targets) (size : Nat)
    (hbase : readTargets n targets base = 0) :
    mixedRows (targets.map (qubitMask n)) size base =
      (List.range size).map fun value => writeTargets n targets value base :=
  List.map_congr_left fun _ _ => or_selectMasks_eq h hbase

/-- A row belongs to the block of the row with its target bits cleared, at the place that
its target bits spell. -/
theorem writeTargets_eq_row_iff (h : TargetsBelow n targets)
    (hbase : readTargets n targets base = 0) (hvalue : value < dimension targets.length)
    {row : Nat} :
    writeTargets n targets value base = row ↔
      value = readTargets n targets row ∧ writeTargets n targets 0 row = base := by
  rw [writeTargets_eq_iff h hvalue, hbase]

theorem mem_mixedRows (h : TargetsBelow n targets) (hbase : readTargets n targets base = 0)
    {row : Nat} :
    row ∈ mixedRows (targets.map (qubitMask n)) (dimension targets.length) base ↔
      writeTargets n targets 0 row = base := by
  rw [mixedRows_eq h _ hbase, List.mem_map]
  constructor
  · rintro ⟨value, hvalue, hrow⟩
    exact ((writeTargets_eq_row_iff h hbase (List.mem_range.1 hvalue)).1 hrow).2
  · intro hclear
    exact ⟨readTargets n targets row, List.mem_range.2 readTargets_lt,
      (writeTargets_eq_row_iff h hbase readTargets_lt).2 ⟨rfl, hclear⟩⟩

theorem nodup_mixedRows (h : TargetsBelow n targets)
    (hbase : readTargets n targets base = 0) :
    (mixedRows (targets.map (qubitMask n)) (dimension targets.length) base).Nodup := by
  rw [mixedRows_eq h _ hbase]
  refine List.Nodup.map_on (fun left hleft right hright heq => ?_) List.nodup_range
  have hrow := (writeTargets_eq_row_iff h hbase (List.mem_range.1 hleft)).1 heq
  rw [hrow.1, readTargets_writeTargets h, Nat.mod_eq_of_lt (List.mem_range.1 hright)]

theorem lastPlace_mixedRows (h : TargetsBelow n targets)
    (hbase : readTargets n targets base = 0) (row : Nat) :
    lastPlace row
        (mixedRows (targets.map (qubitMask n)) (dimension targets.length) base).zipIdx =
      if writeTargets n targets 0 row = base then some (readTargets n targets row) else none := by
  have hplace : ∀ i, (row, i) ∈
      (mixedRows (targets.map (qubitMask n)) (dimension targets.length) base).zipIdx ↔
        i = readTargets n targets row ∧ writeTargets n targets 0 row = base := by
    intro i
    rw [List.mem_zipIdx_iff_getElem?, mixedRows_eq h _ hbase, List.getElem?_map]
    constructor
    · intro hget
      obtain ⟨value, hvalue, hrow⟩ := Option.map_eq_some_iff.1 hget
      obtain ⟨hlt, rfl⟩ := List.getElem?_eq_some_iff.1 hvalue
      rw [List.length_range] at hlt
      rw [List.getElem_range] at hrow
      exact (writeTargets_eq_row_iff h hbase hlt).1 hrow
    · intro hread
      have hlt : i < dimension targets.length := hread.1 ▸ readTargets_lt
      rw [List.getElem?_range hlt, Option.map_some,
        (writeTargets_eq_row_iff h hbase hlt).2 hread]
  split
  · rename_i hclear
    exact lastPlace_eq_some ((hplace _).2 ⟨rfl, hclear⟩) fun j hj => ((hplace j).1 hj).1
  · rename_i hclear
    refine lastPlace_eq_none fun place hmem heq => hclear ((hplace place.2).1 ?_).2
    rw [← heq]
    exact hmem

/-- Every row belongs to exactly one block, and stands there once. -/
theorem blocks_perm (h : TargetsBelow n targets) :
    ((baseRows (dimension n) (targets.map (qubitMask n)).sum).map
      (mixedRows (targets.map (qubitMask n)) (dimension targets.length))).flatten.Perm
        (List.range (dimension n)) := by
  rw [← List.flatMap_def]
  refine (List.perm_ext_iff_of_nodup ?_ List.nodup_range).2 fun row => ?_
  · refine List.nodup_flatMap.2 ⟨fun base hbase =>
      nodup_mixedRows h ((mem_baseRows h).1 hbase).2, ?_⟩
    refine (nodup_baseRows _).imp_of_mem fun {left right} hleft hright hne => ?_
    intro row hrow hrow'
    rw [mem_mixedRows h ((mem_baseRows h).1 hleft).2] at hrow
    rw [mem_mixedRows h ((mem_baseRows h).1 hright).2] at hrow'
    exact hne (hrow.symm.trans hrow')
  · rw [List.mem_flatMap, List.mem_range]
    constructor
    · rintro ⟨base, hbase, hrow⟩
      obtain ⟨hlt, hread⟩ := (mem_baseRows h).1 hbase
      rw [mixedRows_eq h _ hread] at hrow
      obtain ⟨value, -, rfl⟩ := List.mem_map.1 hrow
      exact writeTargets_lt h.lt hlt
    · intro hrow
      have hread : readTargets n targets (writeTargets n targets 0 row) = 0 := by
        rw [readTargets_writeTargets h, Nat.zero_mod]
      exact ⟨writeTargets n targets 0 row,
        (mem_baseRows h).2 ⟨writeTargets_lt h.lt hrow, hread⟩, (mem_mixedRows h hread).2 rfl⟩

end Blocks

namespace DenseMatrix

variable {α : Type} {m state : DenseMatrix α} {i j row col : Nat}

@[simp] theorem rows_set (value : α) : (m.set i j value).rows = m.rows := rfl

@[simp] theorem cols_set (value : α) : (m.set i j value).cols = m.cols := rfl

theorem shape_foldl_set (places : List (Nat × Nat)) (col : Nat) (value : Nat → α) :
    let next := places.foldl (fun state place => state.set place.1 col (value place.2)) state
    next.rows = state.rows ∧ next.cols = state.cols := by
  induction places generalizing state with
  | nil => exact ⟨rfl, rfl⟩
  | cons place rest ih => exact ih

theorem index_inj {cols i' j' : Nat} (hj : j < cols) (hj' : j' < cols)
    (h : i * cols + j = i' * cols + j') : i = i' ∧ j = j' := by
  have hdiv := congrArg (· / cols) h
  have hmod := congrArg (· % cols) h
  simp only [Nat.mul_comm _ cols, Nat.mul_add_div (Nat.zero_lt_of_lt hj),
    Nat.mul_add_mod, Nat.div_eq_of_lt, Nat.mod_eq_of_lt, hj, hj', Nat.add_zero] at hdiv hmod
  exact ⟨hdiv, hmod⟩

variable [Zero α]

theorem entry_set_self (hrow : row < m.rows) (hcol : col < m.cols) (value : α) :
    (m.set row col value).entry row col = value := by
  have hindex : row * m.cols + col < m.entries.size := m.size_entries ▸ index_lt hrow hcol
  simp [entry, set, hcol, hindex, Array.getD]

theorem entry_set_of_ne (hcol : col < m.cols) (hne : ¬(i = row ∧ j = col)) (value : α) :
    (m.set row col value).entry i j = m.entry i j := by
  by_cases hj : j < m.cols
  · have hindex : row * m.cols + col ≠ i * m.cols + j := fun heq =>
      hne ((index_inj hcol hj heq).imp Eq.symm Eq.symm)
    simp only [entry, set, hj, if_true, Array.getD_eq_getD_getElem?,
      Array.getElem?_setIfInBounds_ne hindex]
  · simp [entry, set, hj]

/-- Entries of one column are written place by place, and the last write counts. -/
theorem entry_foldl_set (places : List (Nat × Nat)) (value : Nat → α)
    (hcol : col < state.cols) (hrow : row < state.rows) :
    (places.foldl (fun state place => state.set place.1 col (value place.2)) state).entry row col =
      (lastPlace row places).elim (state.entry row col) value := by
  induction places generalizing state with
  | nil => rfl
  | cons place rest ih =>
      rw [List.foldl_cons, ih (by simpa using hcol) (by simpa using hrow), lastPlace]
      cases lastPlace row rest with
      | some i => rfl
      | none =>
          by_cases hplace : place.1 = row
          · subst hplace
            rw [if_pos rfl]
            exact entry_set_self hrow hcol _
          · rw [if_neg hplace]
            exact entry_set_of_ne hcol (fun heq => hplace heq.1.symm) _

theorem entry_foldl_set_of_ne (places : List (Nat × Nat))
    (value : Nat → α) (hcol : col < state.cols) (hne : j ≠ col) :
    (places.foldl (fun state place => state.set place.1 col (value place.2)) state).entry i j =
      state.entry i j := by
  induction places generalizing state with
  | nil => rfl
  | cons place rest ih =>
      rw [List.foldl_cons, ih (by simpa using hcol)]
      exact entry_set_of_ne hcol (fun heq => hne heq.2) _

variable [Add α] [Mul α] {gate : DenseMatrix α} {rows : List Nat}

/-- What a gate makes of the entries of a column in the mixed rows, at the row with a
place. -/
def mixedValue (gate : DenseMatrix α) (rows : List Nat) (state : DenseMatrix α)
    (col i : Nat) : α :=
  sumBelow (fun j => gate.entry i j *
    (rows.map fun row => state.entry row col).toArray.getD j 0) gate.rows

/-- An entry after its column has been mixed. -/
def mixedEntry (gate : DenseMatrix α) (rows : List Nat) (state : DenseMatrix α)
    (row col : Nat) : α :=
  (lastPlace row rows.zipIdx).elim (state.entry row col) (mixedValue gate rows state col)

theorem shape_mixColumn (gate : DenseMatrix α) (rows : List Nat) (state : DenseMatrix α)
    (col : Nat) :
    (mixColumn gate rows state col).rows = state.rows ∧
      (mixColumn gate rows state col).cols = state.cols :=
  shape_foldl_set rows.zipIdx col (mixedValue gate rows state col)

theorem entry_mixColumn (hrow : row < state.rows) (hcol : col < state.cols) :
    (mixColumn gate rows state col).entry row col = mixedEntry gate rows state row col :=
  entry_foldl_set rows.zipIdx (mixedValue gate rows state col) hcol hrow

theorem entry_mixColumn_of_ne (hcol : col < state.cols) (hne : j ≠ col) :
    (mixColumn gate rows state col).entry i j = state.entry i j :=
  entry_foldl_set_of_ne rows.zipIdx (mixedValue gate rows state col) hcol hne

/-- An entry depends on its own column only. -/
theorem mixedEntry_congr {other : DenseMatrix α}
    (h : ∀ i, state.entry i col = other.entry i col) :
    mixedEntry gate rows state row col = mixedEntry gate rows other row col := by
  have hvalue : mixedValue gate rows state col = mixedValue gate rows other col := by
    funext i
    simp only [mixedValue, h]
  rw [mixedEntry, mixedEntry, hvalue, h]

section Columns

/-- Columns are mixed one after the other, and each is read as it was before. -/
theorem mixColumns (gate : DenseMatrix α) (rows : List Nat) (state : DenseMatrix α)
    {cols : List Nat} (hnodup : cols.Nodup) (hcols : ∀ c ∈ cols, c < state.cols) :
    let next := cols.foldl (mixColumn gate rows) state
    (next.rows = state.rows ∧ next.cols = state.cols) ∧
    (∀ i, ∀ j, j ∉ cols → next.entry i j = state.entry i j) ∧
    ∀ i, i < state.rows → ∀ j ∈ cols, next.entry i j = mixedEntry gate rows state i j := by
  induction cols generalizing state with
  | nil => exact ⟨⟨rfl, rfl⟩, fun _ _ _ => rfl, by simp⟩
  | cons col cols ih =>
      obtain ⟨hmem, hnodup⟩ := List.nodup_cons.1 hnodup
      obtain ⟨hcol, hcols⟩ := List.forall_mem_cons.1 hcols
      obtain ⟨hrows, hwidth⟩ := shape_mixColumn gate rows state col
      obtain ⟨hshape, hkept, hmixed⟩ :=
        ih (mixColumn gate rows state col) hnodup (by simpa only [hwidth])
      refine ⟨by simpa only [List.foldl_cons, hrows, hwidth] using hshape,
        fun i j hj => ?_, fun i hi j hj => ?_⟩
      · obtain ⟨hne, hj⟩ := not_or.1 (List.mem_cons.not.1 hj)
        exact (hkept i j hj).trans (entry_mixColumn_of_ne hcol hne)
      · rcases List.mem_cons.1 hj with rfl | hj
        · exact (hkept i j hmem).trans (entry_mixColumn hi hcol)
        · have hne : j ≠ col := fun heq => hmem (heq ▸ hj)
          exact (hmixed i (by simpa only [hrows]) j hj).trans
            (mixedEntry_congr fun k => entry_mixColumn_of_ne hcol hne)

theorem shape_mixRows (gate state : DenseMatrix α) (rows : List Nat) :
    (mixRows gate state rows).rows = state.rows ∧
      (mixRows gate state rows).cols = state.cols :=
  (mixColumns gate rows state List.nodup_range fun _ => List.mem_range.1).1

theorem entry_mixRows (hrow : row < state.rows) (hcol : col < state.cols) :
    (mixRows gate state rows).entry row col = mixedEntry gate rows state row col :=
  (mixColumns gate rows state List.nodup_range fun _ => List.mem_range.1).2.2 row hrow col
    (List.mem_range.2 hcol)

theorem shape_foldl_mixRows (gate state : DenseMatrix α) (blocks : List (List Nat)) :
    (blocks.foldl (mixRows gate) state).rows = state.rows ∧
      (blocks.foldl (mixRows gate) state).cols = state.cols := by
  induction blocks generalizing state with
  | nil => exact ⟨rfl, rfl⟩
  | cons rows blocks ih =>
      obtain ⟨hrows, hcols⟩ := shape_mixRows gate state rows
      obtain ⟨hrows', hcols'⟩ := ih (mixRows gate state rows)
      exact ⟨hrows'.trans hrows, hcols'.trans hcols⟩

theorem shape_applyInPlace (gate state : DenseMatrix α) (targets : List Nat) (n : Nat) :
    (state.applyInPlace gate targets n).rows = state.rows ∧
      (state.applyInPlace gate targets n).cols = state.cols :=
  shape_foldl_mixRows gate state _

end Columns

section Targets

variable (h : TargetsBelow n targets)

include h

/-- The combination of old entries that the target bits of a row ask for. -/
theorem mixedEntry_mixedRows (hgate : gate.rows = dimension targets.length)
    (hbase : readTargets n targets base = 0) :
    mixedEntry gate (mixedRows (targets.map (qubitMask n)) gate.rows base) state row col =
      if writeTargets n targets 0 row = base then
        sumBelow (fun j => gate.entry (readTargets n targets row) j *
          state.entry (writeTargets n targets j row) col) gate.rows
      else state.entry row col := by
  rw [mixedEntry, hgate, lastPlace_mixedRows h hbase]
  split
  · rename_i hclear
    rw [Option.elim_some, mixedValue, hgate]
    refine sumBelow_congr fun k hk => ?_
    rw [mixedRows_eq h _ hbase, ← hclear]
    simp [hk, writeTargets_writeTargets h]
  · rfl

/-- After some blocks, exactly the rows in these blocks hold new entries, and each of
these is a combination of old ones. -/
theorem entry_foldl_mixRows (hgate : gate.rows = dimension targets.length)
    (hstate : state.rows = dimension n) {bases : List Nat} (hnodup : bases.Nodup)
    (hbases : ∀ base ∈ bases, readTargets n targets base = 0) (hrow : row < state.rows)
    (hcol : col < state.cols) :
    ((bases.map (mixedRows (targets.map (qubitMask n)) gate.rows)).foldl (mixRows gate)
        state).entry row col =
      if writeTargets n targets 0 row ∈ bases then
        sumBelow (fun j => gate.entry (readTargets n targets row) j *
          state.entry (writeTargets n targets j row) col) gate.rows
      else state.entry row col := by
  induction bases generalizing state with
  | nil => rfl
  | cons base bases ih =>
      obtain ⟨hmem, hnodup⟩ := List.nodup_cons.1 hnodup
      obtain ⟨hbase, hbases⟩ := List.forall_mem_cons.1 hbases
      obtain ⟨hrows, hcols⟩ := shape_mixRows gate state
        (mixedRows (targets.map (qubitMask n)) gate.rows base)
      have hmixed : ∀ i, i < state.rows →
          (mixRows gate state (mixedRows (targets.map (qubitMask n)) gate.rows base)).entry i col =
            if writeTargets n targets 0 i = base then
              sumBelow (fun j => gate.entry (readTargets n targets i) j *
                state.entry (writeTargets n targets j i) col) gate.rows
            else state.entry i col := fun i hi =>
        (entry_mixRows hi hcol).trans (mixedEntry_mixedRows h hgate hbase)
      rw [List.map_cons, List.foldl_cons, ih (hrows.trans hstate) hnodup hbases (hrows ▸ hrow)
        (hcols ▸ hcol)]
      by_cases hlater : writeTargets n targets 0 row ∈ bases
      · rw [if_pos hlater, if_pos (List.mem_cons_of_mem base hlater)]
        refine sumBelow_congr fun k _ => ?_
        have hk : writeTargets n targets k row < state.rows :=
          hstate ▸ writeTargets_lt h.lt (hstate ▸ hrow)
        -- the rows that are combined are in the block of `row`, which is not this one
        have hother : writeTargets n targets 0 row ≠ base := fun heq => hmem (heq ▸ hlater)
        rw [hmixed _ hk, writeTargets_writeTargets h, if_neg hother]
      · rw [if_neg hlater, hmixed row hrow]
        simp [hlater]

theorem entry_applyInPlace (hgate : gate.rows = dimension targets.length)
    (hstate : state.rows = dimension n) (hrow : row < state.rows) (hcol : col < state.cols) :
    (state.applyInPlace gate targets n).entry row col =
      sumBelow (fun j => gate.entry (readTargets n targets row) j *
        state.entry (writeTargets n targets j row) col) gate.rows := by
  have hread : readTargets n targets (writeTargets n targets 0 row) = 0 := by
    rw [readTargets_writeTargets h, Nat.zero_mod]
  have hlt : writeTargets n targets 0 row < state.rows :=
    hstate ▸ writeTargets_lt h.lt (hstate ▸ hrow)
  have hbases : ∀ base ∈ baseRows state.rows (targets.map (qubitMask n)).sum,
      readTargets n targets base = 0 := fun base hbase => ((mem_baseRows h).1 hbase).2
  have hentry := entry_foldl_mixRows h hgate hstate (nodup_baseRows _) hbases hrow hcol
  rwa [if_pos ((mem_baseRows h).2 ⟨hlt, hread⟩)] at hentry

/-- When the turn of a column of a block comes, the block holds old entries there. -/
theorem entry_before_mixColumn (hgate : gate.rows = dimension targets.length)
    (hstate : state.rows = dimension n) {before after : List (List Nat)}
    (hblocks : (baseRows state.rows (targets.map (qubitMask n)).sum).map
      (mixedRows (targets.map (qubitMask n)) gate.rows) = before ++ rows :: after)
    {done rest : List Nat} (hcols : List.range state.cols = done ++ col :: rest)
    (hrow : row ∈ rows) :
    (done.foldl (mixColumn gate rows) (before.foldl (mixRows gate) state)).entry row col =
      state.entry row col := by
  obtain ⟨earlier, later, hbases, rfl, hlater⟩ := List.map_eq_append_iff.1 hblocks
  obtain ⟨base, others, rfl, rfl, -⟩ := List.map_eq_cons_iff.1 hlater
  have hclear : ∀ b ∈ earlier ++ base :: others, b < state.rows ∧ readTargets n targets b = 0 :=
    fun b hb => (mem_baseRows h).1 (hbases ▸ hb)
  have hbase := hclear base (by simp)
  have hnodup : (earlier ++ base :: others).Nodup := hbases ▸ nodup_baseRows _
  have hblock : writeTargets n targets 0 row = base := by
    rw [hgate] at hrow
    exact (mem_mixedRows h hbase.2).1 hrow
  have hlt : row < state.rows := by
    rw [mixedRows_eq h _ hbase.2] at hrow
    obtain ⟨value, -, rfl⟩ := List.mem_map.1 hrow
    exact hstate ▸ writeTargets_lt h.lt (hstate ▸ hbase.1)
  have hdone : (done ++ col :: rest).Nodup := hcols ▸ List.nodup_range
  have hbelow : ∀ c ∈ done ++ col :: rest, c < state.cols := fun c hc =>
    List.mem_range.1 (hcols ▸ hc)
  obtain ⟨-, hwidth⟩ := shape_foldl_mixRows gate state
    (earlier.map (mixedRows (targets.map (qubitMask n)) gate.rows))
  obtain ⟨-, hcolumns, -⟩ := mixColumns gate
    (mixedRows (targets.map (qubitMask n)) gate.rows base)
    ((earlier.map (mixedRows (targets.map (qubitMask n)) gate.rows)).foldl (mixRows gate) state)
    (hdone.sublist (List.sublist_append_left done _))
    fun c hc => hwidth ▸ hbelow c (List.mem_append_left _ hc)
  rw [hcolumns row col (by grind), entry_foldl_mixRows h hgate hstate
    (hnodup.sublist (List.sublist_append_left earlier _))
    (fun b hb => (hclear b (List.mem_append_left _ hb)).2) hlt (hbelow col (by simp)), hblock,
    if_neg (by grind)]

end Targets

/-- A gate on distinct targets of a register, in place.  Every entry becomes the combination
of old entries of its column that the gate has for the number in the target bits: the rows
that differ from its own in these bits alone, in the order of the numbers they spell there.
The blocks hold every row of the state once and nothing else, and each column of a block is
read before anything has been written to it. -/
theorem applyInPlace_combines_old_entries (htargets : TargetsBelow n targets)
    (hstate : state.rows = dimension n) (hgate : gate.rows = dimension targets.length) :
    let masks := targets.map (qubitMask n)
    let blocks := (baseRows state.rows masks.sum).map (mixedRows masks gate.rows)
    let result := state.applyInPlace gate targets n
    (result.rows = state.rows ∧ result.cols = state.cols) ∧
    (∀ row col, row < state.rows → col < state.cols →
      result.entry row col =
        sumBelow (fun j => gate.entry (readTargets n targets row) j *
          state.entry (writeTargets n targets j row) col) (dimension targets.length)) ∧
    result = blocks.foldl (mixRows gate) state ∧
    blocks.flatten.Perm (List.range state.rows) ∧
    ∀ before rows after, blocks = before ++ rows :: after →
      ∀ done col rest, List.range state.cols = done ++ col :: rest →
        ∀ row ∈ rows,
          (done.foldl (mixColumn gate rows) (before.foldl (mixRows gate) state)).entry row col =
            state.entry row col := by
  refine ⟨shape_applyInPlace gate state targets n, fun row col hrow hcol => ?_, rfl, ?_, ?_⟩
  · rw [← hgate]
    exact entry_applyInPlace htargets hgate hstate hrow hcol
  · rw [hstate, hgate]
    exact blocks_perm htargets
  · intro before rows after hblocks done col rest hcols row hrow
    exact entry_before_mixColumn htargets hgate hstate hblocks hcols hrow

/-- Counting up by one modulo four. -/
def countUp : DenseMatrix Int :=
  ofFn 4 4 fun i j => if i = (j + 1) % 4 then 1 else 0

/-- Eight rows that hold their own numbers. -/
def rowNumbers : DenseMatrix Int :=
  ofFn 8 1 fun row _ => row

/-- Counting on the last qubit of three and the first. -/
theorem applyInPlace_combines_old_entries_countUp :
    TargetsBelow 3 [2, 0] ∧ (rowNumbers.applyInPlace countUp [2, 0] 3).entry 1 0 = 4 := by
  have htargets : TargetsBelow 3 [2, 0] := ⟨by decide, by decide⟩
  have hstate : rowNumbers.rows = dimension 3 := rfl
  have hgate : countUp.rows = dimension [2, 0].length := rfl
  obtain ⟨-, hentry, -⟩ := applyInPlace_combines_old_entries htargets hstate hgate
  refine ⟨htargets, ?_⟩
  rw [hentry 1 0 (by decide) (by decide)]
  decide

end DenseMatrix

end GateAlgebra
