import Mathlib.Data.Nat.Bitwise
import Mathlib.Tactic.Ring
import GateAlgebra.Dimension
/-!
The bits of an index over a register.  Reading the bits of distinct targets and writing them
are a lens: what is written is read, writing back what is read changes nothing, and only the
last write counts.
-/

namespace GateAlgebra

/-- The bit of qubit `q` in an index over `n` qubits. -/
def qubitBit (n q index : Nat) : Nat :=
  index / dimension (n - 1 - q) % 2

/-- The index with the bit of qubit `q` set to `bit`. -/
def setQubitBit (n q index bit : Nat) : Nat :=
  let weight := dimension (n - 1 - q)
  index - qubitBit n q index * weight + bit * weight

/-- The number that the bits of the targets spell, the first target the most
significant. -/
def readTargets (n : Nat) (targets : List Nat) (index : Nat) : Nat :=
  targets.foldl (fun value q => 2 * value + qubitBit n q index) 0

/-- The index with the bits of the targets replaced by those of a number. -/
def writeTargets (n : Nat) : List Nat → Nat → Nat → Nat
  | [], _, index => index
  | q :: rest, value, index =>
      writeTargets n rest value
        (setQubitBit n q index (value / dimension rest.length % 2))

variable {n q other index bit bit' value value' : Nat} {targets : List Nat}

section Bit

theorem qubitBit_lt_two : qubitBit n q index < 2 :=
  Nat.mod_lt _ Nat.two_pos

theorem qubitBit_eq : qubitBit n q index = (index.testBit (n - 1 - q)).toNat := by
  rw [qubitBit, Nat.testBit_eq_decide_div_mod_eq]
  change index / 2 ^ (n - 1 - q) % 2 = _
  rcases Nat.mod_two_eq_zero_or_one (index / 2 ^ (n - 1 - q)) with h | h <;> rw [h] <;> rfl

/-- The bit of the qubit stands between the bits above it and those below. -/
theorem setQubitBit_eq :
    setQubitBit n q index bit =
      2 ^ (n - 1 - q) * (2 * (index / 2 ^ (n - 1 - q) / 2) + bit) +
        index % 2 ^ (n - 1 - q) := by
  change index - index / 2 ^ (n - 1 - q) % 2 * 2 ^ (n - 1 - q) + bit * 2 ^ (n - 1 - q) = _
  generalize 2 ^ (n - 1 - q) = weight
  have hindex : index = weight * (2 * (index / weight / 2) + index / weight % 2) +
      index % weight := by
    rw [Nat.div_add_mod, Nat.div_add_mod]
  generalize index / weight / 2 = above at hindex ⊢
  generalize index / weight % 2 = old at hindex ⊢
  generalize index % weight = below at hindex ⊢
  subst hindex
  have hold : old * weight ≤ weight * (2 * above + old) := by
    rw [Nat.mul_comm]
    exact Nat.mul_le_mul_left weight (Nat.le_add_left old _)
  rw [Nat.sub_add_comm hold, Nat.mul_add, Nat.mul_add, Nat.mul_comm old, Nat.add_sub_cancel]
  ring

/-- Only the bit of the qubit is replaced. -/
theorem testBit_setQubitBit (hbit : bit < 2) (k : Nat) :
    (setQubitBit n q index bit).testBit k =
      if k = n - 1 - q then decide (bit = 1) else index.testBit k := by
  rw [setQubitBit_eq]
  generalize n - 1 - q = place
  have hbelow : index % 2 ^ place < 2 ^ place := Nat.mod_lt _ (Nat.two_pow_pos place)
  have hindex := Nat.testBit_two_pow_mul_add (index / 2 ^ place) hbelow k
  rw [Nat.div_add_mod] at hindex
  rw [Nat.testBit_two_pow_mul_add _ hbelow, hindex]
  rcases Nat.lt_trichotomy k place with hlow | rfl | hhigh
  · rw [if_pos hlow, if_pos hlow, if_neg (Nat.ne_of_lt hlow)]
  · rw [if_neg (Nat.lt_irrefl k), if_pos rfl, Nat.sub_self, Nat.testBit_zero,
      Nat.mul_add_mod, Nat.mod_eq_of_lt hbit]
  · obtain ⟨above, rfl⟩ := Nat.exists_eq_add_of_lt hhigh
    have hdiff : place + above + 1 - place = above + 1 := by omega
    rw [if_neg (by omega), if_neg (by omega), if_neg (by omega), hdiff, Nat.testBit_succ,
      Nat.testBit_succ, Nat.mul_add_div Nat.two_pos, Nat.div_eq_of_lt hbit, Nat.add_zero]

theorem qubitBit_setQubitBit (hbit : bit < 2) :
    qubitBit n q (setQubitBit n q index bit) = bit := by
  rw [qubitBit_eq, testBit_setQubitBit hbit, if_pos rfl]
  have hcases : bit = 0 ∨ bit = 1 := by omega
  rcases hcases with rfl | rfl <;> rfl

theorem qubitBit_setQubitBit_of_ne (hbit : bit < 2) (hq : q < n) (hother : other < n)
    (hne : other ≠ q) : qubitBit n other (setQubitBit n q index bit) = qubitBit n other index := by
  rw [qubitBit_eq, qubitBit_eq, testBit_setQubitBit hbit, if_neg (by omega)]

theorem setQubitBit_qubitBit : setQubitBit n q index (qubitBit n q index) = index := by
  refine Nat.eq_of_testBit_eq fun k => ?_
  rw [testBit_setQubitBit qubitBit_lt_two, qubitBit_eq]
  split
  · rename_i hk
    rw [hk]
    cases index.testBit (n - 1 - q) <;> rfl
  · rfl

theorem setQubitBit_setQubitBit (hbit : bit < 2) (hbit' : bit' < 2) :
    setQubitBit n q (setQubitBit n q index bit) bit' = setQubitBit n q index bit' := by
  refine Nat.eq_of_testBit_eq fun k => ?_
  simp only [testBit_setQubitBit hbit, testBit_setQubitBit hbit']
  split <;> rfl

theorem setQubitBit_comm (hbit : bit < 2) (hbit' : bit' < 2) (hq : q < n) (hother : other < n)
    (hne : other ≠ q) :
    setQubitBit n q (setQubitBit n other index bit') bit =
      setQubitBit n other (setQubitBit n q index bit) bit' := by
  have hplaces : n - 1 - q ≠ n - 1 - other := by omega
  refine Nat.eq_of_testBit_eq fun k => ?_
  simp only [testBit_setQubitBit hbit, testBit_setQubitBit hbit']
  by_cases hk : k = n - 1 - q
  · rw [if_pos hk, if_neg (hk ▸ hplaces), if_pos hk]
  · rw [if_neg hk, if_neg hk]

theorem setQubitBit_lt (hbit : bit < 2) (hq : q < n) (hindex : index < dimension n) :
    setQubitBit n q index bit < dimension n := by
  refine Nat.lt_pow_two_of_testBit _ fun k hk => ?_
  rw [testBit_setQubitBit hbit, if_neg (by omega)]
  exact Nat.testBit_lt_two_pow (Nat.lt_of_lt_of_le hindex (Nat.pow_le_pow_right Nat.two_pos hk))

/-- An index is known by its bits. -/
theorem eq_of_qubitBit (hindex : index < dimension n) (hother : other < dimension n)
    (h : ∀ q < n, qubitBit n q index = qubitBit n q other) : index = other := by
  have hdigits : ∀ b b' : Bool, b.toNat = b'.toNat → b = b' := by decide
  refine Nat.eq_of_testBit_eq fun k => ?_
  by_cases hk : k < n
  · have hbit := h (n - 1 - k) (by omega)
    have hplace : n - 1 - (n - 1 - k) = k := by omega
    rw [qubitBit_eq, qubitBit_eq, hplace] at hbit
    exact hdigits _ _ hbit
  · have hpow : dimension n ≤ 2 ^ k := Nat.pow_le_pow_right Nat.two_pos (Nat.le_of_not_lt hk)
    rw [Nat.testBit_lt_two_pow (Nat.lt_of_lt_of_le hindex hpow),
      Nat.testBit_lt_two_pow (Nat.lt_of_lt_of_le hother hpow)]

end Bit

section Targets

theorem readTargets_cons (rest : List Nat) :
    readTargets n (q :: rest) index =
      qubitBit n q index * dimension rest.length + readTargets n rest index := by
  have hfold : ∀ (list : List Nat) (start : Nat),
      list.foldl (fun value q => 2 * value + qubitBit n q index) start =
        start * dimension list.length +
          list.foldl (fun value q => 2 * value + qubitBit n q index) 0 := by
    intro list
    induction list with
    | nil => intro start; simp [dimension_zero]
    | cons head tail ih =>
        intro start
        rw [List.foldl_cons, List.foldl_cons, ih, ih (2 * 0 + _), List.length_cons,
          dimension_succ]
        ring
  rw [readTargets, List.foldl_cons, hfold, Nat.mul_zero, Nat.zero_add]
  rfl

theorem readTargets_lt : readTargets n targets index < dimension targets.length := by
  induction targets with
  | nil => exact Nat.one_pos
  | cons q rest ih =>
      have hbit : qubitBit n q index ≤ 1 := Nat.le_of_lt_succ qubitBit_lt_two
      have hterm := Nat.mul_le_mul_right (dimension rest.length) hbit
      rw [readTargets_cons, List.length_cons, dimension_succ]
      omega

/-- Distinct targets in the register. -/
structure TargetsBelow (n : Nat) (targets : List Nat) : Prop where
  nodup : targets.Nodup
  lt : ∀ q ∈ targets, q < n

theorem TargetsBelow.head {rest : List Nat} (h : TargetsBelow n (q :: rest)) : q < n :=
  h.lt q List.mem_cons_self

theorem TargetsBelow.not_mem {rest : List Nat} (h : TargetsBelow n (q :: rest)) : q ∉ rest :=
  (List.nodup_cons.1 h.nodup).1

theorem TargetsBelow.tail {rest : List Nat} (h : TargetsBelow n (q :: rest)) :
    TargetsBelow n rest :=
  ⟨(List.nodup_cons.1 h.nodup).2, fun other hother => h.lt other (List.mem_cons_of_mem q hother)⟩

theorem writeTargets_lt (h : ∀ q ∈ targets, q < n) (hindex : index < dimension n) :
    writeTargets n targets value index < dimension n := by
  induction targets generalizing index with
  | nil => exact hindex
  | cons q rest ih =>
      obtain ⟨hq, hrest⟩ := List.forall_mem_cons.1 h
      exact ih hrest (setQubitBit_lt (Nat.mod_lt _ Nat.two_pos) hq hindex)

/-- Other qubits keep their bits. -/
theorem qubitBit_writeTargets (h : ∀ q ∈ targets, q < n) (hother : other < n)
    (hmem : other ∉ targets) :
    qubitBit n other (writeTargets n targets value index) = qubitBit n other index := by
  induction targets generalizing index with
  | nil => rfl
  | cons q rest ih =>
      obtain ⟨hq, hrest⟩ := List.forall_mem_cons.1 h
      obtain ⟨hne, hmem⟩ := not_or.1 (List.mem_cons.not.1 hmem)
      exact (ih hrest hmem).trans
        (qubitBit_setQubitBit_of_ne (Nat.mod_lt _ Nat.two_pos) hq hother hne)

theorem setQubitBit_writeTargets (h : ∀ q ∈ targets, q < n) (hother : other < n)
    (hmem : other ∉ targets) (hbit : bit < 2) :
    setQubitBit n other (writeTargets n targets value index) bit =
      writeTargets n targets value (setQubitBit n other index bit) := by
  induction targets generalizing index with
  | nil => rfl
  | cons q rest ih =>
      obtain ⟨hq, hrest⟩ := List.forall_mem_cons.1 h
      obtain ⟨hne, hmem⟩ := not_or.1 (List.mem_cons.not.1 hmem)
      rw [writeTargets, ih hrest hmem, writeTargets,
        setQubitBit_comm hbit (Nat.mod_lt _ Nat.two_pos) hother hq (Ne.symm hne)]

/-- Only the bits for the targets count. -/
theorem writeTargets_mod :
    writeTargets n targets (value % dimension targets.length) index =
      writeTargets n targets value index := by
  induction targets generalizing value index with
  | nil => rfl
  | cons q rest ih =>
      rw [writeTargets, writeTargets, List.length_cons, dimension_succ, Nat.mod_mul_right_div_self,
        Nat.mod_mod, ← ih, Nat.mod_mul_right_mod, ih]

theorem readTargets_writeTargets (h : TargetsBelow n targets) :
    readTargets n targets (writeTargets n targets value index) =
      value % dimension targets.length := by
  induction targets generalizing index with
  | nil => exact (Nat.mod_one value).symm
  | cons q rest ih =>
      rw [readTargets_cons, writeTargets, ih h.tail,
        qubitBit_writeTargets h.tail.lt h.head h.not_mem,
        qubitBit_setQubitBit (Nat.mod_lt _ Nat.two_pos), List.length_cons, dimension_succ,
        Nat.mod_mul]
      ring

theorem writeTargets_readTargets :
    writeTargets n targets (readTargets n targets index) index = index := by
  induction targets with
  | nil => rfl
  | cons q rest ih =>
      have hrest : readTargets n rest index < dimension rest.length := readTargets_lt
      rw [readTargets_cons, writeTargets, Nat.mul_comm,
        Nat.mul_add_div (dimension_pos _), Nat.div_eq_of_lt hrest, Nat.add_zero,
        Nat.mod_eq_of_lt qubitBit_lt_two, setQubitBit_qubitBit, ← writeTargets_mod,
        Nat.mul_add_mod, writeTargets_mod, ih]

theorem writeTargets_writeTargets (h : TargetsBelow n targets) :
    writeTargets n targets value (writeTargets n targets value' index) =
      writeTargets n targets value index := by
  induction targets generalizing index with
  | nil => rfl
  | cons q rest ih =>
      have hset := Nat.mod_lt (value / dimension rest.length) Nat.two_pos
      have hset' := Nat.mod_lt (value' / dimension rest.length) Nat.two_pos
      rw [writeTargets, writeTargets, setQubitBit_writeTargets h.tail.lt h.head h.not_mem hset,
        ih h.tail, setQubitBit_setQubitBit hset' hset, writeTargets]

/-- An index is written from another one exactly if the value is read from it, and then the
other one is written back from it. -/
theorem writeTargets_eq_iff (h : TargetsBelow n targets) (hvalue : value < dimension targets.length)
    {row col : Nat} :
    writeTargets n targets value row = col ↔
      value = readTargets n targets col ∧
        writeTargets n targets (readTargets n targets row) col = row := by
  constructor
  · rintro rfl
    rw [readTargets_writeTargets h, Nat.mod_eq_of_lt hvalue, writeTargets_writeTargets h]
    exact ⟨rfl, writeTargets_readTargets⟩
  · rintro ⟨rfl, hback⟩
    rw [← hback, writeTargets_writeTargets h]
    exact writeTargets_readTargets

end Targets

end GateAlgebra
