import GateAlgebra.Proofs.Canonical
/-!
Counts of 64 bits.  Unless overflow goes unnoticed, a modifier that is applied is the one that
exact counts give, and with counts that fit it is in any case.
-/

namespace GateAlgebra

namespace Counting

variable {counting : Counting} {k m n : Nat}

/-- The counts that are in front of operations and their copies.  The bits that are lost may
leave none. -/
def Allows : Counting → Nat → Prop
  | wraps, _ => True
  | _, n => 0 < n

theorem allows_of_pos (hn : 0 < n) : counting.Allows n := by
  cases counting with
  | wraps => trivial
  | _ => exact hn

theorem allows_eq (hcounting : counting ≠ .wraps) : counting.Allows = (0 < ·) := by
  cases counting with
  | wraps => exact absurd rfl hcounting
  | _ => rfl

theorem Allows.mul (h : counting.Allows m) (hn : 0 < n) : counting.Allows (n * m) := by
  cases counting with
  | wraps => trivial
  | _ => exact Nat.mul_pos hn h

theorem count_of_le (h : n ≤ maxIndex) : counting.count n = some n := by
  cases counting with
  | exact => rfl
  | stops => exact if_pos h
  | wraps => exact congrArg some (Nat.mod_eq_of_lt (Nat.lt_succ_of_le h))

theorem eq_of_count (hcounting : counting ≠ .wraps) (h : counting.count n = some m) : m = n := by
  cases counting with
  | exact => exact (Option.some.inj h).symm
  | stops =>
      rw [count, Option.ite_none_right_eq_some] at h
      exact (Option.some.inj h.2).symm
  | wraps => exact absurd rfl hcounting

theorem le_of_count (h : counting.count n = some m) : m ≤ n := by
  by_cases hcounting : counting = .wraps
  · subst hcounting
    obtain rfl := Option.some.inj h
    exact Nat.mod_le n _
  · exact (eq_of_count hcounting h).le

theorem stops_of_count (h : counting.count n = none) : counting = .stops := by
  cases counting with
  | stops => rfl
  | _ => cases h

theorem Allows.count (h : counting.Allows n) (hm : counting.count n = some m) :
    counting.Allows m := by
  by_cases hcounting : counting = .wraps
  · subst hcounting
    trivial
  · rwa [eq_of_count hcounting hm]

section Combined

variable (counting)

/-- Counts that are added one after the other stop or lose bits together. -/
theorem count_add_count_add (m n k : Nat) :
    ((counting.count (m + k)).bind fun sum => counting.count (n + sum)) =
      counting.count (m + n + k) := by
  cases counting with
  | exact => exact congrArg some (by omega)
  | stops =>
      simp only [count]
      split
      · exact if_congr (by omega) (congrArg some (by omega)) rfl
      · exact (if_neg (by omega)).symm
  | wraps =>
      have hsum : n + (m + k) = m + n + k := by omega
      exact congrArg some (by rw [Nat.add_mod_mod, hsum])

theorem count_add_count (m n k : Nat) :
    ((counting.count (m + n)).bind fun sum => counting.count (sum + k)) =
      counting.count (m + n + k) := by
  have hswap := count_add_count_add counting m k n
  simpa only [Nat.add_comm k, Nat.add_right_comm m k n] using hswap

theorem count_mul_count_mul (m k : Nat) (hn : 0 < n) :
    ((counting.count (m * k)).bind fun product => counting.count (n * product)) =
      counting.count (n * m * k) := by
  have hproduct : n * m * k = n * (m * k) := Nat.mul_assoc n m k
  rw [hproduct]
  cases counting with
  | exact => rfl
  | stops =>
      have hle : m * k ≤ n * (m * k) := Nat.le_mul_of_pos_left _ hn
      simp only [count]
      split
      · rfl
      · exact (if_neg (by omega)).symm
  | wraps => exact congrArg some (Nat.mul_mod_mod _ _ _)

theorem count_mul_count (m n : Nat) (hk : counting.Allows k) :
    ((counting.count (n * m)).bind fun product => counting.count (product * k)) =
      counting.count (n * m * k) := by
  cases counting with
  | exact => rfl
  | stops =>
      have hle : n * m ≤ n * m * k := Nat.le_mul_of_pos_right _ hk
      simp only [count]
      split
      · rfl
      · exact (if_neg (by omega)).symm
  | wraps => exact congrArg some (Nat.mod_mul_mod _ _ _)

/-- A count that is passed on is none if all bits that are left of it are zero. -/
theorem count_eq_zero_iff (hn : 0 < n) :
    counting.count n = some 0 ↔ counting = .wraps ∧ maxIndex + 1 ∣ n := by
  cases counting with
  | exact => simp [count, hn.ne']
  | stops => simp [count, hn.ne']
  | wraps => simp [count, Nat.dvd_iff_mod_eq_zero]

end Combined

end Counting

namespace Operation

variable {counting : Counting} {op op' : Operation} {n : Nat} {P : Nat → Prop}

theorem recounted_exact (op : Operation) : op.recounted .exact = some op := by
  cases op <;> rfl

theorem eq_of_recounted (hcounting : counting ≠ .wraps) (h : op.recounted counting = some op') :
    op' = op := by
  cases op with
  | controlled n w | repeated n w =>
      obtain ⟨m, hm, rfl⟩ := Option.map_eq_some_iff.1 h
      rw [Counting.eq_of_count hcounting hm]
  | _ => exact (Option.some.inj h).symm

theorem isUnitary_of_recounted (h : op.recounted counting = some op') :
    op'.isUnitary = op.isUnitary := by
  cases op with
  | controlled n w | repeated n w =>
      obtain ⟨m, -, rfl⟩ := Option.map_eq_some_iff.1 h
      rfl
  | _ => rw [Option.some.inj h]

theorem stops_of_recounted (h : op.recounted counting = none) :
    counting = .stops := by
  cases op with
  | controlled | repeated => exact Counting.stops_of_count (Option.map_eq_none_iff.1 h)
  | _ => cases h

/-- The count of the modifier, if there is one, is one of 64 bits. -/
def CountFits : Operation → Prop
  | controlled n _ | repeated n _ => n ≤ maxIndex
  | _ => True

theorem recounted_of_countFits (h : op.CountFits) : op.recounted counting = some op := by
  cases op with
  | controlled n w => exact congrArg (Option.map (controlled · w)) (Counting.count_of_le h)
  | repeated n w => exact congrArg (Option.map (repeated · w)) (Counting.count_of_le h)
  | _ => rfl

theorem recounted_of_exact_or_countFits (h : counting = .exact ∨ op.CountFits) :
    op.recounted counting = some op := by
  rcases h with rfl | h
  · exact recounted_exact op
  · exact recounted_of_countFits h

end Operation

section Answers

variable {α : Type}

theorem lift_eq_pure_iff {result : Option α} {a : α} :
    (ExceptT.lift result : Answer α) = pure a ↔ result = some a := by
  cases result with
  | none => exact ⟨nofun, nofun⟩
  | some b => exact ⟨fun h => congrArg some (Except.ok.inj (Option.some.inj h)), fun h => h ▸ rfl⟩

theorem liftM_eq_pure_iff {result : Except CircuitError α} {a : α} :
    (liftM result : Answer α) = pure a ↔ result = .ok a :=
  ⟨Option.some.inj, congrArg some⟩

theorem liftM_eq_throw_iff {result : Except CircuitError α} {e : CircuitError} :
    (liftM result : Answer α) = throw e ↔ result = .error e :=
  ⟨Option.some.inj, congrArg some⟩

theorem throw_ne_pure (e : CircuitError) (a : α) : (throw e : Answer α) ≠ pure a := by
  intro h
  cases Option.some.inj h

end Answers

namespace Operation

section Modify

variable {counting : Counting} {op op' modified : Operation} {n : Nat} {missing : CircuitError}

theorem modifyIn_of_pos (hn : 0 < n) (hunitary : op.isUnitary = true) :
    op.modifyIn counting n missing modified = ExceptT.lift (modified.recounted counting) := by
  rw [modifyIn, if_neg hn.ne', if_pos hunitary]

/-- A call gives an operation if there is something to count and the count fits or loses bits. -/
theorem modifyIn_eq_pure_iff :
    op.modifyIn counting n missing modified = pure op' ↔
      0 < n ∧ op.isUnitary = true ∧ modified.recounted counting = some op' := by
  constructor
  · intro h
    unfold modifyIn at h
    split at h
    · exact absurd h (throw_ne_pure _ _)
    · rename_i hn
      split at h
      · rename_i hunitary
        exact ⟨Nat.pos_of_ne_zero hn, hunitary, lift_eq_pure_iff.1 h⟩
      · exact absurd h (throw_ne_pure _ _)
  · rintro ⟨hn, hunitary, h⟩
    rw [modifyIn_of_pos hn hunitary, h]
    rfl

theorem controlIn_exact_eq_pure (h : op.control n = .ok op') :
    op.controlIn .exact n = pure op' := by
  obtain ⟨hn, hunitary, rfl⟩ := control_eq_ok_iff.1 h
  exact modifyIn_eq_pure_iff.2 ⟨hn, hunitary, recounted_exact _⟩

theorem parallelIn_exact_eq_pure (h : op.parallel n = .ok op') :
    op.parallelIn .exact n = pure op' := by
  obtain ⟨hn, hunitary, rfl⟩ := parallel_eq_ok_iff.1 h
  exact modifyIn_eq_pure_iff.2 ⟨hn, hunitary, recounted_exact _⟩

/-- Unless overflow goes unnoticed, a control that is added is the one of exact counts. -/
theorem control_of_controlIn (hcounting : counting ≠ .wraps)
    (h : op.controlIn counting n = pure op') : op.control n = .ok op' := by
  obtain ⟨hn, hunitary, hcounted⟩ := modifyIn_eq_pure_iff.1 h
  rw [eq_of_recounted hcounting hcounted]
  exact control_eq_ok hn hunitary

theorem parallel_of_parallelIn (hcounting : counting ≠ .wraps)
    (h : op.parallelIn counting n = pure op') : op.parallel n = .ok op' := by
  obtain ⟨hn, hunitary, hcounted⟩ := modifyIn_eq_pure_iff.1 h
  rw [eq_of_recounted hcounting hcounted]
  exact parallel_eq_ok hn hunitary

end Modify

section LostBits

/-- X under as many controls as there can be. -/
theorem controlIn_maxIndex :
    (gate .x).controlIn .wraps maxIndex = pure (controlled maxIndex (gate .x)) :=
  rfl

/-- One control more leaves none. -/
theorem controlIn_lost :
    (controlled maxIndex (gate .x)).controlIn .wraps 1 = pure (controlled 0 (gate .x)) :=
  rfl

end LostBits

end Operation

end GateAlgebra
