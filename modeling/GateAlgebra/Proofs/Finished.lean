import GateAlgebra.Proofs.ControlledX
/-!
Emissions that do not lack depth.  Each way to put emissions together is finished if
its parts are, as far as it comes to them, and an emission that is finished stays as it is
when its parts get more depth.
-/

namespace GateAlgebra

namespace Emission

section Stops

/-- If the emission stops early, then for a reason of one kind. -/
def StopsOnly (P : Stop → Prop) (emission : Emission) : Prop :=
  ∀ stop, emission.stop = some stop → P stop

variable {P : Stop → Prop} {emission first second : Emission}

theorem stopsOnly_done {emitted : List Instruction} : (done emitted).StopsOnly P := by
  simp [StopsOnly, done]

theorem StopsOnly.mono {Q : Stop → Prop} (hPQ : ∀ stop, P stop → Q stop)
    (h : emission.StopsOnly P) : emission.StopsOnly Q :=
  fun stop hstop => hPQ stop (h stop hstop)

/-- What never stops is complete. -/
theorem StopsOnly.exists_done (h : emission.StopsOnly fun _ => False) :
    ∃ emitted, emission = done emitted := by
  obtain ⟨emitted, stop⟩ := emission
  cases stop with
  | none => exact ⟨emitted, rfl⟩
  | some stop => exact absurd rfl (h stop)

theorem stopsOnly_whole {next : List Instruction → Emission} (h : emission.StopsOnly P)
    (hnext : ∀ lowered, emission = done lowered → (next lowered).StopsOnly P) :
    (emission.whole next).StopsOnly P := by
  obtain ⟨lowered, stop⟩ := emission
  cases stop with
  | none => exact hnext lowered rfl
  | some stop => exact h

theorem stopsOnly_andThen (hfirst : first.StopsOnly P)
    (hsecond : ∀ lowered, first = done lowered → second.StopsOnly P) :
    (first.andThen second).StopsOnly P := by
  obtain ⟨lowered, stop⟩ := first
  cases stop with
  | none => exact hsecond lowered rfl
  | some stop => exact hfirst

theorem stopsOnly_times (h : emission.StopsOnly P) (n : Nat) :
    (emission.times n).StopsOnly P := by
  induction n with
  | zero => exact stopsOnly_done
  | succ n ih =>
      rw [times_succ]
      exact stopsOnly_andThen h fun _ _ => ih

theorem stopsOnly_sequence {emissions : List Emission}
    (h : ∀ emission ∈ emissions, emission.StopsOnly P) : (sequence emissions).StopsOnly P := by
  induction emissions with
  | nil => exact stopsOnly_done
  | cons emission emissions ih =>
      obtain ⟨hfirst, hrest⟩ := List.forall_mem_cons.1 h
      rw [sequence_cons]
      exact stopsOnly_andThen hfirst fun _ _ => ih hrest

/-- A sequence stops only for the reasons of the parts that it comes to. -/
theorem stopsOnly_sequence_map {β : Type} {part : β → Emission} {items : List β}
    (h : ∀ before item after, items = before ++ item :: after →
      (∀ other ∈ before, ∃ lowered, part other = done lowered) → (part item).StopsOnly P) :
    (sequence (items.map part)).StopsOnly P := by
  induction items with
  | nil => exact stopsOnly_done
  | cons item items ih =>
      rw [List.map_cons, sequence_cons]
      refine stopsOnly_andThen (h [] item items rfl (by simp)) fun lowered hlowered => ih ?_
      rintro before next after rfl hbefore
      exact h (item :: before) next after rfl
        (List.forall_mem_cons.2 ⟨⟨lowered, hlowered⟩, hbefore⟩)

theorem stopsOnly_apply {op : Operation} {qubits : List Nat} (hunitary : op.isUnitary = true)
    (hlength : qubits.length = op.numQubits) (hnodup : qubits.Nodup) :
    (apply op qubits).StopsOnly P := by
  rw [apply_eq_done hunitary hlength hnodup]
  exact stopsOnly_done

end Stops

/-- The emission came to its end, or to a failure. -/
def Finished (emission : Emission) : Prop :=
  emission.stop ≠ some .unfinished

theorem finished_iff_stopsOnly {emission : Emission} :
    emission.Finished ↔ emission.StopsOnly fun stop => stop ≠ .unfinished := by
  unfold Finished StopsOnly
  constructor
  · rintro h stop hstop rfl
    exact h hstop
  · exact fun h hstop => h .unfinished hstop rfl

section Parts

variable {α : Type} {emitted : List Instruction}

theorem finished_done : (done emitted).Finished := by
  simp [Finished, done]

theorem finished_failure (error : LoweringError) : (failure error).Finished := by
  simp [Finished, failure]

theorem not_finished_unfinished : ¬unfinished.Finished := by
  simp [Finished, unfinished]

theorem finished_bind {value : Except LoweringError α} {next : α → Emission}
    (h : ∀ a, value = .ok a → (next a).Finished) : (bind value next).Finished := by
  cases value with
  | ok a => exact h a rfl
  | error error => exact finished_failure error

theorem finished_build {value : Except CircuitError α} {next : α → Emission}
    (h : ∀ a, value = .ok a → (next a).Finished) : (build value next).Finished := by
  cases value with
  | ok a => exact h a rfl
  | error error => exact finished_failure _

theorem finished_apply (op : Operation) (qubits : List Nat) : (apply op qubits).Finished :=
  finished_build fun _ _ => finished_done

theorem finished_whole {emission : Emission} {next : List Instruction → Emission}
    (h : emission.Finished)
    (hnext : ∀ lowered, emission = done lowered → (next lowered).Finished) :
    (emission.whole next).Finished := by
  simp only [finished_iff_stopsOnly] at *
  exact stopsOnly_whole h hnext

theorem not_finished_whole {emission : Emission} {next : List Instruction → Emission}
    (h : ¬emission.Finished) : ¬(emission.whole next).Finished := by
  obtain ⟨lowered, stop⟩ := emission
  cases stop with
  | none => exact absurd (finished_done : (done lowered).Finished) h
  | some stop => exact h

theorem finished_andThen {first second : Emission} (hfirst : first.Finished)
    (hsecond : ∀ lowered, first = done lowered → second.Finished) :
    (first.andThen second).Finished := by
  simp only [finished_iff_stopsOnly] at *
  exact stopsOnly_andThen hfirst hsecond

theorem not_finished_andThen {first second : Emission}
    (h : ¬first.Finished ∨ (∃ lowered, first = done lowered) ∧ ¬second.Finished) :
    ¬(first.andThen second).Finished := by
  rcases h with hfirst | ⟨⟨lowered, rfl⟩, hsecond⟩
  · obtain ⟨lowered, stop⟩ := first
    cases stop with
    | none => exact absurd (finished_done : (done lowered).Finished) hfirst
    | some stop => exact hfirst
  · exact hsecond

theorem finished_times {emission : Emission} (h : emission.Finished) (n : Nat) :
    (emission.times n).Finished := by
  simp only [finished_iff_stopsOnly] at *
  exact stopsOnly_times h n

theorem not_finished_times {emission : Emission} (h : ¬emission.Finished) (n : Nat) :
    ¬(emission.times (n + 1)).Finished := by
  rw [times_succ]
  exact not_finished_andThen (Or.inl h)

theorem finished_sequence_of_forall {emissions : List Emission}
    (h : ∀ emission ∈ emissions, emission.Finished) : (sequence emissions).Finished := by
  simp only [finished_iff_stopsOnly] at *
  exact stopsOnly_sequence h

variable {β : Type} {part : β → Emission} {items : List β}

/-- A sequence is finished if every part is that it comes to. -/
theorem finished_sequence
    (h : ∀ before item after, items = before ++ item :: after →
      (∀ other ∈ before, ∃ lowered, part other = done lowered) → (part item).Finished) :
    (sequence (items.map part)).Finished := by
  simp only [finished_iff_stopsOnly] at *
  exact stopsOnly_sequence_map h

/-- A sequence is not finished if it comes to a part that is not. -/
theorem not_finished_sequence {before after : List β} {item : β}
    (hbefore : ∀ other ∈ before, ¬(part other).Finished ∨ ∃ lowered, part other = done lowered)
    (hitem : ¬(part item).Finished) :
    ¬(sequence ((before ++ item :: after).map part)).Finished := by
  induction before with
  | nil =>
      rw [List.nil_append, List.map_cons, sequence_cons]
      exact not_finished_andThen (Or.inl hitem)
  | cons other before ih =>
      obtain ⟨hother, hrest⟩ := List.forall_mem_cons.1 hbefore
      rw [List.cons_append, List.map_cons, sequence_cons]
      refine not_finished_andThen ?_
      rcases hother with hnot | hdone
      · exact Or.inl hnot
      · exact Or.inr ⟨hdone, ih hrest⟩

end Parts

section Refinement

/-- The same emission again, if it is finished. -/
def Refines (emission other : Emission) : Prop :=
  emission.Finished → other = emission

variable {α : Type} {first first' second second' : Emission}

theorem refines_refl (emission : Emission) : emission.Refines emission :=
  fun _ => rfl

theorem refines_whole {next next' : List Instruction → Emission} (h : first.Refines first')
    (hnext : ∀ lowered, (next lowered).Refines (next' lowered)) :
    (first.whole next).Refines (first'.whole next') := by
  intro hfinished
  have hfirst : first.Finished := not_imp_not.1 not_finished_whole hfinished
  rw [h hfirst]
  obtain ⟨lowered, stop⟩ := first
  cases stop with
  | none => exact hnext lowered hfinished
  | some stop => rfl

theorem refines_andThen (hfirst : first.Refines first') (hsecond : second.Refines second') :
    (first.andThen second).Refines (first'.andThen second') := by
  intro hfinished
  have hfinished' : first.Finished :=
    not_imp_not.1 (fun h => not_finished_andThen (Or.inl h)) hfinished
  rw [hfirst hfinished']
  obtain ⟨lowered, stop⟩ := first
  cases stop with
  | none =>
      have hrest : second.Finished := not_imp_not.1
        (fun h => not_finished_andThen (Or.inr ⟨⟨lowered, rfl⟩, h⟩)) hfinished
      rw [hsecond hrest]
  | some stop => rfl

theorem refines_times (h : first.Refines first') (n : Nat) :
    (first.times n).Refines (first'.times n) := by
  induction n with
  | zero => exact refines_refl _
  | succ n ih =>
      rw [times_succ, times_succ]
      exact refines_andThen h ih

theorem refines_bind {value : Except LoweringError α} {next next' : α → Emission}
    (h : ∀ a, (next a).Refines (next' a)) : (bind value next).Refines (bind value next') := by
  cases value with
  | ok a => exact h a
  | error error => exact refines_refl _

theorem refines_build {value : Except CircuitError α} {next next' : α → Emission}
    (h : ∀ a, (next a).Refines (next' a)) : (build value next).Refines (build value next') :=
  refines_bind h

theorem refines_sequence {β : Type} {part part' : β → Emission} {items : List β}
    (h : ∀ item, (part item).Refines (part' item)) :
    (sequence (items.map part)).Refines (sequence (items.map part')) := by
  induction items with
  | nil => exact refines_refl _
  | cons item items ih =>
      rw [List.map_cons, List.map_cons, sequence_cons, sequence_cons]
      exact refines_andThen (h item) ih

end Refinement

end Emission

section Ends

/-! Ladders and roots never lack depth. -/

open Emission

theorem finished_toffoliLadder (controls : List Nat) (target : Nat) (borrowed : List Nat) :
    (toffoliLadder controls target borrowed).Finished := by
  unfold toffoliLadder
  split
  · refine finished_times (finished_sequence_of_forall fun emission hemission => ?_) 2
    have hrungs : ∀ carry controls targets, ∀ rung ∈ ladderRungs carry controls targets,
        rung.Finished := by
      intro carry controls targets rung hrung
      rw [ladderRungs_eq_map] at hrung
      obtain ⟨triple, -, rfl⟩ := List.mem_map.1 hrung
      exact finished_apply _ _
    rcases List.mem_append.1 hemission with hdown | hup
    · exact hrungs _ _ _ _ (List.mem_reverse.1 hdown)
    · rcases List.mem_cons.1 hup with rfl | hup
      · exact finished_apply _ _
      · exact hrungs _ _ _ _ (List.dropLast_subset _ hup)
  · exact finished_done

theorem finished_directX (controls : List Nat) (target : Nat) (free : List Nat) :
    (directX controls target free).Finished := by
  unfold directX
  split
  · exact finished_apply _ _
  · exact finished_apply _ _
  · exact finished_apply _ _
  · exact finished_toffoliLadder _ _ _

theorem finished_halvedX (controls : List Nat) (target borrowed : Nat) (rest : List Nat) :
    (halvedX controls target borrowed rest).Finished :=
  finished_times (finished_andThen (finished_directX _ _ _) fun _ _ => finished_directX _ _ _) 2

theorem finished_borrowingX (controls : List Nat) (target borrowed : Nat) (rest : List Nat) :
    (borrowingX controls target borrowed rest).Finished := by
  unfold borrowingX
  split
  · exact finished_directX _ _ _
  · exact finished_halvedX _ _ _ _

theorem finished_rootLadder (op : Operation) (controls : List Nat) (target : Nat)
    (free : List Nat) : (rootLadder op controls target free).Finished := by
  induction controls generalizing op free with
  | nil => exact finished_apply _ _
  | cons last rest ih =>
      cases rest with
      | nil => exact finished_build fun _ _ => finished_apply _ _
      | cons second others =>
          refine finished_build fun root _ => finished_build fun unroot _ =>
            finished_sequence_of_forall ?_
          simp only [List.forall_mem_cons, List.not_mem_nil, false_imp_iff, implies_true,
            and_true]
          exact ⟨finished_build fun _ _ => finished_apply _ _, finished_borrowingX _ _ _ _,
            finished_build fun _ _ => finished_apply _ _, finished_borrowingX _ _ _ _,
            ih root (free ++ [last])⟩

theorem finished_controlledRoot (op : Operation) (controls : List Nat) (target : Nat)
    (free : List Nat) : (controlledRoot op controls target free).Finished :=
  finished_rootLadder _ _ _ _

theorem finished_controlledX (controls : List Nat) (target : Nat) (free : List Nat) :
    (controlledX controls target free).Finished := by
  unfold controlledX
  split
  · exact finished_directX _ _ _
  · split
    · exact finished_halvedX _ _ _ _
    · exact finished_controlledRoot _ _ _ _

end Ends

end GateAlgebra
