import GateAlgebra.Proofs.Broadcast
import GateAlgebra.Proofs.ControlledRoot
import GateAlgebra.Proofs.Finished
/-!
Failures of the synthesis of multi-controlled gates.  With controls and a target that are
distinct and not to be borrowed, the only instruction that is ever refused is a Toffoli gate
on a qubit that may be borrowed twice.
-/

namespace GateAlgebra

open Emission

/-- A Toffoli gate was refused, since it holds a qubit twice that a list holds twice. -/
def Stop.RepeatsIn (support : List Nat) (stop : Stop) : Prop :=
  ∃ q, 2 ≤ support.count q ∧
    stop = .failed (.circuit (.invalidTarget q .repeatedInList "ccx"))

section Repeats

variable {support larger controls free : List Nat} {target : Nat} {stop : Stop}

theorem Stop.RepeatsIn.mono (hcount : ∀ q, support.count q ≤ larger.count q)
    (h : stop.RepeatsIn support) : stop.RepeatsIn larger := by
  obtain ⟨q, hq, rfl⟩ := h
  exact ⟨q, hq.trans (hcount q), rfl⟩

/-- Distinct qubits are not repeated. -/
theorem Stop.not_repeatsIn (hnodup : support.Nodup) : ¬stop.RepeatsIn support := by
  rintro ⟨q, hq, -⟩
  have hle := List.nodup_iff_count_le_one.1 hnodup q
  omega

/-- What is repeated among all qubits is repeated among those that may be borrowed. -/
theorem Stop.RepeatsIn.of_disjoint (hnodup : (controls ++ [target]).Nodup)
    (hdisjoint : ∀ q ∈ free, q ∉ controls ++ [target])
    (h : stop.RepeatsIn (controls ++ target :: free)) : stop.RepeatsIn free := by
  obtain ⟨q, hq, rfl⟩ := h
  refine ⟨q, ?_, rfl⟩
  have hsplit : controls ++ target :: free = (controls ++ [target]) ++ free := by simp
  rw [hsplit, List.count_append] at hq
  have hle := List.nodup_iff_count_le_one.1 hnodup q
  have hmem : q ∈ free := List.count_pos_iff.1 (by omega)
  have hnone : (controls ++ [target]).count q = 0 :=
    List.count_eq_zero_of_not_mem (hdisjoint q hmem)
  omega

theorem toffoli_stops {a b : Nat}
    (hcount : ∀ q, [a, b, target].count q ≤ support.count q) :
    (toffoli a b target).StopsOnly (Stop.RepeatsIn support) := by
  intro stop hstop
  unfold toffoli apply at hstop
  cases hmade : Instruction.onQubits .ccx [a, b, target] with
  | ok inst =>
      rw [hmade] at hstop
      cases hstop
  | error e =>
      rw [hmade] at hstop
      obtain rfl := Option.some.inj hstop
      rcases make_eq_error ⟨rfl, rfl, rfl⟩ hmade with ⟨o, hop, -⟩ | ⟨part, hpart, q, hq, rfl⟩
      · cases hop
      · simp only [List.mem_cons, List.not_mem_nil, or_false] at hpart
        rcases hpart with rfl | rfl | rfl
        · exact ⟨q, (List.duplicate_iff_two_le_count.1 hq).trans (hcount q), rfl⟩
        · cases hq
        · cases hq

theorem toffoliLadder_stops {borrowed : List Nat} :
    (toffoliLadder controls target borrowed).StopsOnly
      (Stop.RepeatsIn (controls ++ target :: borrowed)) := by
  unfold toffoliLadder
  split
  · rename_i first second controls carry borrowed
    have hrungs : ∀ rung ∈ ladderRungs carry controls (borrowed ++ [target]),
        rung.StopsOnly
          (Stop.RepeatsIn (first :: second :: controls ++ target :: carry :: borrowed)) := by
      intro rung hrung
      rw [ladderRungs_eq_map] at hrung
      obtain ⟨triple, htriple, rfl⟩ := List.mem_map.1 hrung
      refine toffoli_stops fun q => ((sublist_rung htriple).count_le q).trans ?_
      simp only [List.cons_append, List.count_append, List.count_cons, List.count_nil]
      omega
    refine stopsOnly_times (stopsOnly_sequence fun rung hrung => ?_) 2
    rcases List.mem_append.1 hrung with hdown | hup
    · exact hrungs rung (List.mem_reverse.1 hdown)
    · rcases List.mem_cons.1 hup with rfl | hup
      · refine toffoli_stops fun q => ?_
        simp only [List.cons_append, List.count_append, List.count_cons, List.count_nil]
        omega
      · exact hrungs rung (List.dropLast_subset _ hup)
  · exact stopsOnly_done

theorem directX_stops (hnodup : (controls ++ [target]).Nodup) :
    (directX controls target free).StopsOnly
      (Stop.RepeatsIn (controls ++ target :: free)) := by
  unfold directX
  split
  · exact stopsOnly_apply rfl rfl hnodup
  · exact stopsOnly_apply rfl rfl hnodup
  · rename_i a b
    refine toffoli_stops fun q => ?_
    simp only [List.cons_append, List.nil_append, List.count_cons, List.count_nil]
    omega
  · refine toffoliLadder_stops.mono fun stop => Stop.RepeatsIn.mono fun q => ?_
    have htake := (List.take_sublist (controls.length - 2) free).count_le q
    simp only [List.count_append, List.count_cons]
    omega

theorem halvedX_stops {borrowed : Nat} {rest : List Nat} (hnodup : (controls ++ [target]).Nodup)
    (hborrowed : borrowed ∉ controls ++ [target]) :
    (halvedX controls target borrowed rest).StopsOnly
      (Stop.RepeatsIn (controls ++ target :: borrowed :: rest)) := by
  unfold halvedX
  dsimp only
  generalize (controls.length + 2 + rest.length) / 2 = half
  have hsplit := List.take_append_drop half controls
  generalize controls.take half = first at hsplit ⊢
  generalize controls.drop half = second at hsplit ⊢
  subst hsplit
  refine stopsOnly_times (stopsOnly_andThen ?_ fun _ _ => ?_) 2
  · refine (directX_stops (by grind)).mono fun stop => Stop.RepeatsIn.mono fun q => ?_
    simp only [List.count_append, List.count_cons]
    omega
  · refine (directX_stops (by grind)).mono fun stop => Stop.RepeatsIn.mono fun q => ?_
    simp only [List.count_append, List.count_cons, List.count_nil]
    omega

theorem borrowingX_stops {borrowed : Nat} {rest : List Nat}
    (hnodup : (controls ++ [target]).Nodup) (hborrowed : borrowed ∉ controls ++ [target]) :
    (borrowingX controls target borrowed rest).StopsOnly
      (Stop.RepeatsIn (controls ++ target :: borrowed :: rest)) := by
  unfold borrowingX
  split
  · exact directX_stops hnodup
  · exact halvedX_stops hnodup hborrowed

theorem control_one_stops {P : Stop → Prop} {op : Operation} (hunitary : op.isUnitary = true)
    (hqubit : op.numQubits = 1) {control : Nat} (hne : control ≠ target) :
    (build (op.control 1) fun controlled => apply controlled [control, target]).StopsOnly P := by
  rw [Operation.control_eq_ok Nat.one_pos hunitary, build_ok]
  exact stopsOnly_apply (by simp [hunitary]) (by simp [hqubit]) (by simp [hne])

theorem rootLadder_stops {op : Operation} (hunitary : op.isUnitary = true)
    (hqubit : op.numQubits = 1) (hnodup : (controls ++ [target]).Nodup) :
    (rootLadder op controls target free).StopsOnly
      (Stop.RepeatsIn (controls ++ target :: free)) := by
  induction controls generalizing op free with
  | nil => exact stopsOnly_apply hunitary (by simp [hqubit]) (by simp)
  | cons last rest ih =>
      have hne : last ≠ target := by grind
      have hborrow : (rest.reverse ++ [last]).Nodup := by grind
      have htarget : target ∉ rest.reverse ++ [last] := by grind
      have hothers : (rest ++ [target]).Nodup := by grind
      cases hrest : rest with
      | nil => exact control_one_stops hunitary hqubit hne
      | cons second others =>
          have hflip : (borrowingX rest.reverse last target free).StopsOnly
              (Stop.RepeatsIn (last :: rest ++ target :: free)) := by
            refine (borrowingX_stops hborrow htarget).mono fun stop => Stop.RepeatsIn.mono
              fun q => ?_
            simp only [List.cons_append, List.count_append, List.count_cons, List.count_reverse]
            omega
          have hlast : (rootLadder (op.raise .half) rest target (free ++ [last])).StopsOnly
              (Stop.RepeatsIn (last :: rest ++ target :: free)) := by
            refine (ih (by simpa) (by simpa) hothers).mono fun stop => Stop.RepeatsIn.mono
              fun q => ?_
            simp only [List.cons_append, List.count_append, List.count_cons, List.count_nil]
            omega
          rw [← hrest, rootLadder_cons hunitary (by simp [hrest])]
          refine stopsOnly_sequence ?_
          simp only [List.forall_mem_cons, List.not_mem_nil, false_imp_iff, implies_true,
            and_true]
          exact ⟨control_one_stops (by simpa) (by simpa) hne, hflip,
            control_one_stops (by simpa) (by simpa) hne, hflip, hlast⟩

variable (hnodup : (controls ++ [target]).Nodup)
  (hdisjoint : ∀ q ∈ free, q ∉ controls ++ [target])

include hnodup hdisjoint

theorem controlledRoot_stops {op : Operation} (hunitary : op.isUnitary = true)
    (hqubit : op.numQubits = 1) :
    (controlledRoot op controls target free).StopsOnly (Stop.RepeatsIn free) := by
  refine (rootLadder_stops hunitary hqubit (by grind)).mono fun stop h =>
    (h.mono fun q => ?_).of_disjoint hnodup hdisjoint
  simp only [List.count_append, List.count_reverse, le_refl]

theorem controlledX_stops :
    (controlledX controls target free).StopsOnly (Stop.RepeatsIn free) := by
  unfold controlledX
  split
  · exact (directX_stops hnodup).mono fun stop h => h.of_disjoint hnodup hdisjoint
  · split
    · refine (halvedX_stops hnodup (hdisjoint _ List.mem_cons_self)).mono fun stop h => ?_
      exact h.of_disjoint hnodup hdisjoint
    · exact controlledRoot_stops hnodup hdisjoint rfl rfl

end Repeats

end GateAlgebra
