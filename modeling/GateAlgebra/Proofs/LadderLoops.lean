import GateAlgebra.Proofs.ControlledX
/-!
Ladders that come back to a borrowed qubit.  Where the controls of the detour are zero, such a
ladder acts as the one without it.  So it flips the target although not all controls are one.
-/

namespace GateAlgebra

section Zeros

variable {Z : List Nat}

/-- The same on all assignments that are zero on the listed qubits, which stay zero. -/
def AgreeAtZeros (Z : List Nat) (f g : Function.End Assignment) : Prop :=
  ∀ s : Assignment, (∀ z ∈ Z, s z = false) → f s = g s ∧ ∀ z ∈ Z, g s z = false

namespace AgreeAtZeros

theorem one : AgreeAtZeros Z 1 1 :=
  fun _ hs => ⟨rfl, hs⟩

theorem mul {f f' g g' : Function.End Assignment} (hf : AgreeAtZeros Z f f')
    (hg : AgreeAtZeros Z g g') : AgreeAtZeros Z (f * g) (f' * g') := by
  intro s hs
  obtain ⟨hsame, hzeros⟩ := hg s hs
  obtain ⟨hsame', hzeros'⟩ := hf (g' s) hzeros
  exact ⟨(congrArg f hsame).trans hsame', hzeros'⟩

theorem toggle_self {target : Nat} (htarget : target ∉ Z) (controls : List Nat) :
    AgreeAtZeros Z (toggle controls target) (toggle controls target) := by
  refine fun s hs => ⟨rfl, fun z hz => ?_⟩
  rw [toggle_apply_of_ne _ (ne_of_mem_of_not_mem hz htarget), hs z hz]

/-- A toggle with a control that is zero does nothing. -/
theorem toggle_one {z target : Nat} {controls : List Nat} (hz : z ∈ Z) (hmem : z ∈ controls) :
    AgreeAtZeros Z (toggle controls target) 1 := by
  refine fun s hs => ⟨?_, hs⟩
  have hall : controls.all s = false := List.all_eq_false.2 ⟨z, hmem, by simp [hs z hz]⟩
  rw [toggle, hall, Bool.xor_false, Function.update_eq_self]
  rfl

theorem rungs_self {part : List (Nat × Nat × Nat)} (h : ∀ rung ∈ part, rung.2.2 ∉ Z) :
    AgreeAtZeros Z (part.map rungToggle).prod (part.map rungToggle).prod := by
  induction part with
  | nil => exact one
  | cons rung part ih =>
      obtain ⟨hrung, hpart⟩ := List.forall_mem_cons.1 h
      exact (toggle_self hrung _).mul (ih hpart)

theorem rungs_one {part : List (Nat × Nat × Nat)} (h : ∀ rung ∈ part, rung.1 ∈ Z) :
    AgreeAtZeros Z (part.map rungToggle).prod 1 := by
  induction part with
  | nil => exact one
  | cons rung part ih =>
      obtain ⟨hrung, hpart⟩ := List.forall_mem_cons.1 h
      have hidle : AgreeAtZeros Z (rungToggle rung) 1 := toggle_one hrung (by simp)
      simpa using hidle.mul (ih hpart)

/-- Rungs whose controls are zero may be left out. -/
theorem detour {before idle after : List (Nat × Nat × Nat)}
    (hbefore : ∀ rung ∈ before, rung.2.2 ∉ Z) (hidle : ∀ rung ∈ idle, rung.1 ∈ Z)
    (hafter : ∀ rung ∈ after, rung.2.2 ∉ Z) :
    AgreeAtZeros Z ((before ++ (idle ++ after)).map rungToggle).prod
      ((before ++ after).map rungToggle).prod := by
  have hagree := (rungs_self hbefore).mul ((rungs_one hidle).mul (rungs_self hafter))
  simpa using hagree

end AgreeAtZeros

end Zeros

section Detours

variable {P Z : List Nat} {carry target : Nat}

theorem rungs_append {carry : Nat} {controls targets : List Nat}
    (hlength : controls.length = targets.length) (controls' targets' : List Nat) :
    rungs carry (controls ++ controls') (targets ++ targets') =
      rungs carry controls targets ++ rungs (targets.getLastD carry) controls' targets' := by
  induction controls generalizing carry targets with
  | nil =>
      obtain rfl := List.eq_nil_of_length_eq_zero hlength.symm
      rfl
  | cons control controls ih =>
      cases targets with
      | nil => cases hlength
      | cons next targets =>
          rw [List.getLastD_cons]
          exact congrArg _ (ih (Nat.succ.inj hlength))

/-- A list that holds a qubit twice goes on, somewhere, from where it was before. -/
theorem exists_detour {borrowed : List Nat} (h : ¬(carry :: borrowed).Nodup) :
    ∃ before around after, borrowed = before ++ (around ++ after) ∧ around ≠ [] ∧
      around.getLastD (before.getLastD carry) = before.getLastD carry := by
  induction borrowed generalizing carry with
  | nil => exact absurd (List.nodup_singleton carry) h
  | cons next rest ih =>
      by_cases hmem : carry ∈ next :: rest
      · obtain ⟨front, after, hsplit⟩ := List.append_of_mem hmem
        exact ⟨[], front ++ [carry], after, by simpa using hsplit, by simp, by simp⟩
      · have hrest : ¬(next :: rest).Nodup := fun hnodup => h (List.nodup_cons.2 ⟨hmem, hnodup⟩)
        obtain ⟨before, around, after, rfl, hne, hlast⟩ := ih hrest
        exact ⟨next :: before, around, after, rfl, hne, by rwa [List.getLastD_cons]⟩

/-- Over zeros, a round goes without the detour. -/
theorem ladderRound_detour {before around after controls controls' : List Nat}
    (hbefore : controls.length = before.length) (haround : Z.length = around.length)
    (hafter : controls'.length = after.length) (hne : after ≠ [])
    (hlast : around.getLastD (before.getLastD carry) = before.getLastD carry)
    (hcarry : carry ∉ Z) (htargets : ∀ q ∈ before ++ after, q ∉ Z) :
    AgreeAtZeros Z
      (ladderRound P carry (controls ++ (Z ++ controls')) (before ++ (around ++ after)))
      (ladderRound P carry (controls ++ controls') (before ++ after)) := by
  let left := rungs carry controls before
  let idle := rungs (before.getLastD carry) Z around
  let right := rungs (before.getLastD carry) controls' after
  have hright : right ≠ [] := by
    obtain ⟨q, qs, rfl⟩ := List.exists_cons_of_ne_nil hne
    obtain ⟨control, others, rfl⟩ := List.exists_cons_of_length_eq_add_one hafter
    exact List.cons_ne_nil _ _
  have hlong : rungs carry (controls ++ (Z ++ controls')) (before ++ (around ++ after)) =
      left ++ (idle ++ right) := by
    rw [rungs_append hbefore, rungs_append haround, hlast]
  have hshort : rungs carry (controls ++ controls') (before ++ after) = left ++ right :=
    rungs_append hbefore _ _
  have hleftTargets : ∀ rung ∈ left, rung.2.2 ∉ Z := fun rung hrung =>
    htargets _ (List.mem_append_left _ (mem_rungs hrung).2.2)
  have hidle : ∀ rung ∈ idle, rung.1 ∈ Z := fun rung hrung => (mem_rungs hrung).1
  have hrightTargets : ∀ rung ∈ right, rung.2.2 ∉ Z := fun rung hrung =>
    htargets _ (List.mem_append_right _ (mem_rungs hrung).2.2)
  have hdown := AgreeAtZeros.detour hleftTargets hidle hrightTargets
  have hup : AgreeAtZeros Z
      (((left ++ (idle ++ right)).dropLast.reverse).map rungToggle).prod
      (((left ++ right).dropLast.reverse).map rungToggle).prod := by
    have hreversed : AgreeAtZeros Z
        ((right.dropLast.reverse ++ (idle.reverse ++ left.reverse)).map rungToggle).prod
        ((right.dropLast.reverse ++ left.reverse).map rungToggle).prod := by
      refine .detour (fun rung hrung => ?_) (fun rung hrung => ?_) (fun rung hrung => ?_)
      · exact hrightTargets rung (List.dropLast_subset _ (List.mem_reverse.1 hrung))
      · exact hidle rung (List.mem_reverse.1 hrung)
      · exact hleftTargets rung (List.mem_reverse.1 hrung)
    rw [List.dropLast_append_of_ne_nil (by simp [hright]),
      List.dropLast_append_of_ne_nil hright, List.dropLast_append_of_ne_nil hright]
    simpa using hreversed
  rw [ladderRound, ladderRound, climbed, climbed, hlong, hshort]
  exact (hup.mul (AgreeAtZeros.toggle_self hcarry P)).mul hdown

theorem exists_append_of_le {l : List Nat} {n : Nat} (h : n ≤ l.length) :
    ∃ front back, l = front ++ back ∧ front.length = n :=
  ⟨l.take n, l.drop n, (List.take_append_drop n l).symm, List.length_take_of_le h⟩

/-- Two rounds flip the target when just the listed controls are zero. -/
def FlipsAtZeros (P Z : List Nat) (carry target : Nat) (controls borrowed : List Nat) : Prop :=
  ∀ s : Assignment, (∀ z ∈ Z, s z = false) → (∀ x ∈ P ++ controls, x ∉ Z → s x = true) →
    (ladderRound P carry controls (borrowed ++ [target]) *
      ladderRound P carry controls (borrowed ++ [target])) s target = !s target

theorem flipsAtZeros_of_nodup {controls borrowed : List Nat}
    (hlength : controls.length = borrowed.length + 1)
    (hnodup : (P ++ controls ++ carry :: (borrowed ++ [target])).Nodup) :
    FlipsAtZeros P [] carry target controls borrowed := by
  intro s _ hones
  have hall : (P ++ controls).all s = true :=
    List.all_eq_true.2 fun x hx => hones x hx List.not_mem_nil
  rw [ladderRound_mul_self hlength hnodup, toggle_apply_self, hall, Bool.xor_true]

theorem not_mem_idle {front idle back : List Nat} (h : (P ++ (front ++ (idle ++ back))).Nodup) :
    ∀ x ∈ P ++ (front ++ back), x ∉ idle := by
  have hperm : (P ++ (front ++ (idle ++ back))).Perm ((P ++ (front ++ back)) ++ idle) := by
    rw [List.append_assoc, List.append_assoc]
    exact (List.perm_append_comm.append_left front).append_left P
  exact fun x hx hidle => List.disjoint_of_nodup_append (hperm.nodup_iff.1 h) hx hidle

/-- The controls of a detour may be zero, too. -/
theorem FlipsAtZeros.detour {before around after front idle back : List Nat}
    (h : FlipsAtZeros P Z carry target (front ++ back) (before ++ after))
    (hfront : front.length = before.length) (hidle : idle.length = around.length)
    (hback : back.length = after.length + 1)
    (hlast : around.getLastD (before.getLastD carry) = before.getLastD carry)
    (hcontrols : (P ++ (front ++ (idle ++ back))).Nodup)
    (hdisjoint : ∀ q ∈ carry :: (before ++ (around ++ after) ++ [target]),
      q ∉ P ++ (front ++ (idle ++ back))) :
    FlipsAtZeros P (idle ++ Z) carry target (front ++ (idle ++ back))
      (before ++ (around ++ after)) := by
  have hround : AgreeAtZeros idle
      (ladderRound P carry (front ++ (idle ++ back)) (before ++ (around ++ (after ++ [target]))))
      (ladderRound P carry (front ++ back) (before ++ (after ++ [target]))) := by
    refine ladderRound_detour hfront hidle ?_ (by simp) hlast ?_ fun q hq hmem => ?_
    · rw [hback, List.length_append, List.length_singleton]
    · exact fun hmem => hdisjoint carry List.mem_cons_self (by simp [hmem])
    · exact hdisjoint q (by grind) (by simp [hmem])
  intro s hzeros hones
  obtain ⟨hidleZeros, hZ⟩ := List.forall_mem_append.1 hzeros
  have hsame := ((hround.mul hround) s hidleZeros).1
  rw [List.append_assoc, List.append_assoc, hsame, ← List.append_assoc]
  refine h s hZ fun x hx hxZ => hones x (by grind) ?_
  rw [List.mem_append, not_or]
  exact ⟨not_mem_idle hcontrols x hx, hxZ⟩

/-- There is a set of controls that may be zero when the target flips.  It holds a control if
the ladder comes back to a borrowed qubit. -/
theorem exists_zeros {controls borrowed : List Nat}
    (hlength : controls.length = borrowed.length + 1) (hcontrols : (P ++ controls).Nodup)
    (hdisjoint : ∀ q ∈ carry :: (borrowed ++ [target]), q ∉ P ++ controls)
    (htarget : target ∉ carry :: borrowed) :
    ∃ Z, Z ⊆ controls ∧ (¬(carry :: borrowed).Nodup → Z ≠ []) ∧
      FlipsAtZeros P Z carry target controls borrowed := by
  induction hsize : borrowed.length using Nat.strong_induction_on
    generalizing controls borrowed with
  | h size ih =>
      by_cases hnodup : (carry :: borrowed).Nodup
      · have hends : (carry :: borrowed ++ [target]).Nodup :=
          hnodup.append (List.nodup_singleton target) (List.disjoint_singleton.2 htarget)
        have hall : (P ++ controls ++ carry :: (borrowed ++ [target])).Nodup :=
          hcontrols.append hends fun q hq hmem => hdisjoint q hmem hq
        exact ⟨[], by simp, fun h => absurd hnodup h, flipsAtZeros_of_nodup hlength hall⟩
      · obtain ⟨before, around, after, rfl, hne, hlast⟩ := exists_detour hnodup
        have hpositive := List.length_pos_of_ne_nil hne
        simp only [List.length_append] at hlength hsize
        obtain ⟨front, others, rfl, hfront⟩ :=
          exists_append_of_le (l := controls) (n := before.length) (by omega)
        rw [List.length_append] at hlength
        obtain ⟨idle, back, rfl, hidle⟩ :=
          exists_append_of_le (l := others) (n := around.length) (by omega)
        rw [List.length_append] at hlength
        -- the way without the detour is shorter
        have hkept : (P ++ (front ++ back)).Sublist (P ++ (front ++ (idle ++ back))) :=
          (List.Sublist.refl P).append
            ((List.Sublist.refl front).append (List.sublist_append_right idle back))
        have hway : (carry :: (before ++ after)).Sublist
            (carry :: (before ++ (around ++ after))) :=
          ((List.Sublist.refl before).append (List.sublist_append_right around after)).cons_cons
            carry
        have hless : (before ++ after).length < size := by
          rw [List.length_append]
          omega
        have hcount : (front ++ back).length = (before ++ after).length + 1 := by
          rw [List.length_append, List.length_append]
          omega
        have hfar : ∀ q ∈ carry :: (before ++ after ++ [target]), q ∉ P ++ (front ++ back) :=
          fun q hq hmem => hdisjoint q
            ((hway.append (List.Sublist.refl [target])).subset hq) (hkept.subset hmem)
        obtain ⟨Z, hZ, -, hflips⟩ := ih _ hless hcount (hcontrols.sublist hkept) hfar
          (fun hmem => htarget (hway.subset hmem)) rfl
        have hzeros : idle ++ Z ⊆ front ++ (idle ++ back) := by
          clear * - hZ
          grind
        refine ⟨idle ++ Z, hzeros, fun _ => ?_,
          hflips.detour hfront hidle (by omega) hlast hcontrols hdisjoint⟩
        exact List.append_ne_nil_of_left_ne_nil (List.ne_nil_of_length_pos (by omega)) Z

/-- A ladder that comes back to a borrowed qubit is no toggle of its target. -/
theorem exists_misfire {controls borrowed : List Nat}
    (hlength : controls.length = borrowed.length + 1) (hcontrols : (P ++ controls).Nodup)
    (hdisjoint : ∀ q ∈ carry :: (borrowed ++ [target]), q ∉ P ++ controls)
    (htarget : target ∉ carry :: borrowed) (hloop : ¬(carry :: borrowed).Nodup) :
    ∃ s : Assignment, (ladderRound P carry controls (borrowed ++ [target]) *
      ladderRound P carry controls (borrowed ++ [target])) s target ≠
        (s target ^^ (P ++ controls).all s) := by
  obtain ⟨Z, hZ, hne, hflips⟩ := exists_zeros hlength hcontrols hdisjoint htarget
  obtain ⟨z, hz⟩ := List.exists_mem_of_ne_nil Z (hne hloop)
  let s : Assignment := fun q => decide (q ∉ Z)
  have hall : (P ++ controls).all s = false :=
    List.all_eq_false.2 ⟨z, List.mem_append_right P (hZ hz), by simp [s, hz]⟩
  refine ⟨s, ?_⟩
  rw [hflips s (by simp [s]) (by simp [s]), hall, Bool.xor_false]
  exact Bool.not_ne_self _

end Detours

end GateAlgebra
