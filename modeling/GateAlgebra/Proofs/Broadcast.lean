import Mathlib.Data.List.Duplicate
import Mathlib.Order.Bounds.Basic
import GateAlgebra.Circuit.Broadcast
import GateAlgebra.Proofs.Emission
import GateAlgebra.Proofs.Outcomes
/-!
What broadcasting does.  An operation on groups of targets becomes one instruction for each
place of the shortest register, or nothing at all; and what is wrong is reported in the numbering
of the groups.
-/

namespace GateAlgebra

/-- The number of instructions that groups ask for: the least length of those with several
indices, and one if there are none. -/
def ShortestRegister (groups : List Target) (k : Nat) : Prop :=
  IsLeast {n | 1 < n ∧ ∃ g ∈ groups, g.indices.length = n} k ∨
    k = 1 ∧ ∀ g ∈ groups, g.indices.length ≤ 1

/-- The index that a group has for the instruction number `i`: its only one, or that at the
place `i`. -/
def Target.Takes (i : Nat) (g : Target) (x : Nat) : Prop :=
  g.indices = [x] ∨ 1 < g.indices.length ∧ g.indices[i]? = some x

/-- The parts of a list of targets: qubits, bits and z-registers. -/
def Arity.parts (arity : Arity) (targets : List Nat) : List (List Nat) :=
  [targets.take arity.qubits, (targets.drop arity.qubits).take arity.bits,
    (targets.drop arity.qubits).drop arity.bits]

/-- The instruction on targets that are counted from one. -/
def Operation.onParts (op : Operation) (targets : List Nat) : Instruction :=
  let zeroBased := targets.map (· - 1)
  ⟨op, zeroBased.take op.arity.qubits, (zeroBased.drop op.arity.qubits).take op.arity.bits,
    (zeroBased.drop op.arity.qubits).drop op.arity.bits⟩

/-- Why groups are refused.  Targets are counted from one. -/
inductive BroadcastFault (op : Operation) (groups : List Target) : CircuitError → Prop where
  | count (h : groups.length ≠ op.arity.total) :
      BroadcastFault op groups (.arityMismatch op.name op.arity.total groups.length)
  | emptyGroup {g : Target} (hg : g ∈ groups) (h : g.indices = []) :
      BroadcastFault op groups (.invalidTarget 0 .emptyGroup op.name)
  | zeroIndex {g : Target} (hg : g ∈ groups) (h : 0 ∈ g.indices) :
      BroadcastFault op groups (.invalidTarget 0 .zeroIndex op.name)
  | repeatedInGroup {g : Target} {x : Nat} (hg : g ∈ groups) (h : List.Duplicate x g.indices) :
      BroadcastFault op groups (.invalidTarget x .repeatedInGroup op.name)
  | operator {o : Observable} (h : op = .observable o) :
      BroadcastFault op groups (.nonGateOperator o.name)
  | repeatedInList {k i x : Nat} {zip part : List Nat} (hk : ShortestRegister groups k)
      (hi : i < k) (hzip : List.Forall₂ (Target.Takes i) groups zip)
      (hpart : part ∈ op.arity.parts zip) (h : List.Duplicate x part) :
      BroadcastFault op groups (.invalidTarget x .repeatedInList op.name)

section Repeats

variable {seen : Std.HashSet Nat} {indices : List Nat} {x : Nat}

theorem duplicate_of_firstRepeat (h : firstRepeat seen indices = some x) :
    x ∈ indices ∧ x ∈ seen ∨ List.Duplicate x indices := by
  induction indices generalizing seen with
  | nil => cases h
  | cons head tail ih =>
      by_cases hseen : head ∈ seen
      · simp only [firstRepeat, Std.HashSet.contains_iff_mem, hseen, if_true] at h
        obtain rfl := Option.some.inj h
        exact Or.inl ⟨List.mem_cons_self, hseen⟩
      · simp only [firstRepeat, Std.HashSet.contains_iff_mem, hseen, if_false] at h
        rw [List.duplicate_cons_iff]
        rcases ih h with ⟨hmem, hinsert⟩ | htail
        · rcases Std.HashSet.mem_insert.1 hinsert with hhead | hold
          · exact Or.inr (Or.inl ⟨eq_of_beq hhead, hmem⟩)
          · exact Or.inl ⟨List.mem_cons_of_mem head hmem, hold⟩
        · exact Or.inr (Or.inr htail)

theorem firstFault_eq_none (h : Target.firstFault seen indices = none) :
    0 ∉ indices ∧ firstRepeat seen indices = none := by
  induction indices generalizing seen with
  | nil => exact ⟨List.not_mem_nil, rfl⟩
  | cons head tail ih =>
      unfold Target.firstFault at h
      split at h
      · cases h
      · rename_i hzero
        split at h
        · cases h
        · rename_i hseen
          obtain ⟨hrest, hrepeat⟩ := ih h
          refine ⟨?_, (if_neg hseen).trans hrepeat⟩
          exact fun hmem => (List.mem_cons.1 hmem).elim (fun hhead => hzero hhead.symm) hrest

/-- The first fault of a group is a zero or the first repeat. -/
theorem firstFault_eq_some {i : Nat} {fault : TargetFault}
    (h : Target.firstFault seen indices = some (i, fault)) :
    (i, fault) = (0, .zeroIndex) ∧ 0 ∈ indices ∨
      fault = .repeatedInGroup ∧ firstRepeat seen indices = some i := by
  induction indices generalizing seen with
  | nil => cases h
  | cons head tail ih =>
      unfold Target.firstFault at h
      split at h
      · rename_i hzero
        exact Or.inl ⟨(Option.some.inj h).symm, hzero ▸ List.mem_cons_self⟩
      · split at h
        · rename_i hseen
          obtain ⟨rfl, rfl⟩ := Prod.mk.inj (Option.some.inj h)
          exact Or.inr ⟨rfl, if_pos hseen⟩
        · rename_i hseen
          rcases ih h with ⟨hfault, hmem⟩ | ⟨hfault, hrepeat⟩
          · exact Or.inl ⟨hfault, List.mem_cons_of_mem head hmem⟩
          · exact Or.inr ⟨hfault, (if_neg hseen).trans hrepeat⟩

end Repeats

section Groups

variable {op : Operation} {groups : List Target} {g : Target}

theorem Target.fault?_eq_none (h : g.fault? = none) :
    g.indices ≠ [] ∧ 0 ∉ g.indices ∧ g.indices.Nodup := by
  unfold fault? at h
  split at h
  · cases h
  · rename_i hempty
    obtain ⟨hzero, hrepeat⟩ := firstFault_eq_none h
    exact ⟨fun hnil => hempty (by rw [hnil]; rfl), hzero,
      ((firstRepeat_eq_none_iff ∅ g.indices).1 hrepeat).1⟩

/-- What is found wrong with a group is wrong with it. -/
theorem broadcastFault_of_fault? (hg : g ∈ groups) {i : Nat} {fault : TargetFault}
    (h : g.fault? = some (i, fault)) :
    BroadcastFault op groups (.invalidTarget i fault op.name) := by
  unfold Target.fault? at h
  split at h
  · rename_i hempty
    obtain ⟨rfl, rfl⟩ := Prod.mk.inj (Option.some.inj h)
    exact .emptyGroup hg (List.isEmpty_iff.1 hempty)
  · rcases firstFault_eq_some h with ⟨hfault, hzero⟩ | ⟨rfl, hrepeat⟩
    · obtain ⟨rfl, rfl⟩ := Prod.mk.inj hfault
      exact .zeroIndex hg hzero
    · refine .repeatedInGroup hg ((duplicate_of_firstRepeat hrepeat).resolve_left ?_)
      exact fun hseen => Std.HashSet.not_mem_empty hseen.2

/-- The least length above one, or one. -/
theorem shortestRegister_broadcastCount (groups : List Target) :
    ShortestRegister groups (broadcastCount groups) := by
  let lengths := (groups.map fun g => g.indices.length).filter (1 < ·)
  have hmem : ∀ n, n ∈ lengths ↔ 1 < n ∧ ∃ g ∈ groups, g.indices.length = n := by
    intro n
    simp only [lengths, List.mem_filter, List.mem_map, decide_eq_true_eq, and_comm]
  have hcount : broadcastCount groups = lengths.min?.getD 1 := rfl
  rw [hcount]
  cases hmin : lengths.min? with
  | none =>
      refine Or.inr ⟨rfl, fun g hg => not_lt.1 fun hlong => ?_⟩
      have hmany := (hmem g.indices.length).2 ⟨hlong, g, hg, rfl⟩
      rw [List.min?_eq_none_iff.1 hmin] at hmany
      cases hmany
  | some k =>
      obtain ⟨hk, hleast⟩ := List.min?_eq_some_iff.1 hmin
      exact Or.inl ⟨(hmem k).1 hk, fun n hn => hleast n ((hmem n).2 hn)⟩

/-- Registers of two and of three indices, and one index that both places use. -/
example : broadcastCount [.index 1, .register [2, 3], .through 4 6] = 2 := by decide

theorem ShortestRegister.unique {k k' : Nat} (h : ShortestRegister groups k)
    (h' : ShortestRegister groups k') : k = k' := by
  rcases h with hk | ⟨rfl, hshort⟩
  · rcases h' with hk' | ⟨-, hshort⟩
    · exact hk.unique hk'
    · obtain ⟨hlong, g, hg, rfl⟩ := hk.1
      exact absurd hlong (not_lt.2 (hshort g hg))
  · rcases h' with hk' | ⟨rfl, -⟩
    · obtain ⟨hlong, g, hg, rfl⟩ := hk'.1
      exact absurd hlong (not_lt.2 (hshort g hg))
    · rfl

theorem ShortestRegister.pos {k : Nat} (h : ShortestRegister groups k) : 0 < k := by
  rcases h with hk | ⟨rfl, -⟩
  · exact Nat.zero_lt_of_lt hk.1.1
  · exact Nat.zero_lt_one

theorem ShortestRegister.le_length {k : Nat} (h : ShortestRegister groups k) (hg : g ∈ groups)
    (hlong : 1 < g.indices.length) : k ≤ g.indices.length := by
  rcases h with hk | ⟨-, hshort⟩
  · exact hk.2 ⟨hlong, g, hg, rfl⟩
  · exact absurd hlong (not_lt.2 (hshort g hg))

end Groups

section Places

variable {op : Operation} {groups : List Target} {g : Target} {i k x : Nat}

/-- The index that is picked, counted from one. -/
def Target.element (i : Nat) (g : Target) : Nat :=
  match g.indices with
  | [only] => only
  | several => several.getD i 0

theorem Target.pick_eq (i : Nat) (g : Target) : g.pick i = g.element i - 1 := by
  unfold pick element
  rcases g.indices with _ | ⟨first, _ | ⟨second, rest⟩⟩ <;> rfl

theorem Target.element_of_one_lt (h : 1 < g.indices.length) : g.element i = g.indices.getD i 0 := by
  unfold element
  split
  · rename_i only honly
    rw [honly] at h
    exact absurd h (lt_irrefl 1)
  · rfl

theorem Target.Takes.eq_element (h : g.Takes i x) : x = g.element i := by
  rcases h with hone | ⟨hlong, hplace⟩
  · unfold element
    rw [hone]
  · rw [element_of_one_lt hlong, List.getD_eq_getElem?_getD, hplace]
    rfl

theorem Target.Takes.mem (h : g.Takes i x) : x ∈ g.indices := by
  rcases h with hone | ⟨-, hplace⟩
  · rw [hone]
    exact List.mem_cons_self
  · exact List.mem_of_getElem? hplace

/-- No place lies past the end of a group. -/
theorem Target.takes_element (hk : ShortestRegister groups k) (hi : i < k) (hg : g ∈ groups)
    (hsome : g.indices ≠ []) : g.Takes i (g.element i) := by
  rcases Nat.lt_or_ge 1 g.indices.length with hlong | hshort
  · have hplace : i < g.indices.length := hi.trans_le (hk.le_length hg hlong)
    refine Or.inr ⟨hlong, ?_⟩
    rw [element_of_one_lt hlong, List.getD_eq_getElem?_getD, List.getElem?_eq_getElem hplace]
    rfl
  · have hone : g.indices.length = 1 :=
      le_antisymm hshort (List.length_pos_iff.2 hsome)
    obtain ⟨only, honly⟩ := List.length_eq_one_iff.1 hone
    refine Or.inl ?_
    unfold element
    rw [honly]

theorem eq_of_forall₂_takes {zip : List Nat} (h : List.Forall₂ (Target.Takes i) groups zip) :
    zip = groups.map (Target.element i) := by
  induction h with
  | nil => rfl
  | cons hfirst _ ih => rw [List.map_cons, ← ih, ← hfirst.eq_element]

/-- Groups that are neither empty nor hold a zero or an index twice. -/
def WellFormedGroups (groups : List Target) : Prop :=
  ∀ g ∈ groups, g.indices ≠ [] ∧ 0 ∉ g.indices ∧ g.indices.Nodup

theorem forall₂_takes_element (hk : ShortestRegister groups k) (hi : i < k)
    (hgroups : WellFormedGroups groups) :
    List.Forall₂ (Target.Takes i) groups (groups.map (Target.element i)) := by
  rw [List.forall₂_map_right_iff, List.forall₂_same]
  exact fun g hg => Target.takes_element hk hi hg (hgroups g hg).1

end Places

section Instructions

variable {op : Operation} {groups : List Target} {i k : Nat} {e : CircuitError}

/-- Counting from zero takes the parts apart in the same way. -/
theorem parts_map_pred (arity : Arity) (targets : List Nat) :
    arity.parts (targets.map (· - 1)) = (arity.parts targets).map (List.map (· - 1)) := by
  simp [Arity.parts, List.map_take, List.map_drop]

theorem duplicate_of_map_pred {x : Nat} {targets : List Nat} (hpos : 0 ∉ targets)
    (h : List.Duplicate x (targets.map (· - 1))) : List.Duplicate (x + 1) targets := by
  rw [List.duplicate_iff_sublist, List.sublist_map_iff] at h
  obtain ⟨pair, hpair, heq⟩ := h
  have hshift : ∀ y ∈ pair, y - 1 + 1 = y := fun y hy =>
    Nat.succ_pred fun hzero => hpos (hzero ▸ hpair.subset hy)
  have hback : (pair.map (· - 1)).map (· + 1) = pair := by
    rw [List.map_map]
    exact (List.map_congr_left hshift).trans (List.map_id' pair)
  rw [← heq] at hback
  have hpairs : [x + 1, x + 1] = pair := hback
  rw [List.duplicate_iff_sublist, hpairs]
  exact hpair

theorem mem_of_mem_parts {arity : Arity} {targets part : List Nat} {x : Nat}
    (hpart : part ∈ arity.parts targets) (hx : x ∈ part) : x ∈ targets := by
  simp only [Arity.parts, List.mem_cons, List.not_mem_nil, or_false] at hpart
  rcases hpart with rfl | rfl | rfl
  · exact List.mem_of_mem_take hx
  · exact List.mem_of_mem_drop (List.mem_of_mem_take hx)
  · exact List.mem_of_mem_drop (List.mem_of_mem_drop hx)

theorem checkDistinct_eq_error {indices : List Nat}
    (h : Instruction.checkDistinct op indices = .error e) :
    ∃ x, List.Duplicate x indices ∧ e = .invalidTarget x .repeatedInList op.name := by
  unfold Instruction.checkDistinct at h
  split at h
  · rename_i x hrepeat
    obtain rfl := Except.error.inj h
    refine ⟨x, (duplicate_of_firstRepeat hrepeat).resolve_left fun hseen => ?_, rfl⟩
    exact Std.HashSet.not_mem_empty hseen.2
  · cases h

theorem make_eq_error {qubits bits zvars : List Nat}
    (hlength : qubits.length = op.arity.qubits ∧ bits.length = op.arity.bits ∧
      zvars.length = op.arity.zvars) (h : Instruction.make op qubits bits zvars = .error e) :
    (∃ o, op = .observable o ∧ e = .nonGateOperator o.name) ∨
      ∃ part ∈ [qubits, bits, zvars], ∃ x, List.Duplicate x part ∧
        e = .invalidTarget x .repeatedInList op.name := by
  unfold Instruction.make at h
  split at h
  · rename_i o
    exact Or.inl ⟨o, rfl, (Except.error.inj h).symm⟩
  · refine Or.inr ?_
    dsimp only at h
    rw [if_pos hlength] at h
    rcases bind_eq_error_iff.1 h with hqubits | ⟨-, -, h⟩
    · exact ⟨qubits, by simp, checkDistinct_eq_error hqubits⟩
    · rcases bind_eq_error_iff.1 h with hbits | ⟨-, -, h⟩
      · exact ⟨bits, by simp, checkDistinct_eq_error hbits⟩
      · rcases bind_eq_error_iff.1 h with hzvars | ⟨-, -, hnever⟩
        · exact ⟨zvars, by simp, checkDistinct_eq_error hzvars⟩
        · cases hnever

/-- The instruction at a place is made of what its groups have there. -/
theorem broadcastAt_eq (op : Operation) (groups : List Target) (i : Nat) :
    broadcastAt op groups i =
      (let inst := op.onParts (groups.map (Target.element i))
      Instruction.make op inst.qubits inst.bits inst.zvars).mapError .countFromOne := by
  have hpicked : groups.map (Target.pick i) = (groups.map (Target.element i)).map (· - 1) := by
    rw [List.map_map]
    exact List.map_congr_left fun g _ => g.pick_eq i
  rw [broadcastAt, hpicked]
  rfl

theorem broadcastAt_eq_ok {inst : Instruction} (h : broadcastAt op groups i = .ok inst) :
    inst = op.onParts (groups.map (Target.element i)) ∧ inst.Valid := by
  rw [broadcastAt_eq, Emission.mapError_eq_ok_iff] at h
  exact Instruction.make_eq_ok_iff.1 h

theorem length_parts {targets : List Nat} (h : targets.length = op.arity.total) :
    (op.onParts targets).qubits.length = op.arity.qubits ∧
      (op.onParts targets).bits.length = op.arity.bits ∧
      (op.onParts targets).zvars.length = op.arity.zvars := by
  rw [Arity.total] at h
  simp only [Operation.onParts, List.length_take, List.length_drop, List.length_map, h]
  omega

theorem nodup_of_mem_parts {targets part : List Nat} (h : (op.onParts targets).Valid)
    (hpart : part ∈ op.arity.parts targets) : part.Nodup := by
  have hzeroBased : part.map (· - 1) ∈ op.arity.parts (targets.map (· - 1)) := by
    rw [parts_map_pred]
    exact List.mem_map_of_mem hpart
  have hnodup : (part.map (· - 1)).Nodup := by
    simp only [Arity.parts, List.mem_cons, List.not_mem_nil, or_false] at hzeroBased
    rcases hzeroBased with hpart | hpart | hpart
    · exact hpart ▸ h.qubits_nodup
    · exact hpart ▸ h.bits_nodup
    · exact hpart ▸ h.zvars_nodup
  exact hnodup.of_map

/-- What is found wrong with an instruction is wrong with its place, counted from one. -/
theorem broadcastFault_of_broadcastAt (hcount : groups.length = op.arity.total)
    (hgroups : WellFormedGroups groups) (hk : ShortestRegister groups k) (hi : i < k)
    (h : broadcastAt op groups i = .error e) : BroadcastFault op groups e := by
  have hzip := forall₂_takes_element hk hi hgroups
  have hpositive : 0 ∉ groups.map (Target.element i) := by
    rintro hzero
    obtain ⟨g, hg, helement⟩ := List.mem_map.1 hzero
    have hmem := (Target.takes_element hk hi hg (hgroups g hg).1).mem
    rw [helement] at hmem
    exact (hgroups g hg).2.1 hmem
  have hlength : (groups.map (Target.element i)).length = op.arity.total := by
    rw [List.length_map, hcount]
  rw [broadcastAt_eq] at h
  -- The instruction is checked counted from zero, and the fault is moved back by one.
  generalize groups.map (Target.element i) = targets at *
  obtain ⟨cause, hcause, rfl⟩ := mapError_eq_error_iff.1 h
  rcases make_eq_error (length_parts hlength) hcause with ⟨o, rfl, rfl⟩ | ⟨part, hpart, x, hx, rfl⟩
  · exact .operator rfl
  · have hparts : part ∈ op.arity.parts (targets.map (· - 1)) := hpart
    rw [parts_map_pred] at hparts
    obtain ⟨places, hplaces, rfl⟩ := List.mem_map.1 hparts
    have hzero : 0 ∉ places := fun hmem => hpositive (mem_of_mem_parts hplaces hmem)
    exact .repeatedInList hk hi hzip hplaces (duplicate_of_map_pred hzero hx)

end Instructions

/-- The instructions are those of the places up to the shortest register, in order. -/
structure ShortestZip (op : Operation) (groups : List Target) (added : List Instruction) :
    Prop where
  count : ShortestRegister groups added.length
  taken : ∀ i inst, added[i]? = some inst →
    ∃ targets, List.Forall₂ (Target.Takes i) groups targets ∧ inst = op.onParts targets

section Whole

variable {op : Operation} {groups : List Target} {added : List Instruction} {e : CircuitError}

theorem broadcastFault_of_broadcast (h : broadcast op groups = .error e) :
    BroadcastFault op groups e := by
  unfold broadcast at h
  split at h
  · rename_i hcount
    obtain rfl := Except.error.inj h
    exact .count hcount
  · rename_i hcount
    split at h
    · rename_i index fault hfault
      obtain rfl := Except.error.inj h
      obtain ⟨g, hg, hfault⟩ := List.exists_of_findSome?_eq_some hfault
      exact broadcastFault_of_fault? hg hfault
    · rename_i hnone
      obtain ⟨i, hi, hat⟩ := exists_of_mapM_eq_error h
      have hgroups : WellFormedGroups groups := fun g hg =>
        Target.fault?_eq_none (List.findSome?_eq_none_iff.1 hnone g hg)
      exact broadcastFault_of_broadcastAt (not_not.1 hcount) hgroups
        (shortestRegister_broadcastCount groups) (List.mem_range.1 hi) hat

theorem broadcast_eq_ok (h : broadcast op groups = .ok added) :
    groups.length = op.arity.total ∧ WellFormedGroups groups ∧
      List.Forall₂ (fun i inst => broadcastAt op groups i = .ok inst)
        (List.range (broadcastCount groups)) added := by
  unfold broadcast at h
  split at h
  · cases h
  · rename_i hcount
    split at h
    · cases h
    · rename_i hnone
      exact ⟨not_not.1 hcount, fun g hg =>
        Target.fault?_eq_none (List.findSome?_eq_none_iff.1 hnone g hg), mapM_eq_ok_iff.1 h⟩

/-- Where the broadcast succeeds, so does every instruction on its own. -/
theorem valid_of_broadcast (h : broadcast op groups = .ok added) {i : Nat}
    (hi : i < broadcastCount groups) : (op.onParts (groups.map (Target.element i))).Valid := by
  obtain ⟨hlength, hall⟩ := List.forall₂_iff_get.1 (broadcast_eq_ok h).2.2
  have hi' : i < (List.range (broadcastCount groups)).length := by rwa [List.length_range]
  have hat := hall i hi' (hlength ▸ hi')
  rw [List.get_eq_getElem, List.getElem_range] at hat
  obtain ⟨hinst, hvalid⟩ := broadcastAt_eq_ok hat
  rwa [hinst] at hvalid

theorem shortestZip_of_broadcast (h : broadcast op groups = .ok added) :
    ShortestZip op groups added := by
  obtain ⟨-, hgroups, hinsts⟩ := broadcast_eq_ok h
  have hk := shortestRegister_broadcastCount groups
  obtain ⟨hlength, hall⟩ := List.forall₂_iff_get.1 hinsts
  rw [List.length_range] at hlength
  refine ⟨hlength ▸ hk, fun i inst hinst => ?_⟩
  obtain ⟨hi, rfl⟩ := List.getElem?_eq_some_iff.1 hinst
  have hplace : i < broadcastCount groups := hlength ▸ hi
  have hat := hall i (by rwa [List.length_range]) hi
  rw [List.get_eq_getElem, List.getElem_range] at hat
  exact ⟨_, forall₂_takes_element hk hplace hgroups, (broadcastAt_eq_ok hat).1⟩

/-- Where the broadcast succeeds, nothing is wrong. -/
theorem not_broadcastFault_of_broadcast (h : broadcast op groups = .ok added) :
    ¬BroadcastFault op groups e := by
  obtain ⟨hcount, hgroups, -⟩ := broadcast_eq_ok h
  intro hfault
  cases hfault with
  | count hne => exact hne hcount
  | emptyGroup hg hempty => exact (hgroups _ hg).1 hempty
  | zeroIndex hg hzero => exact (hgroups _ hg).2.1 hzero
  | repeatedInGroup hg htwice =>
      exact List.nodup_iff_forall_not_duplicate.1 (hgroups _ hg).2.2 _ htwice
  | operator hop =>
      have hfirst := valid_of_broadcast h (shortestRegister_broadcastCount groups).pos
      exact hfirst.not_observable _ hop
  | repeatedInList hk hi hzip hpart htwice =>
      obtain rfl := hk.unique (shortestRegister_broadcastCount groups)
      obtain rfl := eq_of_forall₂_takes hzip
      have hnodup := nodup_of_mem_parts (valid_of_broadcast h hi) hpart
      exact List.nodup_iff_forall_not_duplicate.1 hnodup _ htwice

end Whole

namespace Circuit

/-- The circuit that the caller is left with: the result, or the circuit as it was if the call
fails. -/
def after (c : Circuit) : Except CircuitError Circuit → Circuit
  | .ok c' => c'
  | .error _ => c

/-- What a call that adds instructions at a position does.  It fails exactly if something is
wrong, reports something that is, and leaves the circuit as it was; otherwise it puts in the
shortest zip. -/
structure AddsZip (c : Circuit) (op : Operation) (groups : List Target) (position : Nat)
    (Fault : CircuitError → Prop) (result : Except CircuitError Circuit) : Prop where
  fails_iff : (∃ e, result = .error e) ↔ ∃ e, Fault e
  reported : ∀ e, result = .error e → Fault e ∧ c.after result = c
  added : ∀ c', result = .ok c' → ∃ added, ShortestZip op groups added ∧
    c' = ⟨c.name, c.instructions.take position ++ added ++ c.instructions.drop position⟩

variable {c : Circuit} {op : Operation} {groups : List Target} {position : Nat}

/-- Broadcasting and putting in what comes of it is all that both calls do. -/
theorem addsZip_of_broadcast (c : Circuit) (op : Operation) (groups : List Target)
    (position : Nat) :
    c.AddsZip op groups position (BroadcastFault op groups) (do
      let added ← broadcast op groups
      return ⟨c.name, c.instructions.take position ++ added ++ c.instructions.drop position⟩) := by
  cases h : broadcast op groups with
  | error e =>
      have hfault := broadcastFault_of_broadcast h
      refine ⟨iff_of_true ⟨e, rfl⟩ ⟨e, hfault⟩, fun e' he' => ?_, nofun⟩
      obtain rfl := Except.error.inj he'
      exact ⟨hfault, rfl⟩
  | ok added =>
      refine ⟨iff_of_false (fun ⟨e, he⟩ => nomatch he) fun ⟨e, he⟩ =>
        not_broadcastFault_of_broadcast h he, nofun, fun c' hc' => ?_⟩
      exact ⟨added, shortestZip_of_broadcast h, (Except.ok.inj hc').symm⟩

theorem push_eq (c : Circuit) (op : Operation) (groups : List Target) :
    c.push op groups = (do
      let added ← broadcast op groups
      return ⟨c.name, c.instructions.take c.length ++ added ++ c.instructions.drop c.length⟩) := by
  have hall : c.instructions.take c.length = c.instructions := List.take_length
  have hnone : c.instructions.drop c.length = [] := List.drop_length
  simp only [push, extend, hall, hnone, List.append_nil]

end Circuit

section Single

variable {op : Operation} {qubits : List Nat}

/-- The group of one index, which is counted from zero. -/
def Target.single (q : Nat) : Target :=
  .index (q + 1)

theorem Target.fault?_single (q : Nat) : (single q).fault? = none := by
  simp [single, fault?, indices, firstFault]

theorem broadcastCount_single (qubits : List Nat) :
    broadcastCount (qubits.map Target.single) = 1 := by
  refine (shortestRegister_broadcastCount _).unique (Or.inr ⟨rfl, fun g hg => ?_⟩)
  obtain ⟨q, -, rfl⟩ := List.mem_map.1 hg
  exact Nat.le_refl 1

/-- A gate on single distinct qubits is one instruction. -/
theorem broadcast_single (hunitary : op.isUnitary = true) (hlength : qubits.length = op.numQubits)
    (hnodup : qubits.Nodup) :
    broadcast op (qubits.map Target.single) = .ok [⟨op, qubits, [], []⟩] := by
  have harity : op.arity = .onQubits op.numQubits := Operation.arity_of_isUnitary hunitary
  have hvalid := Instruction.valid_of_isUnitary hunitary hlength hnodup
  have hcount : (qubits.map Target.single).length = op.arity.total := by
    rw [List.length_map, hlength, harity]
    rfl
  have hfaults : (qubits.map Target.single).findSome? Target.fault? = none := by
    rw [List.findSome?_eq_none_iff]
    intro g hg
    obtain ⟨q, -, rfl⟩ := List.mem_map.1 hg
    exact Target.fault?_single q
  have hzeroBased : ((qubits.map Target.single).map (Target.element 0)).map (· - 1) = qubits := by
    rw [List.map_map, List.map_map]
    exact List.map_id'' (fun _ => rfl) qubits
  have hparts : op.onParts ((qubits.map Target.single).map (Target.element 0)) =
      ⟨op, qubits, [], []⟩ := by
    unfold Operation.onParts
    rw [hzeroBased, harity]
    simp [Arity.onQubits, ← hlength]
  have hat : broadcastAt op (qubits.map Target.single) 0 = .ok ⟨op, qubits, [], []⟩ := by
    rw [broadcastAt_eq, hparts]
    exact congrArg (Except.mapError _) (Instruction.make_eq_ok_iff.2 ⟨rfl, hvalid⟩)
  rw [broadcast, if_neg (not_not.2 hcount), hfaults, broadcastCount_single]
  dsimp only
  rw [List.range_one, List.mapM_cons, hat]
  rfl

theorem Circuit.push_single (c : Circuit) (op : Operation) (qubits : List Nat)
    (hunitary : op.isUnitary = true) (hlength : qubits.length = op.numQubits)
    (hnodup : qubits.Nodup) :
    c.push op (qubits.map Target.single) = .ok (c.extend [⟨op, qubits, [], []⟩]) := by
  rw [push, broadcast_single hunitary hlength hnodup]
  rfl

end Single

/-- Pushing and inserting an operation on groups add the shortest zip, or nothing: they fail
exactly if the number of groups is not that of the targets, a group is empty or holds zero or an
index twice, the operation is a pure operator, or an instruction has a qubit, a bit or a
z-register twice; and inserting fails past the end, whatever the groups are.  A target is
reported in the numbering of the groups. -/
theorem broadcasting_adds_the_shortest_zip (c : Circuit) (op : Operation)
    (groups : List Target) :
    c.AddsZip op groups c.length (BroadcastFault op groups) (c.push op groups) ∧
    ∀ position, c.AddsZip op groups position
      (fun e => if position ≤ c.length then BroadcastFault op groups e
        else e = .invalidPosition position c.length)
      (c.insert position op groups) := by
  refine ⟨c.push_eq op groups ▸ c.addsZip_of_broadcast op groups c.length, fun position => ?_⟩
  rw [Circuit.insert]
  rcases Nat.lt_or_ge c.length position with hpast | hinside
  · simp only [if_pos hpast, if_neg (not_le.2 hpast)]
    refine ⟨iff_of_true ⟨_, rfl⟩ ⟨_, rfl⟩, fun e he => ?_, nofun⟩
    exact ⟨(Except.error.inj he).symm, rfl⟩
  · simp only [if_neg (not_lt.2 hinside), if_pos hinside]
    exact c.addsZip_of_broadcast op groups position

end GateAlgebra
