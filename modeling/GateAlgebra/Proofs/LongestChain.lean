import Mathlib.Data.List.Chain
import Mathlib.Order.Bounds.Basic
import GateAlgebra.Circuit.Depth
import GateAlgebra.Proofs.Instruction
import GateAlgebra.Proofs.Simplified
/-!
The depth of a circuit is the greatest number of layers on a chain: a list of
its instructions in order, each two consecutive ones on a common wire.  The
sweep keeps one number for each wire, and that number is the greatest count
over the chains that end on the wire.  There is a number for each wire of the
circuit, unless there are more indices than an array has counters.
-/

namespace GateAlgebra

variable {insts l : List Instruction} {a b : Instruction}

namespace Instruction

/-- On a common qubit or on a common bit.  Z-registers do not count. -/
def SharesWire (a b : Instruction) : Prop :=
  (∃ q ∈ a.qubits, q ∈ b.qubits) ∨ ∃ k ∈ a.bits, k ∈ b.bits

instance (a b : Instruction) : Decidable (a.SharesWire b) :=
  inferInstanceAs (Decidable (_ ∨ _))

theorem sharesWire_iff : a.SharesWire b ↔ ∃ wire ∈ a.wires, wire ∈ b.wires := by
  constructor
  · rintro (⟨q, hqa, hqb⟩ | ⟨k, hka, hkb⟩)
    · exact ⟨.qubit q, by simp [wires, hqa], by simp [wires, hqb]⟩
    · exact ⟨.bit k, by simp [wires, hka], by simp [wires, hkb]⟩
  · rintro ⟨wire, ha, hb⟩
    cases wire with
    | qubit q => exact Or.inl ⟨q, by simpa [wires] using ha, by simpa [wires] using hb⟩
    | bit k => exact Or.inr ⟨k, by simpa [wires] using ha, by simpa [wires] using hb⟩

theorem SharesWire.symm (h : a.SharesWire b) : b.SharesWire a := by
  obtain ⟨wire, ha, hb⟩ := sharesWire_iff.1 h
  exact sharesWire_iff.2 ⟨wire, hb, ha⟩

/-- A barrier adds no layer, anything else adds one. -/
def layers (inst : Instruction) : Nat :=
  if inst.isBarrier then 0 else 1

end Instruction

/-- How many instructions of a list are not barriers. -/
def layerCount (l : List Instruction) : Nat :=
  l.countP fun inst => !inst.isBarrier

@[simp] theorem layerCount_nil : layerCount [] = 0 := rfl

@[simp] theorem layerCount_concat (l : List Instruction) (a : Instruction) :
    layerCount (l ++ [a]) = layerCount l + a.layers := by
  cases h : a.isBarrier <;> simp [layerCount, Instruction.layers, h]

@[simp] theorem layerCount_reverse (l : List Instruction) :
    layerCount l.reverse = layerCount l :=
  List.countP_reverse

/-! ### Chains in a list -/

/-- The layer counts of the chains in a list whose last instruction, if there
is one, has a property. -/
def chainCounts (insts : List Instruction) (P : Instruction → Prop) : Set Nat :=
  {k | ∃ l, l.Sublist insts ∧ l.IsChain Instruction.SharesWire ∧
    (∀ last ∈ l.getLast?, P last) ∧ layerCount l = k}

section ChainCounts

variable {P Q : Instruction → Prop} {k : Nat}

theorem zero_mem_chainCounts : 0 ∈ chainCounts insts P :=
  ⟨[], by simp, by simp, by simp, rfl⟩

theorem chainCounts_mono (h : ∀ inst, P inst → Q inst) :
    chainCounts insts P ⊆ chainCounts insts Q := by
  rintro k ⟨l, hsub, hchain, hlast, hk⟩
  exact ⟨l, hsub, hchain, fun last hmem => h last (hlast last hmem), hk⟩

/-- A chain in a longer list either leaves the new instruction out or ends
with it, on top of a chain that ends on one of its wires. -/
theorem mem_chainCounts_concat :
    k ∈ chainCounts (insts ++ [a]) P ↔
      k ∈ chainCounts insts P ∨
        P a ∧ ∃ below ∈ chainCounts insts (·.SharesWire a), k = below + a.layers := by
  constructor
  · rintro ⟨l, hsub, hchain, hlast, rfl⟩
    obtain ⟨front, tail, rfl, hfront, htail⟩ := List.sublist_append_iff.1 hsub
    rcases List.sublist_singleton.1 htail with rfl | rfl
    · exact Or.inl ⟨front, hfront, by simpa using hchain, by simpa using hlast, by simp⟩
    · refine Or.inr ⟨hlast a (by simp), layerCount front, ?_, layerCount_concat front a⟩
      obtain ⟨hbelow, -, hjoin⟩ := List.isChain_append.1 hchain
      exact ⟨front, hfront, hbelow, fun last hmem => hjoin last hmem a (by simp), rfl⟩
  · rintro (⟨l, hsub, hrest⟩ | ⟨ha, -, ⟨l, hsub, hchain, hlast, rfl⟩, rfl⟩)
    · exact ⟨l, hsub.trans (List.sublist_append_left insts [a]), hrest⟩
    · refine ⟨l ++ [a], hsub.append (List.Sublist.refl [a]), ?_, by simpa using ha, by simp⟩
      exact List.isChain_append.2 ⟨hchain, by simp, fun last hmem y hy => by
        obtain rfl : a = y := by simpa using hy
        exact hlast last hmem⟩

/-- Reversing a list reverses its chains. -/
theorem chainCounts_reverse_subset :
    chainCounts insts.reverse (fun _ => True) ⊆ chainCounts insts fun _ => True := by
  rintro k ⟨l, hsub, hchain, -, rfl⟩
  refine ⟨l.reverse, by simpa using hsub.reverse, ?_, by simp, layerCount_reverse l⟩
  exact List.isChain_reverse.2 (hchain.imp fun _ _ h => h.symm)

/-- Two neighbours without a common wire are in no chain together, so their
order does not matter. -/
theorem chainCounts_swap_subset {front back : List Instruction} (h : ¬ a.SharesWire b) :
    chainCounts (front ++ a :: b :: back) (fun _ => True) ⊆
      chainCounts (front ++ b :: a :: back) fun _ => True := by
  rintro k ⟨l, hsub, hchain, -, rfl⟩
  obtain ⟨first, rest, rfl, hfirst, hrest⟩ := List.sublist_append_iff.1 hsub
  obtain ⟨pair, last, rfl, hpair, hlast⟩ :=
    List.sublist_append_iff.1 (show rest.Sublist ([a, b] ++ back) from hrest)
  refine ⟨first ++ (pair ++ last), hfirst.append ?_, hchain, by simp, rfl⟩
  suffices pair.Sublist [b, a] from this.append hlast
  have happart : pair ≠ [a, b] := by
    rintro rfl
    have : ([a, b] ++ last).IsChain Instruction.SharesWire :=
      (List.isChain_append.1 hchain).2.1
    exact h (List.isChain_cons_cons.1 this).1
  cases hpair with
  | cons _ hb =>
      rcases List.sublist_singleton.1 hb with rfl | rfl <;> simp
  | cons_cons _ hb =>
      rcases List.sublist_singleton.1 hb with rfl | rfl
      · simp
      · exact absurd rfl happart

end ChainCounts

/-! ### The counters -/

namespace Levels

variable {levels next : Levels} {wire : Wire} {wires : List Wire} {height : Nat}

/-- The level of a wire, or zero if it has no counter. -/
def level (levels : Levels) (wire : Wire) : Nat :=
  (levels.level? wire).getD 0

def highest (levels : Levels) (wires : List Wire) : Nat :=
  wires.foldl (fun top wire => max top (levels.level wire)) 0

/-- There is a counter for the wire. -/
def Has (levels : Levels) (wire : Wire) : Prop :=
  ∃ k, levels.level? wire = some k

theorem Has.level?_eq (h : levels.Has wire) : levels.level? wire = some (levels.level wire) := by
  obtain ⟨k, hk⟩ := h
  rw [level, hk]
  rfl

theorem highest?_eq_some_iff {top : Nat} :
    levels.highest? wires = some top ↔
      (∀ wire ∈ wires, levels.Has wire) ∧ top = levels.highest wires := by
  unfold highest? highest
  generalize 0 = start
  induction wires generalizing start with
  | nil => simp [eq_comm]
  | cons head tail ih =>
      rw [List.foldlM_cons, List.foldl_cons, List.forall_mem_cons]
      by_cases hhead : levels.Has head
      · rw [hhead.level?_eq, and_iff_right hhead]
        exact ih _
      · have hnone : levels.level? head = none :=
          Option.eq_none_iff_forall_ne_some.2 fun k hk => hhead ⟨k, hk⟩
        rw [hnone]
        exact iff_of_false nofun fun h => hhead h.1.1

theorem level?_of_set? (h : levels.set? height wire = some next) (other : Wire) :
    next.level? other = if other = wire then some height else levels.level? other := by
  cases wire with
  | qubit q =>
      obtain ⟨hq, hnext⟩ := Option.dite_none_right_eq_some.1 h
      obtain rfl := Option.some.inj hnext
      cases other with
      | qubit k => simp [level?, Array.getElem?_set, eq_comm]
      | bit b => rfl
  | bit b =>
      obtain ⟨hb, hnext⟩ := Option.dite_none_right_eq_some.1 h
      obtain rfl := Option.some.inj hnext
      cases other with
      | qubit q => rfl
      | bit k => simp [level?, Array.getElem?_set, eq_comm]

theorem Has.exists_set? (h : levels.Has wire) : ∃ next, levels.set? height wire = some next := by
  obtain ⟨k, hk⟩ := h
  cases wire with
  | qubit q =>
      obtain ⟨hq, -⟩ := Array.getElem?_eq_some_iff.1 hk
      exact ⟨_, dif_pos hq⟩
  | bit b =>
      obtain ⟨hb, -⟩ := Array.getElem?_eq_some_iff.1 hk
      exact ⟨_, dif_pos hb⟩

/-- Lifting takes a wire to the height and leaves the others alone. -/
theorem level?_of_foldlM_set? (h : wires.foldlM (set? height) levels = some next) (other : Wire) :
    next.level? other = if other ∈ wires then some height else levels.level? other := by
  induction wires generalizing levels with
  | nil =>
      obtain rfl := Option.some.inj h
      rfl
  | cons head tail ih =>
      obtain ⟨lifted, hlifted, hnext⟩ := Option.bind_eq_some_iff.1 h
      rw [ih hnext, level?_of_set? hlifted]
      by_cases htail : other ∈ tail <;> simp [htail, List.mem_cons]

theorem exists_foldlM_set? (h : ∀ wire ∈ wires, levels.Has wire) :
    ∃ next, wires.foldlM (set? height) levels = some next := by
  induction wires generalizing levels with
  | nil => exact ⟨levels, rfl⟩
  | cons head tail ih =>
      obtain ⟨hhead, htail⟩ := List.forall_mem_cons.1 h
      obtain ⟨lifted, hlifted⟩ : ∃ lifted, levels.set? height head = some lifted :=
        hhead.exists_set?
      have hlevel := level?_of_set? hlifted
      have hhas : ∀ wire ∈ tail, lifted.Has wire := fun wire hwire => by
        by_cases heq : wire = head
        · exact ⟨height, (hlevel wire).trans (if_pos heq)⟩
        · exact ⟨_, (hlevel wire).trans ((if_neg heq).trans (htail wire hwire).level?_eq)⟩
      obtain ⟨next, hnext⟩ := ih hhas
      exact ⟨next, by rw [List.foldlM_cons, hlifted]; exact hnext⟩

/-- The height at which an instruction is placed. -/
def heightOf (levels : Levels) (inst : Instruction) : Nat :=
  levels.highest inst.wires + inst.layers

/-- What becomes of the levels when an instruction is placed. -/
structure Places (levels : Levels) (inst : Instruction) (next : Levels) : Prop where
  has_wires : ∀ wire ∈ inst.wires, levels.Has wire
  has_iff : ∀ wire, next.Has wire ↔ levels.Has wire
  level : ∀ wire, next.level wire =
    if wire ∈ inst.wires then levels.heightOf inst else levels.level wire
  deepest : next.deepest = max levels.deepest (levels.heightOf inst)

variable {inst : Instruction}

theorem place?_eq (h : ∀ wire ∈ inst.wires, levels.Has wire) :
    levels.place? inst = levels.lift? inst.wires (levels.heightOf inst) := by
  rw [place?, highest?_eq_some_iff.2 ⟨h, rfl⟩]
  cases hbarrier : inst.isBarrier <;> simp [heightOf, Instruction.layers, hbarrier]

theorem places_of_place? (h : levels.place? inst = some next) : levels.Places inst next := by
  obtain ⟨top, htop, -⟩ := Option.bind_eq_some_iff.1 h
  have hwires := (highest?_eq_some_iff.1 htop).1
  rw [place?_eq hwires] at h
  obtain ⟨lifted, hlifted, hnext⟩ := Option.bind_eq_some_iff.1 h
  obtain rfl := Option.some.inj hnext
  have hlevel := level?_of_foldlM_set? hlifted
  refine ⟨hwires, fun wire => ?_, fun wire => ?_, rfl⟩
  · change (∃ k, lifted.level? wire = some k) ↔ _
    rw [hlevel]
    split
    · rename_i hwire
      exact iff_of_true ⟨_, rfl⟩ (hwires wire hwire)
    · exact Iff.rfl
  · change (lifted.level? wire).getD 0 = _
    rw [hlevel]
    split <;> rfl

theorem exists_place? (h : ∀ wire ∈ inst.wires, levels.Has wire) :
    ∃ next, levels.place? inst = some next := by
  obtain ⟨lifted, hlifted⟩ :
      ∃ lifted, inst.wires.foldlM (set? (levels.heightOf inst)) levels = some lifted :=
    exists_foldlM_set? h
  exact ⟨_, by rw [place?_eq h, lift?, hlifted]; rfl⟩

theorem exists_foldlM_place? {insts : List Instruction}
    (h : ∀ inst ∈ insts, ∀ wire ∈ inst.wires, levels.Has wire) :
    ∃ next, insts.foldlM place? levels = some next := by
  induction insts generalizing levels with
  | nil => exact ⟨levels, rfl⟩
  | cons head tail ih =>
      obtain ⟨hhead, htail⟩ := List.forall_mem_cons.1 h
      obtain ⟨placed, hplaced⟩ := exists_place? hhead
      have hhas := (places_of_place? hplaced).has_iff
      obtain ⟨next, hnext⟩ := ih fun inst hinst wire hwire =>
        (hhas wire).2 (htail inst hinst wire hwire)
      exact ⟨next, by rw [List.foldlM_cons, hplaced]; exact hnext⟩

theorem has_of_foldlM_place? {insts : List Instruction}
    (h : insts.foldlM place? levels = some next) :
    ∀ inst ∈ insts, ∀ wire ∈ inst.wires, levels.Has wire := by
  induction insts generalizing levels with
  | nil => exact List.forall_mem_nil _
  | cons head tail ih =>
      obtain ⟨placed, hplaced, hnext⟩ := Option.bind_eq_some_iff.1 h
      have hplaces := places_of_place? hplaced
      refine List.forall_mem_cons.2 ⟨hplaces.has_wires, fun inst hinst wire hwire => ?_⟩
      exact (hplaces.has_iff wire).1 (ih hnext inst hinst wire hwire)

theorem has_start {qubits bits : Nat} :
    (start qubits bits).Has wire ↔
      match wire with
      | .qubit q => q < qubits
      | .bit b => b < bits := by
  cases wire <;> simp [Has, level?, start, Array.getElem?_replicate]

theorem level_start (qubits bits : Nat) (wire : Wire) : (start qubits bits).level wire = 0 := by
  cases wire <;> simp only [level, level?, start, Array.getElem?_replicate] <;> split <;> rfl

/-! ### What the sweep keeps -/

theorem le_foldl_max (f : Wire → Nat) (wires : List Wire) (start : Nat) :
    start ≤ wires.foldl (fun top wire => max top (f wire)) start := by
  induction wires generalizing start with
  | nil => exact Nat.le_refl start
  | cons head tail ih => exact (Nat.le_max_left _ _).trans (ih _)

theorem level_le_highest (h : wire ∈ wires) : levels.level wire ≤ levels.highest wires := by
  unfold highest
  generalize 0 = start
  induction wires generalizing start with
  | nil => cases h
  | cons head tail ih =>
      rcases List.mem_cons.1 h with rfl | htail
      · exact (Nat.le_max_right _ _).trans (le_foldl_max levels.level tail _)
      · exact ih htail _

/-- The highest level is one that is reached, or nothing is. -/
theorem highest_attained (levels : Levels) (wires : List Wire) :
    levels.highest wires = 0 ∨ ∃ wire ∈ wires, levels.highest wires = levels.level wire := by
  unfold highest
  generalize 0 = start
  induction wires generalizing start with
  | nil => exact Or.inl rfl
  | cons head tail ih =>
      rcases ih (max start (levels.level head)) with h | ⟨wire, hmem, h⟩
      · rcases Nat.le_total start (levels.level head) with hle | hle
        · exact Or.inr ⟨head, List.mem_cons_self, by
            rw [List.foldl_cons, h, Nat.max_eq_right hle]⟩
        · exact Or.inl (by rw [List.foldl_cons, h, Nat.max_eq_left hle])
      · exact Or.inr ⟨wire, List.mem_cons_of_mem head hmem, by rw [List.foldl_cons, h]⟩

/-- The levels after some instructions: on each wire the greatest count over
the chains that end on it, and the greatest count over all chains. -/
structure CountsChains (levels : Levels) (insts : List Instruction) : Prop where
  level : ∀ wire, IsGreatest (chainCounts insts (wire ∈ ·.wires)) (levels.level wire)
  deepest : IsGreatest (chainCounts insts fun _ => True) levels.deepest

namespace CountsChains

theorem start (qubits bits : Nat) : (Levels.start qubits bits).CountsChains [] where
  level wire := by
    rw [level_start]
    refine ⟨zero_mem_chainCounts, ?_⟩
    rintro k ⟨l, hsub, -, -, rfl⟩
    simp [List.sublist_nil.1 hsub]
  deepest := by
    refine ⟨zero_mem_chainCounts, ?_⟩
    rintro k ⟨l, hsub, -, -, rfl⟩
    simp [List.sublist_nil.1 hsub]

variable (h : levels.CountsChains insts)
include h

/-- What an instruction stands on is the greatest count over the chains that
end on one of its wires. -/
theorem highest (inst : Instruction) :
    IsGreatest (chainCounts insts (·.SharesWire inst)) (levels.highest inst.wires) := by
  constructor
  · rcases highest_attained levels inst.wires with hzero | ⟨wire, hmem, heq⟩
    · rw [hzero]
      exact zero_mem_chainCounts
    · rw [heq]
      exact chainCounts_mono
        (fun below hbelow => Instruction.sharesWire_iff.2 ⟨wire, hbelow, hmem⟩) (h.level wire).1
  · rintro k ⟨l, hsub, hchain, hlast, rfl⟩
    rcases hl : l.getLast? with _ | last
    · simp [List.getLast?_eq_none_iff.1 hl]
    · obtain ⟨wire, hwire, hinst⟩ := Instruction.sharesWire_iff.1 (hlast last hl)
      refine le_trans ((h.level wire).2 ⟨l, hsub, hchain, ?_, rfl⟩) (level_le_highest hinst)
      intro last' hlast'
      obtain rfl : last = last' := by simpa [hl] using hlast'
      exact hwire

theorem heightOf_mem (inst : Instruction) {P : Instruction → Prop} (hP : P inst) :
    levels.heightOf inst ∈ chainCounts (insts ++ [inst]) P :=
  mem_chainCounts_concat.2 (Or.inr ⟨hP, _, (h.highest inst).1, rfl⟩)

theorem place (hplaces : levels.Places inst next) : next.CountsChains (insts ++ [inst]) where
  level wire := by
    rw [hplaces.level]
    split
    · rename_i hwire
      refine ⟨h.heightOf_mem inst hwire, fun k hk => ?_⟩
      rcases mem_chainCounts_concat.1 hk with hold | ⟨-, below, hbelow, rfl⟩
      · exact ((h.level wire).2 hold).trans
          ((level_le_highest hwire).trans (Nat.le_add_right _ _))
      · exact Nat.add_le_add_right ((h.highest inst).2 hbelow) _
    · rename_i hwire
      refine ⟨mem_chainCounts_concat.2 (Or.inl (h.level wire).1), fun k hk => ?_⟩
      rcases mem_chainCounts_concat.1 hk with hold | ⟨hnew, -⟩
      · exact (h.level wire).2 hold
      · exact absurd hnew hwire
  deepest := by
    rw [hplaces.deepest]
    constructor
    · rcases Nat.le_total levels.deepest (levels.heightOf inst) with hle | hle
      · rw [Nat.max_eq_right hle]
        exact h.heightOf_mem inst trivial
      · rw [Nat.max_eq_left hle]
        exact mem_chainCounts_concat.2 (Or.inl h.deepest.1)
    · intro k hk
      rcases mem_chainCounts_concat.1 hk with hold | ⟨-, below, hbelow, rfl⟩
      · exact (h.deepest.2 hold).trans (Nat.le_max_left _ _)
      · exact (Nat.add_le_add_right ((h.highest inst).2 hbelow) _).trans (Nat.le_max_right _ _)

theorem foldlM {added : List Instruction} (hadded : added.foldlM Levels.place? levels = some next) :
    next.CountsChains (insts ++ added) := by
  induction added generalizing levels insts with
  | nil =>
      obtain rfl := Option.some.inj hadded
      simpa using h
  | cons head tail ih =>
      obtain ⟨placed, hplaced, hnext⟩ := Option.bind_eq_some_iff.1 hadded
      simpa using ih (h.place (places_of_place? hplaced)) hnext

end CountsChains

end Levels

section Extents

variable {indices : List Nat} {bound length : Nat} {counting : Counting}

theorem Circuit.extent_le_iff : extent indices ≤ bound ↔ ∀ i ∈ indices, i < bound := by
  have hfold : ∀ start, indices.foldl (fun top i => max top (i + 1)) start ≤ bound ↔
      start ≤ bound ∧ ∀ i ∈ indices, i < bound := by
    induction indices with
    | nil => simp
    | cons head tail ih =>
        intro start
        rw [List.foldl_cons, ih, List.forall_mem_cons, ← and_assoc, max_le_iff, Nat.succ_le_iff]
  exact (hfold 0).trans (and_iff_right (Nat.zero_le bound))

theorem Circuit.extent_congr {indices' : List Nat} (h : ∀ i, i ∈ indices ↔ i ∈ indices') :
    extent indices = extent indices' :=
  Nat.le_antisymm
    (extent_le_iff.2 fun i hi => extent_le_iff.1 le_rfl i ((h i).1 hi))
    (extent_le_iff.2 fun i hi => extent_le_iff.1 le_rfl i ((h i).2 hi))

theorem Counting.counters_eq_some_iff :
    counting.counters bound = some length ↔
      counting.count bound = some length ∧ (counting = .exact ∨ length ≤ maxCounters) := by
  constructor
  · intro h
    obtain ⟨n, hn, hlength⟩ := Option.bind_eq_some_iff.1 h
    obtain ⟨hfits, heq⟩ := Option.ite_none_right_eq_some.1 hlength
    obtain rfl := Option.some.inj heq
    exact ⟨hn, hfits⟩
  · rintro ⟨hn, hfits⟩
    exact Option.bind_eq_some_iff.2 ⟨length, hn, if_pos hfits⟩

/-- If there is a counter for every index, no bit was lost. -/
theorem Counting.counters_iff :
    counting.counters bound = some length ∧ bound ≤ length ↔
      length = bound ∧ (counting = .exact ∨ bound ≤ maxCounters) := by
  rw [counters_eq_some_iff]
  constructor
  · rintro ⟨⟨hcount, hfits⟩, hle⟩
    have hlength : length = bound := Nat.le_antisymm (le_of_count hcount) hle
    exact ⟨hlength, hlength ▸ hfits⟩
  · rintro ⟨rfl, hfits⟩
    refine ⟨⟨?_, hfits⟩, le_rfl⟩
    rcases hfits with rfl | hfits
    · rfl
    · exact count_of_le (hfits.trans (by decide))

end Extents

namespace Circuit

variable {c : Circuit} {counting : Counting} {depth : Nat}

/-- Every wire of the circuit has a counter exactly if there are counters for all indices. -/
theorem has_wires_iff {qubits bits : Nat} :
    (∀ inst ∈ c.instructions, ∀ wire ∈ inst.wires, (Levels.start qubits bits).Has wire) ↔
      c.numQubits ≤ qubits ∧ c.numBits ≤ bits := by
  rw [numQubits, numBits, extent_le_iff, extent_le_iff, List.forall_mem_flatMap,
    List.forall_mem_flatMap, ← forall₂_and]
  refine forall₂_congr fun inst _ => ?_
  simp only [Instruction.wires, List.forall_mem_append, List.forall_mem_map, Levels.has_start]

theorem depthIn_eq_some_iff :
    c.depthIn counting = some depth ↔ ∃ qubits bits levels,
      counting.counters c.numQubits = some qubits ∧ counting.counters c.numBits = some bits ∧
      c.instructions.foldlM Levels.place? (.start qubits bits) = some levels ∧
      levels.deepest = depth := by
  simp [depthIn, Option.bind_eq_some_iff]

/-- The sweep comes to its end if there can be as many counters as there are indices. -/
theorem exists_depthIn_iff :
    (∃ depth, c.depthIn counting = some depth) ↔
      counting = .exact ∨ c.numQubits ≤ maxCounters ∧ c.numBits ≤ maxCounters := by
  constructor
  · rintro ⟨depth, h⟩
    obtain ⟨qubits, bits, levels, hqubits, hbits, hlevels, -⟩ := depthIn_eq_some_iff.1 h
    obtain ⟨hqubits', hbits'⟩ := has_wires_iff.1 (Levels.has_of_foldlM_place? hlevels)
    have hfits := (Counting.counters_iff.1 ⟨hqubits, hqubits'⟩).2
    have hfits' := (Counting.counters_iff.1 ⟨hbits, hbits'⟩).2
    by_cases hexact : counting = .exact
    · exact Or.inl hexact
    · exact Or.inr ⟨hfits.resolve_left hexact, hfits'.resolve_left hexact⟩
  · intro h
    have hqubits := Counting.counters_iff.2 ⟨rfl, h.imp_right And.left⟩
    have hbits := Counting.counters_iff.2 ⟨rfl, h.imp_right And.right⟩
    obtain ⟨levels, hlevels⟩ :=
      Levels.exists_foldlM_place? (has_wires_iff.2 ⟨hqubits.2, hbits.2⟩)
    exact ⟨_, depthIn_eq_some_iff.2 ⟨_, _, levels, hqubits.1, hbits.1, hlevels, rfl⟩⟩

theorem isGreatest_depthIn (h : c.depthIn counting = some depth) :
    IsGreatest (chainCounts c.instructions fun _ => True) depth := by
  obtain ⟨qubits, bits, levels, -, -, hlevels, rfl⟩ := depthIn_eq_some_iff.1 h
  exact ((Levels.CountsChains.start qubits bits).foldlM hlevels).deepest

/-- Circuits with the same chain counts and as many counters are equally deep. -/
theorem depthIn_eq_of_chainCounts {c' : Circuit} (hqubits : c.numQubits = c'.numQubits)
    (hbits : c.numBits = c'.numBits)
    (h : chainCounts c.instructions (fun _ => True) ⊆ chainCounts c'.instructions fun _ => True)
    (h' : chainCounts c'.instructions (fun _ => True) ⊆ chainCounts c.instructions fun _ => True) :
    c.depthIn counting = c'.depthIn counting := by
  have hexists : (∃ depth, c.depthIn counting = some depth) ↔
      ∃ depth, c'.depthIn counting = some depth := by
    rw [exists_depthIn_iff, exists_depthIn_iff, hqubits, hbits]
  refine Option.ext fun depth => ⟨fun hdepth => ?_, fun hdepth => ?_⟩
  · obtain ⟨other, hother⟩ := hexists.1 ⟨depth, hdepth⟩
    have hsets := h.antisymm h'
    rw [hother, (isGreatest_depthIn hdepth).unique (hsets ▸ isGreatest_depthIn hother)]
  · obtain ⟨other, hother⟩ := hexists.2 ⟨depth, hdepth⟩
    have hsets := h.antisymm h'
    rw [hother, (isGreatest_depthIn hother).unique (hsets ▸ isGreatest_depthIn hdepth)]

/-- The indices of a circuit are those of its instructions, in whatever order. -/
theorem bounds_eq_of_mem_iff (name : String) {insts insts' : List Instruction}
    (h : ∀ inst, inst ∈ insts ↔ inst ∈ insts') :
    numQubits ⟨name, insts⟩ = numQubits ⟨name, insts'⟩ ∧
      numBits ⟨name, insts⟩ = numBits ⟨name, insts'⟩ := by
  refine ⟨extent_congr fun i => ?_, extent_congr fun i => ?_⟩ <;> simp only [List.mem_flatMap, h]

/-- The depth in the opposite order. -/
theorem depthIn_reverse (name : String) (insts : List Instruction) :
    depthIn counting ⟨name, insts.reverse⟩ = depthIn counting ⟨name, insts⟩ := by
  have hback : chainCounts insts.reverse.reverse (fun _ => True) ⊆
      chainCounts insts.reverse fun _ => True := chainCounts_reverse_subset
  rw [List.reverse_reverse] at hback
  have hsame : ∀ inst, inst ∈ insts.reverse ↔ inst ∈ insts := fun _ => List.mem_reverse
  obtain ⟨hqubits, hbits⟩ := bounds_eq_of_mem_iff name hsame
  exact depthIn_eq_of_chainCounts hqubits hbits chainCounts_reverse_subset hback

end Circuit

/-! ### Chains of positions -/

section Positions

variable {c : Circuit}

/-- Increasing positions of a circuit, the instructions at each two
consecutive ones on a common wire. -/
def Circuit.DependencyChain (c : Circuit) (positions : List (Fin c.instructions.length)) : Prop :=
  positions.Pairwise (· < ·) ∧
    (positions.map fun i => c.instructions[i]).IsChain Instruction.SharesWire

theorem Circuit.mem_chainCounts_iff {k : Nat} :
    k ∈ chainCounts c.instructions (fun _ => True) ↔
      ∃ positions, c.DependencyChain positions ∧
        layerCount (positions.map fun i => c.instructions[i]) = k := by
  constructor
  · rintro ⟨l, hsub, hchain, -, rfl⟩
    obtain ⟨positions, rfl, hincreasing⟩ := List.sublist_eq_map_getElem hsub
    exact ⟨positions, ⟨hincreasing, hchain⟩, rfl⟩
  · rintro ⟨positions, ⟨hincreasing, hchain⟩, rfl⟩
    exact ⟨_, List.map_getElem_sublist hincreasing, hchain, by simp, rfl⟩

end Positions

/-! ### The inverse -/

/-- Where an instruction is placed depends on its wires and on whether it is a
barrier. -/
theorem Levels.place?_congr {inst inst' : Instruction} (levels : Levels)
    (hwires : inst'.wires = inst.wires) (hbarrier : inst'.isBarrier = inst.isBarrier) :
    levels.place? inst' = levels.place? inst := by
  simp only [place?, hwires, hbarrier]

/-- An inverse is on the same targets. -/
theorem Instruction.targets_inverse {inst inst' : Instruction} (h : inst.inverse = .ok inst') :
    inst'.qubits = inst.qubits ∧ inst'.bits = inst.bits := by
  obtain ⟨op, -, rfl⟩ := map_eq_ok_iff.1 h
  exact ⟨rfl, rfl⟩

/-- An inverse is on the same wires, and a barrier exactly if the instruction is. -/
theorem Instruction.place?_inverse {inst inst' : Instruction} (h : inst.inverse = .ok inst')
    (levels : Levels) : levels.place? inst' = levels.place? inst := by
  obtain ⟨op, hop, rfl⟩ := map_eq_ok_iff.1 h
  refine levels.place?_congr rfl ?_
  change op.isBarrier = inst.operation.isBarrier
  rcases Operation.inverse_eq_ok_iff.1 hop with ⟨-, rfl⟩ | ⟨hunitary, rfl⟩
  · rfl
  · rw [Operation.isBarrier_of_isUnitary hunitary,
      Operation.isBarrier_of_isUnitary ((Operation.isUnitary_invert _).trans hunitary)]

section Inverses

variable {insts results : List Instruction}
  (h : List.Forall₂ (fun inst result => inst.inverse = .ok result) insts results)

include h

theorem Levels.foldlM_place?_inverse (levels : Levels) :
    results.foldlM place? levels = insts.foldlM place? levels := by
  induction h generalizing levels with
  | nil => rfl
  | cons hhead _ ih =>
      rw [List.foldlM_cons, List.foldlM_cons, Instruction.place?_inverse hhead]
      exact congrArg _ (funext fun next => ih next)

theorem Instruction.flatMap_targets_inverse :
    results.flatMap qubits = insts.flatMap qubits ∧ results.flatMap bits = insts.flatMap bits := by
  induction h with
  | nil => exact ⟨rfl, rfl⟩
  | cons hhead _ ih =>
      obtain ⟨hqubits, hbits⟩ := targets_inverse hhead
      simp only [List.flatMap_cons, hqubits, hbits, ih.1, ih.2, and_self]

end Inverses

namespace Circuit

variable {c inv : Circuit} {counting : Counting}

theorem depthIn_inverse (h : c.inverse = .ok inv) : inv.depthIn counting = c.depthIn counting := by
  obtain ⟨results, hresults, rfl⟩ := map_eq_ok_iff.1 h
  have hinverses := mapM_eq_ok_iff.1 hresults
  obtain ⟨hqubits, hbits⟩ := Instruction.flatMap_targets_inverse hinverses
  have hsame : depthIn counting ⟨c.name, results⟩ =
      depthIn counting ⟨c.name, c.instructions.reverse⟩ := by
    simp only [depthIn, numQubits, numBits, hqubits, hbits,
      Levels.foldlM_place?_inverse hinverses]
  exact hsame.trans (depthIn_reverse c.name c.instructions)

theorem depthIn_nil (counting : Counting) (name : String) :
    depthIn counting ⟨name, []⟩ = some 0 := by
  cases counting <;> rfl

theorem depthIn_swap (name : String) (front back : List Instruction) (h : ¬ a.SharesWire b) :
    depthIn counting ⟨name, front ++ b :: a :: back⟩ =
      depthIn counting ⟨name, front ++ a :: b :: back⟩ := by
  have hsame : ∀ inst, inst ∈ front ++ b :: a :: back ↔ inst ∈ front ++ a :: b :: back := by
    simp [or_left_comm]
  obtain ⟨hqubits, hbits⟩ := bounds_eq_of_mem_iff name hsame
  exact depthIn_eq_of_chainCounts hqubits hbits
    (chainCounts_swap_subset fun hshare => h hshare.symm) (chainCounts_swap_subset h)

/-- The depth is the greatest number of instructions other than barriers at
increasing positions of which each two consecutive ones share a qubit or a
bit, and the program only stops where an array with a counter for every index
cannot be.  So a circuit without instructions has depth zero, a circuit is as
deep as its inverse, and two neighbours without a common wire may change
places. -/
theorem depth_longest_chain (counting : Counting) (c : Circuit) :
    ((∃ depth, c.depthIn counting = some depth) ↔
        counting = .exact ∨ c.numQubits ≤ maxCounters ∧ c.numBits ≤ maxCounters) ∧
      (∀ depth, c.depthIn counting = some depth →
        IsGreatest {k | ∃ positions, c.DependencyChain positions ∧
          layerCount (positions.map fun i => c.instructions[i]) = k} depth) ∧
      (c.instructions = [] → c.depthIn counting = some 0) ∧
      (∀ inv, c.inverse = .ok inv → inv.depthIn counting = c.depthIn counting) ∧
      ∀ front a b back, c.instructions = front ++ a :: b :: back → ¬ a.SharesWire b →
        depthIn counting { c with instructions := front ++ b :: a :: back } =
          c.depthIn counting := by
  have hchains : chainCounts c.instructions (fun _ => True) = {k | ∃ positions,
      c.DependencyChain positions ∧
        layerCount (positions.map fun i => c.instructions[i]) = k} :=
    Set.ext fun _ => mem_chainCounts_iff
  refine ⟨exists_depthIn_iff, fun depth hdepth => hchains ▸ isGreatest_depthIn hdepth, ?_,
    fun inv => depthIn_inverse, ?_⟩
  · intro hempty
    exact (congrArg (fun insts => depthIn counting ⟨c.name, insts⟩) hempty).trans
      (depthIn_nil counting c.name)
  · intro front a b back hinsts happart
    have hswap : depthIn counting ⟨c.name, front ++ b :: a :: back⟩ =
        depthIn counting ⟨c.name, front ++ a :: b :: back⟩ := depthIn_swap c.name front back happart
    rw [← hinsts] at hswap
    exact hswap

/-- Two gates on qubits of their own, and a barrier under a third one that
lifts it above the first. -/
def acrossBarrier : Circuit :=
  ⟨"across", [⟨.gate .s, [0], [], []⟩, ⟨.gate .h, [1], [], []⟩,
    ⟨.barrier 2, [0, 2], [], []⟩, ⟨.gate .t, [2], [], []⟩]⟩

/-- The first and the last gate form a chain through the barrier; the depth is
the same in the opposite direction and with the first two gates exchanged. -/
theorem depth_longest_chain_acrossBarrier :
    (∃ depth, acrossBarrier.depthIn .stops = some depth ∧ 2 ≤ depth) ∧
      depthIn .stops ⟨"across", [⟨.inverted (.gate .t), [2], [], []⟩,
        ⟨.barrier 2, [0, 2], [], []⟩, ⟨.inverted (.gate .h), [1], [], []⟩,
        ⟨.inverted (.gate .s), [0], [], []⟩]⟩ = acrossBarrier.depthIn .stops ∧
      depthIn .stops ⟨"across", [⟨.gate .h, [1], [], []⟩, ⟨.gate .s, [0], [], []⟩,
        ⟨.barrier 2, [0, 2], [], []⟩, ⟨.gate .t, [2], [], []⟩]⟩ =
          acrossBarrier.depthIn .stops := by
  obtain ⟨hexists, hgreatest, -, hinverse, hswap⟩ := depth_longest_chain .stops acrossBarrier
  obtain ⟨depth, hdepth⟩ := hexists.2 (Or.inr (by decide))
  have hincreasing : ([0, 2, 3] : List (Fin 4)).Pairwise (· < ·) := by decide
  refine ⟨⟨depth, hdepth, (hgreatest depth hdepth).2 ⟨_, ⟨hincreasing, ?_⟩, rfl⟩⟩, hinverse _ rfl,
    hswap [] _ _ _ rfl (by decide)⟩
  change List.IsChain Instruction.SharesWire
    [⟨.gate .s, [0], [], []⟩, ⟨.barrier 2, [0, 2], [], []⟩, ⟨.gate .t, [2], [], []⟩]
  decide

/-- X on the qubit with the greatest index there is. -/
def farthestQubit : Circuit :=
  ⟨"far", [⟨.gate .x, [maxIndex], [], []⟩]⟩

/-- The number of its qubits does not fit in 64 bits.  If the bits that do not fit are lost, no
counter is left. -/
theorem farthestQubit_has_no_depth :
    (∀ inst ∈ farthestQubit.instructions, inst.Valid) ∧
      farthestQubit.depthIn .stops = none ∧ farthestQubit.depthIn .wraps = none ∧
      IsGreatest {k | ∃ positions, farthestQubit.DependencyChain positions ∧
        layerCount (positions.map fun i => farthestQubit.instructions[i]) = k} 1 := by
  refine ⟨?_, rfl, rfl, ⟨[⟨0, Nat.one_pos⟩], ⟨List.pairwise_singleton _ _, .singleton _⟩, rfl⟩, ?_⟩
  · exact List.forall_mem_singleton.2
      (Instruction.valid_of_isUnitary rfl rfl (List.nodup_singleton _))
  · rintro k hk
    obtain ⟨l, hsub, -, -, rfl⟩ := mem_chainCounts_iff.2 hk
    exact List.countP_le_length.trans hsub.length_le

end Circuit

end GateAlgebra
