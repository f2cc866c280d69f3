import GateAlgebra.Proofs.ControlledRoot
import GateAlgebra.Proofs.Exact
import GateAlgebra.Proofs.LowerStep
import GateAlgebra.Proofs.Rank
/-!
Instructions that lowering hands out.  They are valid gates in normal form again, and an
operation that lowers to one instruction lowers to one on the same qubits and of a form
that says how to take a power of it.
-/

namespace GateAlgebra

section Expansion

/-- The operations that gates expand to. -/
inductive IsStep : Operation → Prop where
  | gate (g : Gate) : IsStep (.gate g)
  | sdg : IsStep .sdg
  | cx : IsStep .cx

/-- A gate expands to at least two operations on no more qubits than it has. -/
theorem isStep_of_expansionSteps {g : Gate} {qubits : List Nat}
    {steps : List (Operation × List Nat)} (h : g.expansionSteps qubits = some steps) :
    2 ≤ steps.length ∧
      ∀ step ∈ steps, IsStep step.1 ∧ step.1.numQubits ≤ g.numQubits := by
  cases g <;> simp only [Gate.expansionSteps, reduceCtorEq, Option.some.injEq] at h
  all_goals
    subst h
    refine ⟨by simp, ?_⟩
    simp only [List.forall_mem_cons, List.not_mem_nil, false_imp_iff, implies_true, and_true]
    and_intros <;>
      first
        | exact .gate _
        | exact .sdg
        | exact .cx
        | exact Nat.le_of_ble_eq_true rfl

theorem IsStep.exact {op : Operation} (h : IsStep op) {c n : Nat}
    (hone : (Exponent.ofNat 1).HalvesExactly (c + (n - 1))) (hn : op.numQubits ≤ n) :
    op.Exact c := by
  cases h with
  | gate g => exact .gate (hone.mono (Nat.add_le_add_left (Nat.sub_le_sub_right hn 1) c))
  | sdg =>
      refine ⟨rfl, ⟨by simp [Operation.kind], trivial⟩, ?_⟩
      exact hone.mono (Nat.le_add_right c _)
  | cx =>
      refine ⟨rfl, ⟨Nat.one_pos, by simp [Operation.kind], trivial⟩, ?_⟩
      have htwo : 2 ≤ n := hn
      apply hone.mono
      simp only [Gate.numQubits]
      omega

end Expansion

section Lists

variable {α β : Type} {R : α → List β → Prop} {items : List α} {lists : List (List β)}

theorem length_le_length_flatten (hlists : List.Forall₂ R items lists)
    (hR : ∀ item ∈ items, ∀ list, R item list → list ≠ []) :
    items.length ≤ lists.flatten.length := by
  induction hlists with
  | nil => exact Nat.le_refl 0
  | @cons item list items lists hhead _ ih =>
      have hpositive := List.length_pos_iff.2 (hR _ List.mem_cons_self _ hhead)
      have hrest := ih fun other hother => hR other (List.mem_cons_of_mem item hother)
      rw [List.length_cons, List.flatten_cons, List.length_append]
      omega

theorem forall_mem_of_forall₂ {γ : Type} {Q : α → γ → Prop} {P : γ → Prop} {images : List γ}
    (himages : List.Forall₂ Q items images)
    (hQ : ∀ item ∈ items, ∀ image, Q item image → P image) : ∀ image ∈ images, P image := by
  induction himages with
  | nil => simp
  | @cons item image items images hhead _ ih =>
      rw [List.forall_mem_cons]
      exact ⟨hQ _ List.mem_cons_self _ hhead,
        ih fun other hother => hQ other (List.mem_cons_of_mem item hother)⟩

/-- A single image is that of a single item. -/
theorem forall₂_singleton_right_iff {γ : Type} {Q : α → γ → Prop} {image : γ} :
    List.Forall₂ Q items [image] ↔ ∃ item, items = [item] ∧ Q item image := by
  constructor
  · intro h
    obtain ⟨item, rest, hitem, hrest, rfl⟩ := List.forall₂_cons_right_iff.1 h
    obtain rfl := List.forall₂_nil_right_iff.1 hrest
    exact ⟨item, rfl, hitem⟩
  · rintro ⟨item, rfl, hitem⟩
    exact .cons hitem .nil

theorem forall_mem_flatten {P : β → Prop} (hlists : List.Forall₂ R items lists)
    (hR : ∀ item ∈ items, ∀ list, R item list → ∀ x ∈ list, P x) :
    ∀ x ∈ lists.flatten, P x := by
  intro x hx
  obtain ⟨list, hlist, hmem⟩ := List.mem_flatten.1 hx
  exact forall_mem_of_forall₂ hlists hR list hlist x hmem

theorem singleton_mem_of_flatten {lists : List (List β)} {b : β} (h : lists.flatten = [b]) :
    [b] ∈ lists := by
  induction lists with
  | nil => cases h
  | cons list lists ih =>
      rw [List.flatten_cons, List.append_eq_singleton_iff] at h
      rcases h with ⟨-, hrest⟩ | ⟨hfirst, -⟩
      · exact List.mem_cons_of_mem list (ih hrest)
      · rw [hfirst]
        exact List.mem_cons_self

theorem eq_one_of_flatten_replicate {n : Nat} {list : List α} {a : α}
    (h : (List.replicate n list).flatten = [a]) : n = 1 := by
  have hlength := congrArg List.length h
  rw [List.length_flatten, List.map_replicate, List.sum_replicate, smul_eq_mul,
    List.length_singleton] at hlength
  exact Nat.dvd_one.1 ⟨_, hlength.symm⟩

end Lists

section Nonempty

variable {free : List Nat}

/-- What a gate expands to does not vanish. -/
theorem lowerWithin_ne_nil {depth : Nat} {inst : Instruction} {emitted : List Instruction}
    (hstep : IsStep inst.operation) (h : lowerWithin free depth inst = .done emitted) :
    emitted ≠ [] := by
  induction depth generalizing inst emitted with
  | zero => exact absurd h Emission.unfinished_ne_done
  | succ depth ih =>
      cases lowerStep_cases h with
      | keep => exact List.cons_ne_nil _ _
      | expand hop hsteps hlists =>
          obtain ⟨hlength, hall⟩ := isStep_of_expansionSteps hsteps
          have htwo := length_le_length_flatten hlists
            fun step hmem list hlist => ih (hall step hmem).1 hlist.2
          rw [← List.length_pos_iff]
          omega
      | invert hop hvalid hsub hinverses =>
          rw [hop] at hstep
          cases hstep
          rw [← List.length_pos_iff, ← hinverses.length_eq, List.length_reverse]
          exact List.length_pos_iff.2 (ih (.gate _) hsub)
      | blocks hop | zeroth hop | times hop | root hop | powerOf hop =>
          rw [hop] at hstep
          cases hstep
      | controlX hn hop | controlRoot hn hop =>
          rw [hop] at hstep
          cases hstep
          exact absurd rfl hn
      | controlEach hop hvalid hsub hcontrolled =>
          rw [hop] at hstep
          cases hstep
          rw [← List.length_pos_iff, ← hcontrolled.length_eq]
          exact List.length_pos_iff.2 (ih (.gate _) hsub)

end Nonempty

/-- A valid gate in normal form, exact under `c` further controls, and no copies. -/
structure Instruction.Lowered (c : Nat) (inst : Instruction) : Prop where
  valid : inst.Valid
  exact : inst.operation.Exact c
  not_repeated : inst.operation.kind ≠ .repeated

section Roots

variable {c : Nat}

theorem lowered_of_isToggle {support : List Nat} {inst : Instruction} {op : Operation} {d : Nat}
    (hd : 2 ≤ d) (hop : op.Exact (c + d)) (h : inst.IsToggle support) : inst.Lowered c := by
  have hone := (hop.roots.halves_one hop.unitary).mono (Nat.le_add_right c d)
  have hmem := h.operation_mem
  simp only [List.mem_cons, List.not_mem_nil, or_false] at hmem
  rcases hmem with heq | heq | heq
  · refine ⟨h.valid, ?_, by simp [heq, Operation.kind]⟩
    rw [heq]
    exact .gate hone
  · refine ⟨h.valid, ?_, by simp [heq, Operation.kind, Operation.cx, Operation.controlledGate]⟩
    rw [heq]
    exact hop.controlledGate Nat.one_pos rfl (by omega)
  · refine ⟨h.valid, ?_, by simp [heq, Operation.kind, Operation.ccx, Operation.controlledGate]⟩
    rw [heq]
    exact hop.controlledGate Nat.two_pos rfl hd

theorem kind_addControls (n : Nat) (op : Operation) :
    (op.addControls n).kind = .controlled := by
  cases op <;> rfl

theorem lowered_of_control_one {op : Operation} (hop : op.Exact (c + 1)) {qubits : List Nat}
    {emitted : List Instruction}
    (h : (Emission.build (op.control 1) fun controlled => .apply controlled qubits) =
      .done emitted) : ∀ inst ∈ emitted, inst.Lowered c := by
  rw [Operation.control_eq_ok Nat.one_pos hop.unitary, Emission.build_ok,
    Emission.apply_eq_done_iff] at h
  obtain ⟨rfl, hvalid⟩ := h
  intro inst hinst
  obtain rfl := List.mem_singleton.1 hinst
  exact ⟨hvalid, hop.addControls Nat.one_pos, by simp [kind_addControls]⟩

theorem rootLadder_lowered {op : Operation} {controls free : List Nat} {target : Nat}
    {emitted : List Instruction} (hop : op.Exact (c + controls.length)) (hcore : op.IsCore)
    (hnodup : (controls ++ target :: free).Nodup)
    (h : rootLadder op controls target free = .done emitted) :
    ∀ inst ∈ emitted, inst.Lowered c := by
  induction controls generalizing op free emitted with
  | nil =>
      obtain ⟨rfl, hvalid⟩ := Emission.apply_eq_done_iff.1 h
      intro inst hinst
      obtain rfl := List.mem_singleton.1 hinst
      refine ⟨hvalid, hop, ?_⟩
      intro hkind
      exact hcore (by simp [show op.kind = .repeated from hkind])
  | cons last rest ih =>
      cases hrest : rest with
      | nil =>
          subst hrest
          exact lowered_of_control_one hop h
      | cons second others =>
          have hpositive : 0 < rest.length := by simp [hrest]
          have hroot : (op.raise .half).Exact (c + rest.length) := hop.root hcore
          have hrootCore := (Operation.raise_half_of_core hop.canonical hcore).2.2
          have hone : (op.raise .half).Exact (c + 1) := hroot.mono (by omega)
          obtain ⟨flip, hflip, hflipKind, -⟩ : (borrowingX rest.reverse last target free).Performs
              (rest.reverse ++ last :: target :: free) (toggle rest.reverse last) :=
            borrowingX_performs (by grind) (List.Subset.refl _)
          have hflipLowered : ∀ inst ∈ flip, inst.Lowered c := fun inst hinst =>
            lowered_of_isToggle (by simp [hrest]) hop (hflipKind inst hinst)
          rw [rootLadder_cons hop.unitary (by simp [hrest]), hflip] at h
          simp only [Emission.sequence_cons, Emission.sequence_nil, Emission.done_andThen,
            Emission.andThen_eq_done_iff, Emission.done_inj] at h
          obtain ⟨first, _, hfirst, ⟨_, _, rfl, ⟨middle, _, hmiddle, ⟨_, final, rfl, hfinal,
            rfl⟩, rfl⟩, rfl⟩, rfl⟩ := h
          have hwidened : (rest ++ target :: (free ++ [last])).Nodup := by grind
          simp only [List.forall_mem_append]
          exact ⟨lowered_of_control_one hone hfirst, hflipLowered,
            lowered_of_control_one hone.invert hmiddle, hflipLowered,
            ih hroot hrootCore hwidened hfinal⟩

end Roots

section Targets

theorem subset_of_expansionSteps {g : Gate} {qubits : List Nat}
    {steps : List (Operation × List Nat)} (hlength : qubits.length = g.numQubits)
    (h : g.expansionSteps qubits = some steps) : ∀ step ∈ steps, step.2 ⊆ qubits := by
  cases g <;> simp only [Gate.expansionSteps, reduceCtorEq, Option.some.injEq] at h
  case u =>
    subst h
    simp
  all_goals
    obtain ⟨a, b, rfl⟩ := List.length_eq_two.1 hlength
    subst h
    simp

theorem subset_of_mem_blocks {width count : Nat} {indices block : List Nat}
    (h : block ∈ blocks width indices count) : block ⊆ indices := by
  induction count generalizing indices with
  | zero => simp [blocks] at h
  | succ count ih =>
      unfold blocks at h
      split at h
      · simp at h
      · rcases List.mem_cons.1 h with rfl | h
        · exact List.take_subset width indices
        · exact List.Subset.trans (ih h) (List.drop_subset width indices)

end Targets

/-- The targets of a controlled operation on one qubit are one qubit. -/
theorem Instruction.Valid.drop_eq_singleton {inst : Instruction} (hvalid : inst.Valid) {n : Nat}
    {w : Operation} (hop : inst.operation = .controlled n w) (hqubit : w.numQubits = 1) :
    ∃ target ∈ inst.qubits, inst.qubits.drop n = [target] := by
  have hlength : inst.qubits.length = n + w.numQubits := by
    rw [hvalid.qubits_length, hop]
    rfl
  obtain ⟨target, htarget⟩ : ∃ target, inst.qubits.drop n = [target] := by
    apply List.length_eq_one_iff.1
    rw [List.length_drop, hlength, hqubit]
    omega
  have hmem : target ∈ inst.qubits.drop n := by simp [htarget]
  exact ⟨target, List.mem_of_mem_drop hmem, htarget⟩

/-- The controls and the one target of a controlled operation on one qubit. -/
theorem Instruction.Valid.split_controlled {inst : Instruction} (hvalid : inst.Valid) {n : Nat}
    {w : Operation} (hop : inst.operation = .controlled n w) (hqubit : w.numQubits = 1)
    {free : List Nat} (hfree : free.Nodup) (hdisjoint : ∀ q ∈ free, q ∉ inst.qubits) :
    ∃ target, inst.qubits.drop n = [target] ∧ (inst.qubits.take n).length = n ∧
      (inst.qubits.take n ++ target :: free).Nodup := by
  obtain ⟨target, -, htarget⟩ := hvalid.drop_eq_singleton hop hqubit
  refine ⟨target, htarget, hvalid.length_take hop, ?_⟩
  have hsplit := List.take_append_drop n inst.qubits
  rw [htarget] at hsplit
  have hnodup := hvalid.qubits_nodup
  rw [← hsplit] at hnodup hdisjoint
  grind

theorem Operation.kind_eq_of_beq {op other : Operation} (h : (op == other) = true) :
    op.kind = other.kind := by
  cases op <;> cases other <;> first | rfl | cases h

theorem Instruction.inverse_eq_ok_iff {inst other : Instruction}
    (hunitary : inst.operation.isUnitary = true) :
    inst.inverse = .ok other ↔ other = { inst with operation := inst.operation.invert } := by
  simp [Instruction.inverse, Operation.inverse_eq_ok hunitary, eq_comm]

theorem controlInstruction_eq_done_iff {controls : List Nat} {inst other : Instruction}
    (hcontrols : controls ≠ []) (hunitary : inst.operation.isUnitary = true) :
    controlInstruction controls inst = .done [other] ↔
      other = (inst.operation.addControls controls.length).on (controls ++ inst.qubits) ∧
        other.Valid := by
  have hlength : 0 < controls.length := List.length_pos_iff.2 hcontrols
  rw [controlInstruction, Operation.control_eq_ok hlength hunitary]
  simp only [Except.mapError, Emission.bind_ok, Emission.apply_eq_done_iff,
    List.cons.injEq, and_true]
  constructor
  · rintro ⟨rfl, hvalid⟩
    exact ⟨rfl, hvalid⟩
  · rintro ⟨rfl, hvalid⟩
    exact ⟨rfl, hvalid⟩

/-- How the only instruction that an instruction lowers to compares with it. -/
structure Instruction.IsOnly (inst only : Instruction) : Prop where
  qubits_eq : only.qubits = inst.qubits
  kind_of_leaf : inst.operation.kind ∈ [.gate, .custom] →
    only.operation.kind = inst.operation.kind
  kind_of_inverted : inst.operation.kind = .inverted → only.operation.kind = .inverted
  kind_of_powered : inst.operation.kind = .powered → only.operation.kind ∈ [.gate, .powered]

theorem Instruction.IsOnly.kind_of_inner {inst only : Instruction} (h : inst.IsOnly only)
    (hkind : inst.operation.kind ∈ [.gate, .custom, .powered]) :
    only.operation.kind ∈ [.gate, .custom, .powered] := by
  by_cases hpowered : inst.operation.kind = .powered
  · have hmem := h.kind_of_powered hpowered
    grind
  · have hleaf := h.kind_of_leaf (by grind)
    rwa [hleaf]

theorem Instruction.IsOnly.kind_of_base {inst only : Instruction} (h : inst.IsOnly only)
    (hkind : inst.operation.kind ∈ [.gate, .custom, .inverted]) :
    only.operation.kind ∈ [.gate, .custom, .inverted] := by
  by_cases hinverted : inst.operation.kind = .inverted
  · have hmem := h.kind_of_inverted hinverted
    grind
  · have hleaf := h.kind_of_leaf (by grind)
    rwa [hleaf]

/-- A valid gate in normal form, exact under `c` further controls, with qubits to borrow. -/
structure Instruction.Lowerable (c : Nat) (free : List Nat) (inst : Instruction) : Prop where
  valid : inst.Valid
  exact : inst.operation.Exact c
  free_nodup : free.Nodup
  free_disjoint : ∀ q ∈ free, q ∉ inst.qubits

theorem Instruction.Lowerable.exact_of {c : Nat} {free : List Nat} {inst : Instruction}
    {op : Operation} (h : inst.Lowerable c free) (hop : inst.operation = op) : op.Exact c := by
  rw [← hop]
  exact h.exact

theorem Instruction.Lowerable.on {c d : Nat} {free qubits : List Nat} {inst : Instruction}
    {op : Operation} (h : inst.Lowerable c free) (hvalid : (op.on qubits).Valid)
    (hexact : op.Exact d) (hsubset : qubits ⊆ inst.qubits) : (op.on qubits).Lowerable d free :=
  ⟨hvalid, hexact, h.free_nodup, fun q hq hmem => h.free_disjoint q hq (hsubset hmem)⟩

theorem Instruction.Lowerable.mono {c d : Nat} {free : List Nat} {inst : Instruction}
    (h : inst.Lowerable d free) (hcd : c ≤ d) : inst.Lowerable c free :=
  ⟨h.valid, h.exact.mono hcd, h.free_nodup, h.free_disjoint⟩

/-- Valid gates in normal form that an instruction is lowered to, a single one in a known
way. -/
structure Instruction.Emits (c : Nat) (inst : Instruction) (emitted : List Instruction) :
    Prop where
  lowered : ∀ part ∈ emitted, part.Lowered c
  only : inst.operation.IsCore → ∀ only, emitted = [only] → inst.IsOnly only

/-- Whatever further controls an instruction may be put under, so may what it is lowered
to. -/
def EmitsExactly (free : List Nat) (inst : Instruction) (emitted : List Instruction) : Prop :=
  ∀ c, inst.Lowerable c free → inst.Emits c emitted

theorem Instruction.Lowered.invert {c : Nat} {inst : Instruction} (h : inst.Lowered c) :
    ({ inst with operation := inst.operation.invert } : Instruction).Lowered c := by
  have hexact := h.exact.invert
  refine ⟨?_, hexact, ?_⟩
  · refine ⟨?_, ?_, ?_, ?_, h.valid.qubits_nodup, h.valid.bits_nodup, h.valid.zvars_nodup⟩
    · intro o ho
      have hunitary := hexact.unitary
      dsimp only at ho hunitary
      rw [ho] at hunitary
      cases hunitary
    · simpa using h.valid.qubits_length
    · simpa using h.valid.bits_length
    · simpa using h.valid.zvars_length
  · rcases Operation.kind_invert inst.operation with hkind | hkind | hback
    · rw [hkind]
      exact h.not_repeated
    · simp [hkind]
    · have hcanonical := h.exact.canonical
      rw [hback] at hcanonical
      intro hrepeated
      exact hcanonical.1 (by simp [hrepeated])

/-- What lowers to itself under controls is neither controlled nor repeated. -/
theorem isCore_of_isUnchanged {c d n : Nat} {w : Operation} {qubits : List Nat}
    {lowered : List Instruction} (hexact : (Operation.controlled n w).Exact c)
    (hlowered : ∀ part ∈ lowered, part.Lowered d)
    (hsame : isUnchanged lowered w qubits = true) : w.IsCore := by
  unfold isUnchanged at hsame
  split at hsame
  · rename_i only
    rw [Bool.and_eq_true] at hsame
    have hkind := Operation.kind_eq_of_beq hsame.1
    have hrepeated := (hlowered only List.mem_cons_self).not_repeated
    have hcontrolled := hexact.canonical.2.1
    rw [hkind] at hrepeated
    unfold Operation.IsCore
    grind
  · cases hsame

section Step

variable {c : Nat} {free : List Nat} {inst : Instruction} {w : Operation}
  {lowered emitted : List Instruction}

theorem Instruction.Lowerable.emits_self (h : inst.Lowerable c free)
    (hrepeated : inst.operation.kind ≠ .repeated) : inst.Emits c [inst] := by
  refine ⟨?_, ?_⟩
  · intro part hpart
    obtain rfl := List.mem_singleton.1 hpart
    exact ⟨h.valid, h.exact, hrepeated⟩
  · rintro - only ⟨⟩
    exact ⟨rfl, fun _ => rfl, fun h => h, fun h => by simp [h]⟩

/-- What a gate expands to may be lowered, and there are several steps of it. -/
theorem Instruction.Lowerable.step {g : Gate} {steps : List (Operation × List Nat)}
    (h : inst.Lowerable c free) (hop : inst.operation = .gate g)
    (hsteps : g.expansionSteps inst.qubits = some steps) {step : Operation × List Nat}
    (hstep : step ∈ steps) (hvalid : (step.1.on step.2).Valid) :
    (step.1.on step.2).Lowerable c free := by
  have hlength : inst.qubits.length = g.numQubits := by
    rw [h.valid.qubits_length, hop]
    rfl
  have hexact := h.exact_of hop
  obtain ⟨hkind, hnum⟩ := (isStep_of_expansionSteps hsteps).2 step hstep
  exact h.on hvalid (hkind.exact hexact.roots hnum)
    (subset_of_expansionSteps hlength hsteps step hstep)

theorem Instruction.Lowerable.block {n : Nat} (h : inst.Lowerable c free)
    (hop : inst.operation = .repeated n w) {width count : Nat} {block : List Nat}
    (hblock : block ∈ blocks width inst.qubits count) (hvalid : (w.on block).Valid) :
    (w.on block).Lowerable c free := by
  have hexact := h.exact_of hop
  exact h.on hvalid hexact.of_repeated (subset_of_mem_blocks hblock)

theorem Instruction.Lowerable.wrapped {e : Exponent} (h : inst.Lowerable c free)
    (hop : inst.operation = .inverted w ∨ inst.operation = .powered e w)
    (hvalid : (w.on inst.qubits).Valid) : (w.on inst.qubits).Lowerable c free := by
  have hexact := h.exact
  rcases hop with hop | hop
  · rw [hop] at hexact
    exact h.on hvalid hexact.of_inverted (List.Subset.refl _)
  · rw [hop] at hexact
    exact h.on hvalid hexact.of_powered (List.Subset.refl _)

theorem Instruction.Lowerable.root {e : Exponent} {g root : Gate} (h : inst.Lowerable c free)
    (hop : inst.operation = .powered e (.gate g)) (hroot : g.root? e = some root)
    (hvalid : ((Operation.gate root).on inst.qubits).Valid) :
    ((Operation.gate root).on inst.qubits).Lowerable c free := by
  have hexact := h.exact_of hop
  have hroots := hexact.of_powered.roots
  refine h.on hvalid (.gate ?_) (List.Subset.refl _)
  rw [Gate.numQubits_of_root? hroot]
  exact hroots

theorem Instruction.Lowerable.targets {n : Nat} (h : inst.Lowerable c free)
    (hop : inst.operation = .controlled n w) (hvalid : (w.on (inst.qubits.drop n)).Valid) :
    (w.on (inst.qubits.drop n)).Lowerable (c + n) free := by
  have hexact := h.exact_of hop
  exact h.on hvalid hexact.of_controlled (List.drop_subset n inst.qubits)

/-- The one instruction that the base of a power is lowered to keeps its targets, and
the power of it is a power. -/
theorem Instruction.Lowerable.powered {e : Exponent} {powered : Operation} {only : Instruction}
    (h : inst.Lowerable c free) (hop : inst.operation = .powered e w)
    (hemits : (w.on inst.qubits).Emits c [only])
    (hpowered : only.operation.power e = .ok powered)
    (hvalid : (powered.on only.qubits).Valid) :
    only.qubits = inst.qubits ∧ powered = .powered e only.operation ∧
      (powered.on only.qubits).Lowerable c free := by
  have hexact := h.exact_of hop
  have hkinds := hexact.kind_of_powered
  have hcore : w.IsCore := by
    unfold Operation.IsCore
    grind
  have hpart := hemits.lowered only List.mem_cons_self
  have hsame := hemits.only hcore only rfl
  have hbase : only.operation.kind ∉ [.powered, .controlled, .repeated] := by
    have hkind := hsame.kind_of_base hkinds
    grind
  obtain ⟨-, rfl⟩ := Operation.power_eq_ok_iff.1 hpowered
  have hraise := Operation.raise_eq_powered hexact.canonical.1 hbase
  have hwidth : only.operation.numQubits = w.numQubits := by
    have hlength := hpart.valid.qubits_length
    rw [hsame.qubits_eq, Operation.qubits_on, h.valid.qubits_length, hop] at hlength
    exact hlength.symm
  have hhalves := hexact.roots.1
  rw [← hwidth] at hhalves
  have hagain := hpart.exact.powered hexact.canonical.1 hbase hhalves
  rw [hraise] at hvalid ⊢
  refine ⟨hsame.qubits_eq, rfl, h.on hvalid hagain ?_⟩
  rw [hsame.qubits_eq]
  exact List.Subset.refl _

theorem emits_inverses (h : inst.Lowerable c free) (hop : inst.operation = .inverted w)
    {inverses : List Instruction} (hemits : (w.on inst.qubits).Emits c lowered)
    (hinverses : List.Forall₂ (fun part inverse => part.inverse = .ok inverse)
      lowered.reverse inverses) : inst.Emits c inverses := by
  have hexact := h.exact_of hop
  refine ⟨?_, ?_⟩
  · refine forall_mem_of_forall₂ hinverses fun part hpart inverse hinverse => ?_
    have hpart' := hemits.lowered part (List.mem_reverse.1 hpart)
    rw [Instruction.inverse_eq_ok_iff hpart'.exact.unitary] at hinverse
    rw [hinverse]
    exact hpart'.invert
  · rintro - only rfl
    obtain ⟨part, hsingle, hinverse⟩ := forall₂_singleton_right_iff.1 hinverses
    obtain rfl : lowered = [part] := by simpa using congrArg List.reverse hsingle
    have hpart := hemits.lowered part List.mem_cons_self
    have hkinds := hexact.kind_of_inverted
    have hcore : w.IsCore := by
      unfold Operation.IsCore
      grind
    have hsame := hemits.only hcore part rfl
    have hkind := hsame.kind_of_inner hkinds
    rw [Instruction.inverse_eq_ok_iff hpart.exact.unitary,
      Operation.invert_eq_inverted (by grind)] at hinverse
    subst hinverse
    exact ⟨hsame.qubits_eq, fun h => by simp [hop, Operation.kind] at h, fun _ => rfl,
      fun h => by simp [hop, Operation.kind] at h⟩

/-- Two times or more never amount to one instruction. -/
theorem emits_times (h : inst.Lowerable c free) {e : Exponent}
    (hop : inst.operation = .powered e w) {n : Nat} (hn : e.natural? = some (n + 1))
    (hemits : (w.on inst.qubits).Emits c lowered) :
    inst.Emits c (List.replicate (n + 1) lowered).flatten := by
  have hexact := h.exact_of hop
  refine ⟨?_, ?_⟩
  · intro part hpart
    obtain ⟨list, hlist, hmem⟩ := List.mem_flatten.1 hpart
    rw [List.eq_of_mem_replicate hlist] at hmem
    exact hemits.lowered part hmem
  · intro _ only honly
    rw [eq_one_of_flatten_replicate honly] at hn
    have hfalse := hexact.canonical.1
    rw [Exponent.isOne_of_natural? hn] at hfalse
    cases hfalse

/-- X under controls, by toggles or by roots. -/
theorem emits_controlledX (h : inst.Lowerable c free) {n : Nat} (hn : n ≠ 1)
    (hop : inst.operation = .controlled n (.gate .x))
    (hemitted : controlledX (inst.qubits.take n) ((inst.qubits.drop n).headD 0) free =
      .done emitted) : ∀ part ∈ emitted, part.Lowered c := by
  have hqubit : (Operation.gate .x).numQubits = 1 := rfl
  obtain ⟨target, hdrop, hcount, hnodup⟩ :=
    h.valid.split_controlled hop hqubit h.free_nodup h.free_disjoint
  have hexact := h.exact_of hop
  have hx := hexact.of_controlled
  have htwo : 2 ≤ n := by
    have hpositive := hexact.canonical.1
    omega
  rw [hdrop, List.headD_cons] at hemitted
  by_cases hborrow : (inst.qubits.take n).length ≤ 2 ∨ free ≠ []
  · obtain ⟨list, hdone, hkind, -⟩ :=
      controlledX_performs hborrow hnodup (List.Subset.refl _)
    obtain rfl := Emission.done_inj.1 (hdone.symm.trans hemitted)
    exact fun part hpart => lowered_of_isToggle htwo hx (hkind part hpart)
  · simp only [not_or, ne_eq, not_not] at hborrow
    obtain ⟨hmany, rfl⟩ := hborrow
    have hroot : controlledX (inst.qubits.take n) target [] =
        rootLadder (.gate .x) (inst.qubits.take n).reverse target [] := by
      simp only [controlledX, List.length_nil, Nat.zero_add, hmany, if_false, controlledRoot]
    rw [hroot] at hemitted
    refine rootLadder_lowered ?_ ?_ ?_ hemitted
    · rwa [List.length_reverse, hcount]
    · simp [Operation.IsCore, Operation.kind]
    · grind

theorem emits_controlledRoot (h : inst.Lowerable c free) {n : Nat}
    (hop : inst.operation = .controlled n w) (hqubit : w.numQubits = 1) (hcore : w.IsCore)
    (hemitted : controlledRoot w (inst.qubits.take n) ((inst.qubits.drop n).headD 0) free =
      .done emitted) : ∀ part ∈ emitted, part.Lowered c := by
  obtain ⟨target, hdrop, hcount, hnodup⟩ :=
    h.valid.split_controlled hop hqubit h.free_nodup h.free_disjoint
  have hexact := h.exact_of hop
  rw [hdrop, List.headD_cons] at hemitted
  refine rootLadder_lowered ?_ hcore ?_ hemitted
  · rw [List.length_reverse, hcount]
    exact hexact.of_controlled
  · grind

/-- Instructions under controls are valid, and made of the same targets with the controls
in front. -/
theorem Instruction.Lowerable.controls {d n : Nat} {controlled : List Instruction}
    (h : inst.Lowerable c free) (hop : inst.operation = .controlled n w)
    (hlowered : ∀ part ∈ lowered, part.Lowered d)
    (hcontrolled : List.Forall₂
      (fun part other => controlInstruction (inst.qubits.take n) part = .done [other])
      lowered controlled) :
    List.Forall₂ (fun part other => other.Valid ∧
      other = (part.operation.addControls (inst.qubits.take n).length).on
        (inst.qubits.take n ++ part.qubits)) lowered controlled := by
  have hexact := h.exact_of hop
  have hcontrols : inst.qubits.take n ≠ [] := by
    rw [← List.length_pos_iff, h.valid.length_take hop]
    exact hexact.canonical.1
  have hboth := (List.forall₂_and_left _ _).2 ⟨hlowered, hcontrolled⟩
  refine hboth.imp fun part other ⟨hpart, hother⟩ => ?_
  exact ((controlInstruction_eq_done_iff hcontrols hpart.exact.unitary).1 hother).symm

/-- One level of lowering. -/
theorem emitsExactly_of_lowerStep {Sub : Instruction → List Instruction → Prop}
    (ih : ∀ part list, Sub part list → EmitsExactly free part list)
    (hne : ∀ part list, IsStep part.operation → Sub part list → list ≠ [])
    (h : LowerStep Sub free inst emitted) : EmitsExactly free inst emitted := by
  intro c hinst
  have hplain : ∀ {op}, inst.operation = op → op.kind ∈ [.controlled, .repeated] →
      ∀ list : List Instruction, inst.operation.IsCore →
        ∀ only, list = [only] → inst.IsOnly only :=
    fun hop hkind _ hcore => absurd (hop ▸ hkind) hcore
  cases h with
  | keep _ hrepeated => exact hinst.emits_self hrepeated
  | @expand g steps lists hop hsteps hlists =>
      refine ⟨?_, ?_⟩
      · refine forall_mem_flatten hlists fun step hstep list hlist => ?_
        exact (ih _ _ hlist.2 c (hinst.step hop hsteps hstep hlist.1)).lowered
      · intro _ only honly
        obtain ⟨htwo, hkinds⟩ := isStep_of_expansionSteps hsteps
        have hlong := length_le_length_flatten hlists
          fun step hstep list hlist => hne _ _ (hkinds step hstep).1 hlist.2
        rw [honly, List.length_singleton] at hlong
        omega
  | invert hop hvalid hsub hinverses =>
      have hwrapped := hinst.wrapped (e := .ofNat 1) (Or.inl hop) hvalid
      exact emits_inverses hinst hop (ih _ _ hsub c hwrapped) hinverses
  | blocks hop hwidth hlists =>
      refine ⟨?_, hplain hop (by simp [Operation.kind]) _⟩
      refine forall_mem_flatten hlists fun block hblock list hlist => ?_
      exact (ih _ _ hlist.2 c (hinst.block hop hblock hlist.1)).lowered
  | zeroth hop hzero => exact ⟨by simp, fun _ only honly => by cases honly⟩
  | times hop hn hvalid hsub =>
      exact emits_times hinst hop hn (ih _ _ hsub c (hinst.wrapped (Or.inr hop) hvalid))
  | root hop hroot hvalid hsub =>
      have hemits := ih _ _ hsub c (hinst.root hop hroot hvalid)
      refine ⟨hemits.lowered, fun _ only hemitted => ?_⟩
      have hsame := hemits.only (by simp [Operation.IsCore, Operation.kind]) only hemitted
      refine ⟨hsame.qubits_eq, fun h => by simp [hop, Operation.kind] at h,
        fun h => by simp [hop, Operation.kind] at h, fun _ => ?_⟩
      rw [hsame.kind_of_leaf (by simp [Operation.kind])]
      simp [Operation.kind]
  | powerOf hop hvalid hsub hpowered hvalid' hsub' =>
      have hemits := ih _ _ hsub c (hinst.wrapped (Or.inr hop) hvalid)
      obtain ⟨hqubits, rfl, hagain⟩ := hinst.powered hop hemits hpowered hvalid'
      have hemits' := ih _ _ hsub' c hagain
      refine ⟨hemits'.lowered, fun _ last hemitted => ?_⟩
      have hsame := hemits'.only (by simp [Operation.IsCore, Operation.kind]) last hemitted
      exact ⟨hsame.qubits_eq.trans hqubits, fun h => by simp [hop, Operation.kind] at h,
        fun h => by simp [hop, Operation.kind] at h, fun _ => hsame.kind_of_powered rfl⟩
  | controlX hn hop hemitted =>
      exact ⟨emits_controlledX hinst hn hop hemitted, hplain hop (by simp [Operation.kind]) _⟩
  | controlRoot hn hop hqubit hvalid hsub hsame hemitted =>
      have hexact := hinst.exact_of hop
      have hemits := ih _ _ hsub _ (hinst.targets hop hvalid)
      have hcore := isCore_of_isUnchanged hexact hemits.lowered hsame
      exact ⟨emits_controlledRoot hinst hop hqubit hcore hemitted,
        hplain hop (by simp [Operation.kind]) _⟩
  | @controlEach n w lowered controlled hop hvalid hsub hcontrolled =>
      refine ⟨?_, hplain hop (by simp [Operation.kind]) _⟩
      have hexact := hinst.exact_of hop
      have hlowered := (ih _ _ hsub _ (hinst.targets hop hvalid)).lowered
      refine forall_mem_of_forall₂ (hinst.controls hop hlowered hcontrolled) ?_
      rintro part hpart other ⟨hvalid', rfl⟩
      have hpart' := hlowered part hpart
      rw [hinst.valid.length_take hop] at hvalid' ⊢
      refine ⟨hvalid', hpart'.exact.addControls hexact.canonical.1, ?_⟩
      simp [kind_addControls]

end Step

/-- Lowering at any depth. -/
theorem lowerWithin_emitsExactly {free : List Nat} {depth : Nat} {inst : Instruction}
    {emitted : List Instruction} (h : lowerWithin free depth inst = .done emitted) :
    EmitsExactly free inst emitted := by
  induction depth generalizing inst emitted with
  | zero => exact absurd h Emission.unfinished_ne_done
  | succ depth ih =>
      refine emitsExactly_of_lowerStep (fun part list hlist => ih hlist) ?_ (lowerStep_cases h)
      exact fun part list hstep hlist => lowerWithin_ne_nil hstep hlist

end GateAlgebra
