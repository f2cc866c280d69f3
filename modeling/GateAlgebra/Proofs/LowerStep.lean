import GateAlgebra.Lowering.Lower
import GateAlgebra.Proofs.Emission
/-!
What one level of lowering can do when it hands out everything.  All that is proved of
complete lowerings is proved case by case over this relation.
-/

namespace GateAlgebra

/-- An operation on qubits alone. -/
def Operation.on (op : Operation) (qubits : List Nat) : Instruction :=
  ⟨op, qubits, [], []⟩

@[simp] theorem Operation.operation_on (op : Operation) (qubits : List Nat) :
    (op.on qubits).operation = op := rfl

@[simp] theorem Operation.qubits_on (op : Operation) (qubits : List Nat) :
    (op.on qubits).qubits = qubits := rfl

theorem Operation.eq_x_of_beq {op : Operation} (h : (op == .gate .x) = true) :
    op = .gate .x := by
  cases op with
  | gate g =>
      cases g with
      | x => rfl
      | _ => cases h
  | _ => cases h

/-- The gate that a power of an operation is known to be. -/
def Operation.root? (op : Operation) (e : Exponent) : Option Gate :=
  match op with
  | .gate g => g.root? e
  | _ => none

/-- Why no rule applies to an instruction.  `Sub` tells what is lowered to find that out. -/
inductive Kept (Sub : Instruction → List Instruction → Prop) (inst : Instruction) : Prop where
  /-- A gate without an expansion. -/
  | gate {g : Gate} (hop : inst.operation = .gate g)
      (hsteps : g.expansionSteps inst.qubits = none) : Kept Sub inst
  /-- Neither a gate nor a modifier. -/
  | leaf (hgate : inst.operation.kind ≠ .gate) (hmodifier : inst.operation.isModifier = false) :
      Kept Sub inst
  /-- A power of several instructions, of none, or of one that stays as it is. -/
  | powered {e : Exponent} {w : Operation} {lowered : List Instruction}
      (hop : inst.operation = .powered e w) (hnone : e.natural? = none)
      (hroot : w.root? e = none) (hvalid : (w.on inst.qubits).Valid)
      (hsub : Sub (w.on inst.qubits) lowered)
      (hsame : ∀ only, lowered = [only] → isUnchanged [only] w inst.qubits = true) :
      Kept Sub inst
  /-- One control on one qubit. -/
  | single {n : Nat} {w : Operation} (hop : inst.operation = .controlled n w)
      (hone : w.numQubits = 1 ∧ n = 1) : Kept Sub inst
  /-- Controls on an operation that stays as it is, unless they are several on one qubit. -/
  | controlled {n : Nat} {w : Operation} {lowered : List Instruction}
      (hop : inst.operation = .controlled n w) (hmany : ¬(w.numQubits = 1 ∧ n = 1))
      (hvalid : (w.on (inst.qubits.drop n)).Valid)
      (hsub : Sub (w.on (inst.qubits.drop n)) lowered)
      (hsame : isUnchanged lowered w (inst.qubits.drop n) = true)
      (hfew : w.numQubits ≠ 1 ∨ (inst.qubits.take n).length = 1) : Kept Sub inst

/-- A complete lowering of one level.  `Sub` tells what is lowered within it. -/
inductive LowerStep (Sub : Instruction → List Instruction → Prop) (free : List Nat)
    (inst : Instruction) : List Instruction → Prop where
  /-- No rule applies. -/
  | keep (hinverted : inst.operation.kind ≠ .inverted)
      (hrepeated : inst.operation.kind ≠ .repeated) (hkept : Kept Sub inst) :
      LowerStep Sub free inst [inst]
  /-- A gate is expanded. -/
  | expand {g : Gate} {steps : List (Operation × List Nat)}
      {lists : List (List Instruction)} (hop : inst.operation = .gate g)
      (hsteps : g.expansionSteps inst.qubits = some steps)
      (hlists : List.Forall₂
        (fun step list => (step.1.on step.2).Valid ∧ Sub (step.1.on step.2) list)
        steps lists) : LowerStep Sub free inst lists.flatten
  /-- The inverses of a lowering, in reverse order. -/
  | invert {w : Operation} {lowered inverses : List Instruction}
      (hop : inst.operation = .inverted w) (hvalid : (w.on inst.qubits).Valid)
      (hsub : Sub (w.on inst.qubits) lowered)
      (hinverses : List.Forall₂ (fun part inverse => part.inverse = .ok inverse)
        lowered.reverse inverses) : LowerStep Sub free inst inverses
  /-- The lowerings of all blocks. -/
  | blocks {n : Nat} {w : Operation} {lists : List (List Instruction)}
      (hop : inst.operation = .repeated n w) (hwidth : w.numQubits ≠ 0)
      (hlists : List.Forall₂ (fun block list => (w.on block).Valid ∧ Sub (w.on block) list)
        (blocks w.numQubits inst.qubits inst.qubits.length) lists) :
      LowerStep Sub free inst lists.flatten
  /-- The zeroth power. -/
  | zeroth {e : Exponent} {w : Operation} (hop : inst.operation = .powered e w)
      (hzero : e.natural? = some 0) : LowerStep Sub free inst []
  /-- Any other whole power. -/
  | times {e : Exponent} {w : Operation} {n : Nat} {lowered : List Instruction}
      (hop : inst.operation = .powered e w) (hn : e.natural? = some (n + 1))
      (hvalid : (w.on inst.qubits).Valid) (hsub : Sub (w.on inst.qubits) lowered) :
      LowerStep Sub free inst (List.replicate (n + 1) lowered).flatten
  /-- A power of a gate that is a gate. -/
  | root {e : Exponent} {g root : Gate} {lowered : List Instruction}
      (hop : inst.operation = .powered e (.gate g)) (hroot : g.root? e = some root)
      (hvalid : ((Operation.gate root).on inst.qubits).Valid)
      (hsub : Sub ((Operation.gate root).on inst.qubits) lowered) (hnone : e.natural? = none) :
      LowerStep Sub free inst lowered
  /-- The power of the one instruction that an operation lowers to. -/
  | powerOf {e : Exponent} {w powered : Operation} {only : Instruction}
      {lowered : List Instruction} (hop : inst.operation = .powered e w)
      (hvalid : (w.on inst.qubits).Valid) (hsub : Sub (w.on inst.qubits) [only])
      (hpowered : only.operation.power e = .ok powered)
      (hvalid' : (powered.on only.qubits).Valid)
      (hsub' : Sub (powered.on only.qubits) lowered) (hnone : e.natural? = none)
      (hroot : w.root? e = none) (hchanged : isUnchanged [only] w inst.qubits = false) :
      LowerStep Sub free inst lowered
  /-- X under two controls or more. -/
  | controlX {n : Nat} {emitted : List Instruction} (hn : n ≠ 1)
      (hop : inst.operation = .controlled n (.gate .x))
      (hemitted : controlledX (inst.qubits.take n) ((inst.qubits.drop n).headD 0) free =
        .done emitted) {lowered : List Instruction}
      (hvalid : ((Operation.gate .x).on (inst.qubits.drop n)).Valid)
      (hsub : Sub ((Operation.gate .x).on (inst.qubits.drop n)) lowered)
      (hsame : isUnchanged lowered (.gate .x) (inst.qubits.drop n) = true) :
      LowerStep Sub free inst emitted
  /-- Another operation on one qubit, that lowers to itself, under two controls or more. -/
  | controlRoot {n : Nat} {w : Operation} {lowered emitted : List Instruction} (hn : n ≠ 1)
      (hop : inst.operation = .controlled n w) (hqubit : w.numQubits = 1)
      (hvalid : (w.on (inst.qubits.drop n)).Valid)
      (hsub : Sub (w.on (inst.qubits.drop n)) lowered)
      (hsame : isUnchanged lowered w (inst.qubits.drop n) = true)
      (hemitted : controlledRoot w (inst.qubits.take n) ((inst.qubits.drop n).headD 0) free =
        .done emitted) (hother : (w == .gate .x) = false) : LowerStep Sub free inst emitted
  /-- Everything that an operation lowers to, under its controls. -/
  | controlEach {n : Nat} {w : Operation} {lowered controlled : List Instruction}
      (hop : inst.operation = .controlled n w) (hvalid : (w.on (inst.qubits.drop n)).Valid)
      (hsub : Sub (w.on (inst.qubits.drop n)) lowered)
      (hcontrolled : List.Forall₂
        (fun part inst' => controlInstruction (inst.qubits.take n) part = .done [inst'])
        lowered controlled) (hmany : ¬(w.numQubits = 1 ∧ n = 1))
      (hchanged : isUnchanged lowered w (inst.qubits.drop n) = false) :
      LowerStep Sub free inst controlled

variable {lower : Instruction → Emission} {free : List Nat} {inst : Instruction}
  {emitted : List Instruction}

section Mono

variable {Sub Sub' : Instruction → List Instruction → Prop}

theorem Kept.mono (h : ∀ part list, Sub part list → Sub' part list) (hkept : Kept Sub inst) :
    Kept Sub' inst := by
  cases hkept with
  | gate hop hsteps => exact .gate hop hsteps
  | leaf hgate hmodifier => exact .leaf hgate hmodifier
  | powered hop hnone hroot hvalid hsub hsame =>
      exact .powered hop hnone hroot hvalid (h _ _ hsub) hsame
  | single hop hone => exact .single hop hone
  | controlled hop hmany hvalid hsub hsame hfew =>
      exact .controlled hop hmany hvalid (h _ _ hsub) hsame hfew

theorem LowerStep.mono (h : ∀ part list, Sub part list → Sub' part list)
    (hstep : LowerStep Sub free inst emitted) : LowerStep Sub' free inst emitted := by
  cases hstep with
  | keep hinverted hrepeated hkept => exact .keep hinverted hrepeated (hkept.mono h)
  | expand hop hsteps hlists =>
      exact .expand hop hsteps (hlists.imp fun step list hlist => hlist.imp_right (h _ _))
  | invert hop hvalid hsub hinverses => exact .invert hop hvalid (h _ _ hsub) hinverses
  | blocks hop hwidth hlists =>
      exact .blocks hop hwidth (hlists.imp fun block list hlist => hlist.imp_right (h _ _))
  | zeroth hop hzero => exact .zeroth hop hzero
  | times hop hn hvalid hsub => exact .times hop hn hvalid (h _ _ hsub)
  | root hop hroot hvalid hsub hnone => exact .root hop hroot hvalid (h _ _ hsub) hnone
  | powerOf hop hvalid hsub hpowered hvalid' hsub' hnone hroot hchanged =>
      exact .powerOf hop hvalid (h _ _ hsub) hpowered hvalid' (h _ _ hsub') hnone hroot hchanged
  | controlX hn hop hemitted hvalid hsub hsame =>
      exact .controlX hn hop hemitted hvalid (h _ _ hsub) hsame
  | controlRoot hn hop hqubit hvalid hsub hsame hemitted hother =>
      exact .controlRoot hn hop hqubit hvalid (h _ _ hsub) hsame hemitted hother
  | controlEach hop hvalid hsub hcontrolled hmany hchanged =>
      exact .controlEach hop hvalid (h _ _ hsub) hcontrolled hmany hchanged

end Mono

theorem lowerOn_eq {op : Operation} {qubits : List Nat} (h : (op.on qubits).Valid) :
    lowerOn lower op qubits = lower (op.on qubits) := by
  rw [lowerOn, Instruction.onQubits_eq_ok_iff.2 ⟨rfl, h⟩]
  rfl

theorem isUnchanged_on (op other : Operation) (qubits : List Nat) :
    isUnchanged [op.on qubits] other qubits = (op == other) := by
  simp [isUnchanged]

theorem lowerOn_eq_done_iff {op : Operation} {qubits : List Nat} :
    lowerOn lower op qubits = .done emitted ↔
      (op.on qubits).Valid ∧ lower (op.on qubits) = .done emitted := by
  unfold lowerOn
  rw [Emission.build_eq_done_iff]
  constructor
  · rintro ⟨made, hmade, hdone⟩
    obtain ⟨rfl, hvalid⟩ := Instruction.onQubits_eq_ok_iff.1 hmade
    exact ⟨hvalid, hdone⟩
  · rintro ⟨hvalid, hdone⟩
    exact ⟨_, Instruction.onQubits_eq_ok_iff.2 ⟨rfl, hvalid⟩, hdone⟩

theorem instructions_eq_ok_iff {steps : List (Operation × List Nat)}
    {made : List Instruction} :
    instructions steps = .ok made ↔
      made = steps.map (fun step => step.1.on step.2) ∧
        ∀ step ∈ steps, (step.1.on step.2).Valid := by
  induction steps generalizing made with
  | nil => simp [instructions, pure, Except.pure, eq_comm]
  | cons step steps ih =>
      have hcons : instructions (step :: steps) =
          (Instruction.onQubits step.1 step.2).bind fun first =>
            (instructions steps).bind fun others => .ok (first :: others) := by
        unfold instructions
        rw [List.mapM_cons]
        rfl
      rw [hcons]
      constructor
      · intro h
        cases hfirst : Instruction.onQubits step.1 step.2 with
        | error e => simp [hfirst, Except.bind] at h
        | ok first =>
            obtain ⟨rfl, hvalid⟩ := Instruction.onQubits_eq_ok_iff.1 hfirst
            cases hothers : instructions steps with
            | error e => simp [hfirst, hothers, Except.bind] at h
            | ok others =>
                obtain ⟨rfl, hall⟩ := ih.1 hothers
                simp only [hfirst, hothers, Except.bind, Except.ok.injEq] at h
                subst h
                exact ⟨rfl, List.forall_mem_cons.2 ⟨hvalid, hall⟩⟩
      · rintro ⟨rfl, hall⟩
        obtain ⟨hvalid, hothers⟩ := List.forall_mem_cons.1 hall
        rw [Instruction.onQubits_eq_ok_iff.2 ⟨rfl, hvalid⟩, ih.2 ⟨rfl, hothers⟩]
        rfl

/-- Expansions are made of valid instructions. -/
theorem expansion_eq_ok_iff {g : Gate} {qubits : List Nat}
    {expansion : Option (List Instruction)} :
    g.expansion qubits = .ok expansion ↔
      (g.expansionSteps qubits = none ∧ expansion = none) ∨
      ∃ steps, g.expansionSteps qubits = some steps ∧
        (∀ step ∈ steps, (step.1.on step.2).Valid) ∧
        expansion = some (steps.map fun step => step.1.on step.2) := by
  unfold Gate.expansion
  cases hsteps : g.expansionSteps qubits with
  | none => simp [eq_comm]
  | some steps =>
      dsimp only
      constructor
      · intro h
        right
        cases hmade : instructions steps with
        | error e => simp [hmade] at h
        | ok made =>
            obtain ⟨rfl, hvalid⟩ := instructions_eq_ok_iff.1 hmade
            rw [hmade] at h
            exact ⟨steps, rfl, hvalid, (Except.ok.inj h).symm⟩
      · rintro (⟨hnone, -⟩ | ⟨_, hsome, hvalid, rfl⟩)
        · cases hnone
        · cases hsome
          rw [instructions_eq_ok_iff.2 ⟨rfl, hvalid⟩]
          rfl

theorem lowerGate_cases {g : Gate} (hop : inst.operation = .gate g)
    (h : lowerGate lower inst g = .done emitted) :
    LowerStep (fun part list => lower part = .done list) free inst emitted := by
  unfold lowerGate at h
  rw [Emission.build_eq_done_iff] at h
  obtain ⟨expansion, hexpansion, hdone⟩ := h
  rcases expansion_eq_ok_iff.1 hexpansion with ⟨hnone, rfl⟩ | ⟨steps, hsteps, hvalid, rfl⟩
  · obtain rfl := Emission.done_inj.1 hdone
    exact .keep (by simp [hop, Operation.kind]) (by simp [hop, Operation.kind])
      (.gate hop hnone)
  · dsimp only at hdone
    rw [List.map_map, Emission.sequence_map_eq_done_iff] at hdone
    obtain ⟨lists, hlists, rfl⟩ := hdone
    exact .expand hop hsteps ((List.forall₂_and_left _ _).2 ⟨hvalid, hlists⟩)

/-- Parts that become one instruction each. -/
theorem exists_of_forall₂_singleton {α : Type} {r : α → Instruction → Prop} {parts : List α}
    {lists : List (List Instruction)}
    (h : List.Forall₂ (fun part list => ∃ inst, r part inst ∧ list = [inst]) parts lists) :
    List.Forall₂ r parts lists.flatten := by
  induction h with
  | nil => exact .nil
  | cons hhead _ ih =>
      obtain ⟨inst, hr, rfl⟩ := hhead
      exact .cons hr ih

theorem lowerInverted_cases {w : Operation} (hop : inst.operation = .inverted w)
    (h : lowerInverted lower w inst.qubits = .done emitted) :
    LowerStep (fun part list => lower part = .done list) free inst emitted := by
  unfold lowerInverted at h
  rw [Emission.whole_eq_done_iff] at h
  obtain ⟨lowered, hlowered, hdone⟩ := h
  rw [lowerOn_eq_done_iff] at hlowered
  rw [Emission.sequence_map_eq_done_iff] at hdone
  obtain ⟨lists, hlists, rfl⟩ := hdone
  refine .invert hop hlowered.1 hlowered.2 (exists_of_forall₂_singleton (hlists.imp ?_))
  intro part list hpart
  obtain ⟨inverse, hinverse, hlist⟩ := Emission.bind_eq_done_iff.1 hpart
  exact ⟨inverse, Emission.mapError_eq_ok_iff.1 hinverse, (Emission.done_inj.1 hlist).symm⟩

theorem lowerRepeated_cases {n : Nat} {w : Operation} (hop : inst.operation = .repeated n w)
    (h : lowerRepeated lower w inst.qubits = .done emitted) :
    LowerStep (fun part list => lower part = .done list) free inst emitted := by
  unfold lowerRepeated at h
  split at h
  · exact absurd h (Emission.failure_ne_done _)
  · rename_i hwidth
    rw [Emission.sequence_map_eq_done_iff] at h
    obtain ⟨lists, hlists, rfl⟩ := h
    refine .blocks hop hwidth (hlists.imp ?_)
    exact fun block list hblock => lowerOn_eq_done_iff.1 hblock

theorem lowerPowered_eq (lower : Instruction → Emission) (inst : Instruction) (e : Exponent)
    (w : Operation) :
    lowerPowered lower inst e w =
      match e.natural? with
      | some 0 => .done []
      | some n => (lowerOn lower w inst.qubits).times n
      | none =>
          match w.root? e with
          | some root => lowerOn lower (.gate root) inst.qubits
          | none =>
              (lowerOn lower w inst.qubits).whole fun lowered =>
                match lowered with
                | [only] =>
                    if isUnchanged lowered w inst.qubits then .done [inst]
                    else
                      .bind ((only.operation.power e).mapError .ofRefusal)
                        fun powered => lowerOn lower powered only.qubits
                | _ => .done [inst] := by
  cases w <;> rfl

theorem lowerPowered_cases {e : Exponent} {w : Operation} (hop : inst.operation = .powered e w)
    (h : lowerPowered lower inst e w = .done emitted) :
    LowerStep (fun part list => lower part = .done list) free inst emitted := by
  rw [lowerPowered_eq] at h
  split at h
  · rename_i hzero
    obtain rfl := Emission.done_inj.1 h
    exact .zeroth hop hzero
  · rename_i n hpositive hn
    obtain ⟨m, rfl⟩ := Nat.exists_eq_succ_of_ne_zero hpositive
    obtain ⟨lowered, hlowered, rfl⟩ := Emission.times_eq_done_iff.1 h
    rw [lowerOn_eq_done_iff] at hlowered
    exact .times hop hn hlowered.1 hlowered.2
  · rename_i hnone
    split at h
    · rename_i root hroot
      rw [lowerOn_eq_done_iff] at h
      cases w with
      | gate g => exact .root hop hroot h.1 h.2 hnone
      | _ => cases hroot
    · rename_i hroot
      rw [Emission.whole_eq_done_iff] at h
      obtain ⟨lowered, hlowered, hdone⟩ := h
      rw [lowerOn_eq_done_iff] at hlowered
      have hkeep : (∀ only, lowered = [only] → isUnchanged [only] w inst.qubits = true) →
          LowerStep (fun part list => lower part = .done list) free inst [inst] := fun hsame =>
        .keep (by simp [hop, Operation.kind]) (by simp [hop, Operation.kind])
          (.powered hop hnone hroot hlowered.1 hlowered.2 hsame)
      split at hdone
      · rename_i only
        split at hdone
        · rename_i hsame
          obtain rfl := Emission.done_inj.1 hdone
          refine hkeep fun other hother => ?_
          obtain rfl := List.singleton_inj.1 hother
          exact hsame
        · rename_i hchanged
          obtain ⟨powered, hpowered, hagain⟩ := Emission.bind_eq_done_iff.1 hdone
          rw [lowerOn_eq_done_iff] at hagain
          exact .powerOf hop hlowered.1 hlowered.2 (Emission.mapError_eq_ok_iff.1 hpowered)
            hagain.1 hagain.2 hnone hroot (by simpa using hchanged)
      · rename_i hseveral
        obtain rfl := Emission.done_inj.1 hdone
        exact hkeep fun only honly => absurd honly (hseveral only)

theorem lowerControlled_cases {n : Nat} {w : Operation}
    (hop : inst.operation = .controlled n w)
    (h : lowerControlled lower free inst n w = .done emitted) :
    LowerStep (fun part list => lower part = .done list) free inst emitted := by
  have hkeep : Kept (fun part list => lower part = .done list) inst →
      LowerStep (fun part list => lower part = .done list) free inst [inst] :=
    .keep (by simp [hop, Operation.kind]) (by simp [hop, Operation.kind])
  unfold lowerControlled at h
  dsimp only at h
  split at h
  · rename_i hone
    obtain rfl := Emission.done_inj.1 h
    exact hkeep (.single hop hone)
  · rename_i hmany
    rw [Emission.whole_eq_done_iff] at h
    obtain ⟨lowered, hlowered, hdone⟩ := h
    rw [lowerOn_eq_done_iff] at hlowered
    split at hdone
    · rename_i hsame
      unfold lowerControlledLeaf at hdone
      split at hdone
      · rename_i hfew
        obtain rfl := Emission.done_inj.1 hdone
        exact hkeep (.controlled hop hmany hlowered.1 hlowered.2 hsame hfew)
      · rename_i hleaf
        have hqubit : w.numQubits = 1 := by
          by_contra hne
          exact hleaf (Or.inl hne)
        have hn : n ≠ 1 := fun hone => hmany ⟨hqubit, hone⟩
        dsimp only at hdone
        split at hdone
        · rename_i hx
          obtain rfl := Operation.eq_x_of_beq hx
          exact .controlX hn hop hdone hlowered.1 hlowered.2 hsame
        · rename_i hother
          exact .controlRoot hn hop hqubit hlowered.1 hlowered.2 hsame hdone
            (by simpa using hother)
    · rename_i hchanged
      rw [Emission.sequence_map_eq_done_iff] at hdone
      obtain ⟨lists, hlists, rfl⟩ := hdone
      refine .controlEach hop hlowered.1 hlowered.2
        (exists_of_forall₂_singleton (hlists.imp ?_)) hmany (by simpa using hchanged)
      intro part list hpart
      obtain ⟨controlled, -, happly⟩ := Emission.bind_eq_done_iff.1 hpart
      obtain ⟨rfl, -⟩ := Emission.apply_eq_done_iff.1 happly
      exact ⟨_, hpart, rfl⟩

/-- A complete lowering of one level is one of the cases. -/
theorem lowerStep_cases (h : lowerStep lower free inst = .done emitted) :
    LowerStep (fun part list => lower part = .done list) free inst emitted := by
  unfold lowerStep at h
  split at h
  · rename_i g hop
    exact lowerGate_cases hop h
  · rename_i w hop
    exact lowerInverted_cases hop h
  · rename_i n w hop
    exact lowerRepeated_cases hop h
  · rename_i e w hop
    exact lowerPowered_cases hop h
  · rename_i n w hop
    exact lowerControlled_cases hop h
  · rename_i hgate hinverted hrepeated hpowered hcontrolled
    obtain rfl := Emission.done_inj.1 h
    refine .keep ?_ ?_ (.leaf ?_ ?_)
    · intro hkind
      cases hop : inst.operation with
      | inverted w => exact hinverted w hop
      | _ => simp [hop, Operation.kind] at hkind
    · intro hkind
      cases hop : inst.operation with
      | repeated n w => exact hrepeated n w hop
      | _ => simp [hop, Operation.kind] at hkind
    · intro hkind
      cases hop : inst.operation with
      | gate g => exact hgate g hop
      | _ => simp [hop, Operation.kind] at hkind
    · cases hop : inst.operation with
      | inverted w => exact absurd hop (hinverted w)
      | repeated n w => exact absurd hop (hrepeated n w)
      | powered e w => exact absurd hop (hpowered e w)
      | controlled n w => exact absurd hop (hcontrolled n w)
      | _ => rfl

section Back

/-! Conversely, every case is a complete lowering of one level. -/

theorem sequence_eq_done_of_forall₂ {α : Type} {part : α → Emission} {items : List α}
    {images : List Instruction}
    (h : List.Forall₂ (fun item image => part item = .done [image]) items images) :
    Emission.sequence (items.map part) = .done images := by
  induction h with
  | nil => rfl
  | cons hhead _ ih => rw [List.map_cons, Emission.sequence_cons, hhead, ih]; rfl

theorem lowerStep_of_kept (hkept : Kept (fun part list => lower part = .done list) inst) :
    lowerStep lower free inst = .done [inst] := by
  unfold lowerStep
  cases hkept with
  | gate hop hsteps =>
      have hexpansion := expansion_eq_ok_iff.2 (Or.inl ⟨hsteps, rfl⟩)
      simp only [hop, lowerGate, hexpansion, Emission.build_ok]
  | leaf hgate hmodifier =>
      cases hop : inst.operation with
      | gate g => exact absurd (by rw [hop]; rfl) hgate
      | controlled | powered | inverted | repeated =>
          rw [hop] at hmodifier
          cases hmodifier
      | _ => rfl
  | @powered e w lowered hop hnone hroot hvalid hsub hsame =>
      simp only [hop, lowerPowered_eq, hnone, hroot, lowerOn_eq_done_iff.2 ⟨hvalid, hsub⟩,
        Emission.whole_done]
      split
      · rename_i only
        rw [if_pos (hsame only rfl)]
      · rfl
  | single hop hone => simp only [hop, lowerControlled, hone, and_self, if_true]
  | controlled hop hmany hvalid hsub hsame hfew =>
      simp only [hop, lowerControlled, if_neg hmany, lowerOn_eq_done_iff.2 ⟨hvalid, hsub⟩,
        Emission.whole_done, hsame, if_true, lowerControlledLeaf, if_pos hfew]

theorem lowerStep_eq_done (hinst : inst.Valid)
    (h : LowerStep (fun part list => lower part = .done list) free inst emitted) :
    lowerStep lower free inst = .done emitted := by
  cases h with
  | keep hinverted hrepeated hkept => exact lowerStep_of_kept hkept
  | expand hop hsteps hlists =>
      have hvalid := ((List.forall₂_and_left _ _).1 hlists).1
      have hexpansion := expansion_eq_ok_iff.2 (Or.inr ⟨_, hsteps, hvalid, rfl⟩)
      simp only [lowerStep, hop, lowerGate, hexpansion, Emission.build_ok, List.map_map]
      refine Emission.sequence_map_eq_done_iff.2 ⟨_, hlists.imp fun _ _ hlist => hlist.2, rfl⟩
  | invert hop hvalid hsub hinverses =>
      simp only [lowerStep, hop, lowerInverted, lowerOn_eq_done_iff.2 ⟨hvalid, hsub⟩,
        Emission.whole_done]
      refine sequence_eq_done_of_forall₂ (hinverses.imp fun part inverse hinverse => ?_)
      rw [hinverse]
      rfl
  | blocks hop hwidth hlists =>
      simp only [lowerStep, hop, lowerRepeated, if_neg hwidth]
      exact Emission.sequence_map_eq_done_iff.2
        ⟨_, hlists.imp fun _ _ hlist => lowerOn_eq_done_iff.2 hlist, rfl⟩
  | zeroth hop hzero => simp only [lowerStep, hop, lowerPowered_eq, hzero]
  | times hop hn hvalid hsub =>
      simp only [lowerStep, hop, lowerPowered_eq, hn, lowerOn_eq_done_iff.2 ⟨hvalid, hsub⟩,
        Emission.times_done]
  | @root e g root lowered hop hroot hvalid hsub hnone =>
      have hknown : (Operation.gate g).root? e = some root := hroot
      simp only [lowerStep, hop, lowerPowered_eq, hnone, hknown,
        lowerOn_eq_done_iff.2 ⟨hvalid, hsub⟩]
  | powerOf hop hvalid hsub hpowered hvalid' hsub' hnone hroot hchanged =>
      simp only [lowerStep, hop, lowerPowered_eq, hnone, hroot,
        lowerOn_eq_done_iff.2 ⟨hvalid, hsub⟩, Emission.whole_done, hchanged,
        Bool.false_eq_true, if_false, Emission.mapError_eq_ok_iff.2 hpowered, Emission.bind_ok,
        lowerOn_eq_done_iff.2 ⟨hvalid', hsub'⟩]
  | @controlX n _ hn hop hemitted lowered hvalid hsub hsame =>
      have hleaf : ¬((Operation.gate .x).numQubits ≠ 1 ∨ (inst.qubits.take n).length = 1) := by
        rw [hinst.length_take hop]
        exact fun hfew => hfew.elim (· rfl) hn
      have hmany : ¬((Operation.gate .x).numQubits = 1 ∧ n = 1) := fun hone => hn hone.2
      have hx : (Operation.gate .x == Operation.gate .x) = true := rfl
      simp only [lowerStep, hop, lowerControlled, if_neg hmany,
        lowerOn_eq_done_iff.2 ⟨hvalid, hsub⟩, Emission.whole_done, hsame, if_true,
        lowerControlledLeaf, if_neg hleaf, hx, hemitted]
  | @controlRoot n w lowered _ hn hop hqubit hvalid hsub hsame hemitted hother =>
      have hleaf : ¬(w.numQubits ≠ 1 ∨ (inst.qubits.take n).length = 1) := by
        rw [hinst.length_take hop]
        exact fun hfew => hfew.elim (· hqubit) hn
      have hmany : ¬(w.numQubits = 1 ∧ n = 1) := fun hone => hn hone.2
      simp only [lowerStep, hop, lowerControlled, if_neg hmany,
        lowerOn_eq_done_iff.2 ⟨hvalid, hsub⟩, Emission.whole_done, hsame, if_true,
        lowerControlledLeaf, if_neg hleaf, hother, Bool.false_eq_true, if_false, hemitted]
  | controlEach hop hvalid hsub hcontrolled hmany hchanged =>
      simp only [lowerStep, hop, lowerControlled, if_neg hmany,
        lowerOn_eq_done_iff.2 ⟨hvalid, hsub⟩, Emission.whole_done, hchanged,
        Bool.false_eq_true, if_false]
      exact sequence_eq_done_of_forall₂ hcontrolled

end Back

end GateAlgebra
