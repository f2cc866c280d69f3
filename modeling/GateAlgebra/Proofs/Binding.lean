import GateAlgebra.Proofs.LowerTotal
import GateAlgebra.Proofs.Substitution
/-!
Binding symbols before and after lowering.  What lowering decides by does not depend on
whether a parameter has a value, and the modifiers that it puts around operations are put
around bound ones alike.  So without powers, whose roots may need a value, the instructions
of a bound operation are the bound instructions of the operation.
-/

namespace GateAlgebra

namespace Operation

variable {bindings : Bindings} {op op' : Operation}

/-- The second operation is the first with its symbols bound. -/
inductive Binds (bindings : Bindings) : Operation → Operation → Prop where
  | gate (g : Gate) : Binds bindings (gate g) (gate (g.substitute bindings))
  | custom (g : CustomGate) : Binds bindings (custom g) (custom (g.substitute bindings))
  | controlled (n : Nat) {w w' : Operation} (h : Binds bindings w w') :
      Binds bindings (controlled n w) (controlled n w')
  | powered (e : Exponent) {w w' : Operation} (h : Binds bindings w w') :
      Binds bindings (powered e w) (powered e w')
  | inverted {w w' : Operation} (h : Binds bindings w w') :
      Binds bindings (inverted w) (inverted w')
  | repeated (n : Nat) {w w' : Operation} (h : Binds bindings w w') :
      Binds bindings (repeated n w) (repeated n w')
  | measure : Binds bindings measure measure
  | reset : Binds bindings reset reset
  | barrier (width : Nat) : Binds bindings (barrier width) (barrier width)
  | channel {c c' : Channel} (h : c.substitute bindings = .ok c') :
      Binds bindings (channel c) (channel c')
  | observable (o : Observable) : Binds bindings (observable o) (observable o)
  | expectation (o : Observable) : Binds bindings (expectation o) (expectation o)

theorem binds_iff : Binds bindings op op' ↔ op.substitute bindings = .ok op' := by
  constructor
  · intro h
    induction h with
    | controlled n h ih | powered e h ih | inverted h ih | repeated n h ih =>
        rw [substitute, ih]
        rfl
    | channel h =>
        rw [substitute, h]
        rfl
    | _ => rfl
  · intro h
    induction op generalizing op' with
    | controlled n w ih =>
        obtain ⟨w', hw, hop⟩ := bind_eq_ok_iff.1 h
        obtain rfl := Except.ok.inj hop
        exact .controlled n (ih hw)
    | powered e w ih =>
        obtain ⟨w', hw, hop⟩ := bind_eq_ok_iff.1 h
        obtain rfl := Except.ok.inj hop
        exact .powered e (ih hw)
    | inverted w ih =>
        obtain ⟨w', hw, hop⟩ := bind_eq_ok_iff.1 h
        obtain rfl := Except.ok.inj hop
        exact .inverted (ih hw)
    | repeated n w ih =>
        obtain ⟨w', hw, hop⟩ := bind_eq_ok_iff.1 h
        obtain rfl := Except.ok.inj hop
        exact .repeated n (ih hw)
    | channel c =>
        obtain ⟨c', hc, hop⟩ := bind_eq_ok_iff.1 h
        obtain rfl := Except.ok.inj hop
        exact .channel hc
    | _ =>
        obtain rfl := Except.ok.inj h
        constructor

namespace Binds

theorem sameForm (h : Binds bindings op op') : SameForm op op' :=
  sameForm_of_substitute (binds_iff.1 h)

theorem isUnitary_eq (h : Binds bindings op op') : op'.isUnitary = op.isUnitary :=
  h.sameForm.isUnitary_eq

theorem arity_eq (h : Binds bindings op op') : op'.arity = op.arity :=
  h.sameForm.arity_eq

theorem numQubits_eq (h : Binds bindings op op') : op'.numQubits = op.numQubits :=
  congrArg Arity.qubits h.arity_eq

/-- An operation has one bound form. -/
theorem unique {other : Operation} (h : Binds bindings op op') (h' : Binds bindings op other) :
    op' = other :=
  Except.ok.inj ((binds_iff.1 h).symm.trans (binds_iff.1 h'))

theorem name_eq (h : Binds bindings op op') : op'.name = op.name := by
  induction h with
  | gate g => exact g.name_mapParameters _
  | channel h =>
      obtain ⟨rfl, -⟩ := Channel.make_eq_ok_iff.1 h
      rfl
  | controlled n h ih | powered e h ih | repeated n h ih => simp only [name, ih]
  | inverted h ih =>
      cases h with
      | gate g => simp only [name, Gate.substitute, Gate.name_mapParameters]
      | _ => exact congrArg (fun text => "inv(" ++ text ++ ")") ih
  | _ => rfl

theorem rank_eq (h : Binds bindings op op') : op'.rank = op.rank := by
  induction h with
  | gate g => cases g <;> rfl
  | controlled n h ih | powered e h ih | inverted h ih | repeated n h ih =>
      simp only [rank, ih]
  | _ => rfl

theorem exponents_eq (h : Binds bindings op op') : op'.exponents = op.exponents := by
  induction h with
  | controlled n h ih | inverted h ih | repeated n h ih => exact ih
  | powered e h ih => exact congrArg (e :: ·) ih
  | _ => rfl

theorem addControls (h : Binds bindings op op') (n : Nat) :
    Binds bindings (op.addControls n) (op'.addControls n) := by
  have hwhole := h
  cases h with
  | controlled m h => exact .controlled (n + m) h
  | _ => exact .controlled n hwhole

theorem invert (h : Binds bindings op op') : Binds bindings op.invert op'.invert := by
  induction h with
  | inverted h ih => exact h
  | controlled n h ih => exact .controlled n ih
  | repeated n h ih => exact .repeated n ih
  | _ => exact .inverted (by constructor <;> assumption)

theorem raise (h : Binds bindings op op') (e : Exponent) :
    Binds bindings (op.raise e) (op'.raise e) := by
  induction h generalizing e with
  | powered p h ih =>
      unfold Operation.raise
      split
      · exact .powered p h
      · exact ih (p * e)
  | controlled n h ih =>
      unfold Operation.raise
      split
      · exact .controlled n h
      · exact .controlled n (ih e)
  | repeated n h ih =>
      unfold Operation.raise
      split
      · exact .repeated n h
      · exact .repeated n (ih e)
  | _ =>
      unfold Operation.raise
      split
      · constructor <;> assumption
      · exact .powered e (by constructor <;> assumption)

end Binds

/-- A root or an inverse root of X, and X under controls, has nothing to bind. -/
theorem binds_of_isRung {rung : Operation} (h : IsRung (gate .x) rung) :
    Binds bindings rung rung := by
  have hx : Binds bindings (gate .x) (gate .x) := .gate .x
  have hroot : ∀ k, Binds bindings ((gate .x).rootAt k) ((gate .x).rootAt k) := by
    intro k
    induction k with
    | zero => exact hx
    | succ k ih => exact ih.raise .half
  cases h with
  | toggle h =>
      simp only [List.mem_cons, List.not_mem_nil, or_false] at h
      rcases h with rfl | rfl | rfl
      · exact hx
      · exact .controlled 1 hx
      · exact .controlled 2 hx
  | root k => exact (hroot k).addControls 1
  | unroot k => exact (hroot k).invert.addControls 1

theorem beq_x_of_binds (h : Binds bindings op op') : (op' == gate .x) = (op == gate .x) := by
  cases h with
  | gate g => cases g <;> rfl
  | _ => rfl

end Operation

section Results

/-- The same failure, or results that belong together. -/
inductive Agree {ε α : Type} (R : α → α → Prop) : Except ε α → Except ε α → Prop where
  | ok {a a' : α} (h : R a a') : Agree R (.ok a) (.ok a')
  | error (e : ε) : Agree R (.error e) (.error e)

variable {bindings : Bindings} {op op' : Operation}

theorem Agree.mapError {ε ε' α : Type} {R : α → α → Prop} {value value' : Except ε α}
    (h : Agree R value value') (f : ε → ε') : Agree R (value.mapError f) (value'.mapError f) := by
  cases h with
  | ok h => exact .ok h
  | error e => exact .error (f e)

theorem Agree.map {ε α β : Type} {R : α → α → Prop} {S : β → β → Prop}
    {value value' : Except ε α} {f : α → β} (h : Agree R value value')
    (hf : ∀ a a', R a a' → S (f a) (f a')) : Agree S (f <$> value) (f <$> value') := by
  cases h with
  | ok h => exact .ok (hf _ _ h)
  | error e => exact .error e

theorem Agree.bind {ε α β : Type} {R : α → α → Prop} {S : β → β → Prop}
    {value value' : Except ε α} {next next' : α → Except ε β} (h : Agree R value value')
    (hnext : ∀ a a', R a a' → Agree S (next a) (next' a')) :
    Agree S (value >>= next) (value' >>= next') := by
  cases h with
  | ok h => exact hnext _ _ h
  | error e => exact .error e

namespace Operation.Binds

theorem control (h : op.Binds bindings op') (n : Nat) :
    Agree (Operation.Binds bindings) (op.control n) (op'.control n) := by
  unfold Operation.control
  rw [h.isUnitary_eq, h.name_eq]
  split
  · exact .error _
  · split
    · exact .ok (h.addControls n)
    · exact .error _

theorem power (h : op.Binds bindings op') (e : Exponent) :
    Agree (Operation.Binds bindings) (op.power e) (op'.power e) := by
  unfold Operation.power
  rw [h.isUnitary_eq, h.name_eq]
  split
  · exact .ok (h.raise e)
  · exact .error _

theorem inverse (h : op.Binds bindings op') :
    Agree (Operation.Binds bindings) op.inverse op'.inverse := by
  have hbarrier : op'.isBarrier = op.isBarrier := by
    cases h <;> rfl
  unfold Operation.inverse
  rw [hbarrier, h.isUnitary_eq, h.name_eq]
  split
  · exact .ok h
  · split
    · exact .ok h.invert
    · exact .error _

end Operation.Binds

/-- The second instruction is the first with its symbols bound. -/
structure Instruction.Binds (bindings : Bindings) (inst inst' : Instruction) : Prop where
  operation : inst.operation.Binds bindings inst'.operation
  qubits : inst'.qubits = inst.qubits
  bits : inst'.bits = inst.bits
  zvars : inst'.zvars = inst.zvars

theorem Instruction.binds_iff {inst inst' : Instruction} :
    inst.Binds bindings inst' ↔ inst.substitute bindings = .ok inst' := by
  constructor
  · rintro ⟨hop, hqubits, hbits, hzvars⟩
    rw [Instruction.substitute, Operation.binds_iff.1 hop, ← hqubits, ← hbits, ← hzvars]
    rfl
  · intro h
    obtain ⟨op, hop, hinst⟩ := bind_eq_ok_iff.1 h
    obtain rfl := Except.ok.inj hinst
    exact ⟨Operation.binds_iff.2 hop, rfl, rfl, rfl⟩

theorem Operation.Binds.instruction (h : op.Binds bindings op') (qubits bits zvars : List Nat) :
    Instruction.Binds bindings ⟨op, qubits, bits, zvars⟩ ⟨op', qubits, bits, zvars⟩ :=
  ⟨h, rfl, rfl, rfl⟩

theorem Instruction.make_of_kind (h : op.kind ≠ .observable) (qubits bits zvars : List Nat) :
    make op qubits bits zvars =
      if qubits.length = op.arity.qubits ∧ bits.length = op.arity.bits ∧
          zvars.length = op.arity.zvars then do
        checkDistinct op qubits
        checkDistinct op bits
        checkDistinct op zvars
        return ⟨op, qubits, bits, zvars⟩
      else
        .error (.arityMismatch op.name op.arity.total
          (qubits.length + bits.length + zvars.length)) := by
  cases op with
  | observable o => exact absurd rfl h
  | _ => rfl

/-- A bound operation is accepted on the same targets, and refused for the same reason. -/
theorem Operation.Binds.make (h : op.Binds bindings op') (qubits bits zvars : List Nat) :
    Agree (fun inst inst' => inst = ⟨op, qubits, bits, zvars⟩ ∧ inst' = ⟨op', qubits, bits, zvars⟩)
      (Instruction.make op qubits bits zvars) (Instruction.make op' qubits bits zvars) := by
  have hcheck : Instruction.checkDistinct op' = Instruction.checkDistinct op := by
    funext indices
    rw [Instruction.checkDistinct, h.name_eq]
    rfl
  have hrefl : ∀ value : Except CircuitError Unit, Agree (fun _ _ => True) value value := by
    intro value
    cases value with
    | ok => exact .ok trivial
    | error e => exact .error e
  by_cases hkind : op.kind = .observable
  · cases h with
    | observable o => exact .error _
    | _ => cases hkind
  · have hkind' : op'.kind ≠ .observable := h.sameForm.kind_eq ▸ hkind
    rw [Instruction.make_of_kind hkind, Instruction.make_of_kind hkind', hcheck, h.arity_eq,
      h.name_eq]
    split
    · refine (hrefl _).bind fun _ _ _ => (hrefl _).bind fun _ _ _ => (hrefl _).bind fun _ _ _ => ?_
      exact .ok ⟨rfl, rfl⟩
    · exact .error _

end Results

namespace Emission

variable {bindings : Bindings} {α : Type} {R : α → α → Prop}
  {emission emission' first first' second second' : Emission}

/-- The second emission stops as the first does, and has its instructions with their symbols
bound. -/
structure BindsTo (bindings : Bindings) (emission emission' : Emission) : Prop where
  stop : emission'.stop = emission.stop
  emitted : List.Forall₂ (Instruction.Binds bindings) emission.emitted emission'.emitted

theorem bindsTo_failure (error : LoweringError) :
    (failure error).BindsTo bindings (failure error) :=
  ⟨rfl, .nil⟩

theorem bindsTo_done {emitted emitted' : List Instruction}
    (h : List.Forall₂ (Instruction.Binds bindings) emitted emitted') :
    (done emitted).BindsTo bindings (done emitted') :=
  ⟨rfl, h⟩

theorem bindsTo_done_singleton {inst inst' : Instruction} (h : inst.Binds bindings inst') :
    (done [inst]).BindsTo bindings (done [inst']) :=
  bindsTo_done (.cons h .nil)

/-- What has nothing to bind stays as it is. -/
theorem bindsTo_self (h : emission.HandsOut fun inst => inst.Binds bindings inst) :
    emission.BindsTo bindings emission :=
  ⟨rfl, List.forall₂_same.2 h⟩

theorem BindsTo.andThen (hfirst : first.BindsTo bindings first')
    (hsecond : second.BindsTo bindings second') :
    (first.andThen second).BindsTo bindings (first'.andThen second') := by
  obtain ⟨emitted, reason⟩ := first
  obtain ⟨emitted', reason'⟩ := first'
  obtain ⟨hstop, hemitted⟩ := hfirst
  obtain rfl : reason' = reason := hstop
  cases reason' with
  | some reason => exact ⟨rfl, hemitted⟩
  | none => exact ⟨hsecond.stop, List.rel_append hemitted hsecond.emitted⟩

theorem bindsTo_sequence {β : Type} {S : β → β → Prop} {part part' : β → Emission}
    {items items' : List β} (hitems : List.Forall₂ S items items')
    (h : ∀ item item', S item item' → (part item).BindsTo bindings (part' item')) :
    (sequence (items.map part)).BindsTo bindings (sequence (items'.map part')) := by
  induction hitems with
  | nil => exact bindsTo_done .nil
  | cons hitem _ ih =>
      rw [List.map_cons, List.map_cons, sequence_cons, sequence_cons]
      exact (h _ _ hitem).andThen ih

theorem BindsTo.whole {next next' : List Instruction → Emission}
    (h : emission.BindsTo bindings emission')
    (hnext : ∀ lowered lowered', emission = done lowered →
      List.Forall₂ (Instruction.Binds bindings) lowered lowered' →
      (next lowered).BindsTo bindings (next' lowered')) :
    (emission.whole next).BindsTo bindings (emission'.whole next') := by
  obtain ⟨emitted, reason⟩ := emission
  obtain ⟨emitted', reason'⟩ := emission'
  obtain ⟨hstop, hemitted⟩ := h
  obtain rfl : reason' = reason := hstop
  cases reason' with
  | some reason => exact ⟨rfl, .nil⟩
  | none => exact hnext emitted emitted' rfl hemitted

theorem bindsTo_bind {value value' : Except LoweringError α} {next next' : α → Emission}
    (h : Agree R value value')
    (hnext : ∀ a a', R a a' → (next a).BindsTo bindings (next' a')) :
    (bind value next).BindsTo bindings (bind value' next') := by
  cases h with
  | ok h => exact hnext _ _ h
  | error e => exact bindsTo_failure e

theorem bindsTo_build {value value' : Except CircuitError α} {next next' : α → Emission}
    (h : Agree R value value')
    (hnext : ∀ a a', R a a' → (next a).BindsTo bindings (next' a')) :
    (build value next).BindsTo bindings (build value' next') :=
  bindsTo_bind (h.mapError LoweringError.circuit) hnext

theorem bindsTo_apply {op op' : Operation} (h : op.Binds bindings op') (qubits : List Nat) :
    (apply op qubits).BindsTo bindings (apply op' qubits) := by
  refine bindsTo_build (h.make qubits [] []) fun inst inst' hmade => ?_
  obtain ⟨rfl, rfl⟩ := hmade
  exact bindsTo_done_singleton (h.instruction qubits [] [])

end Emission

open Emission

section Roots

variable {bindings : Bindings} {op op' : Operation}

theorem borrowingX_bindsTo (controls : List Nat) (target borrowed : Nat) (rest : List Nat) :
    (borrowingX controls target borrowed rest).BindsTo bindings
      (borrowingX controls target borrowed rest) := by
  refine bindsTo_self ((borrowingX_handsOut (List.Subset.refl _)).mono fun inst hinst => ?_)
  exact ⟨Operation.binds_of_isRung (.toggle hinst.operation_mem), rfl, rfl, rfl⟩

theorem controlledX_bindsTo (controls : List Nat) (target : Nat) (free : List Nat) :
    (controlledX controls target free).BindsTo bindings (controlledX controls target free) := by
  refine bindsTo_self ((controlledX_handsOut (List.Subset.refl _)).mono fun inst hinst => ?_)
  exact ⟨Operation.binds_of_isRung hinst.rung, rfl, rfl, rfl⟩

theorem controlled_bindsTo (h : op.Binds bindings op') (qubits : List Nat) :
    (build (op.control 1) fun controlled => apply controlled qubits).BindsTo bindings
      (build (op'.control 1) fun controlled => apply controlled qubits) :=
  bindsTo_build (h.control 1) fun _ _ hcontrolled => bindsTo_apply hcontrolled qubits

theorem rootLadder_bindsTo (h : op.Binds bindings op') (controls : List Nat) (target : Nat)
    (free : List Nat) :
    (rootLadder op controls target free).BindsTo bindings
      (rootLadder op' controls target free) := by
  induction controls generalizing op op' free with
  | nil => exact bindsTo_apply h [target]
  | cons last rest ih =>
      cases rest with
      | nil => exact controlled_bindsTo h [last, target]
      | cons second others =>
          refine bindsTo_build (h.power .half) fun root root' hroot =>
            bindsTo_build hroot.inverse fun unroot unroot' hunroot => ?_
          have hflip : (borrowingX (second :: others).reverse last target free).BindsTo bindings
              (borrowingX (second :: others).reverse last target free) :=
            borrowingX_bindsTo _ _ _ _
          simp only [sequence_cons, sequence_nil, done_andThen]
          exact (controlled_bindsTo hroot _).andThen (hflip.andThen
            ((controlled_bindsTo hunroot _).andThen (hflip.andThen (ih hroot _))))

end Roots

/-- No power, and no NaN in what the modifiers are around. -/
structure Operation.Plain (op : Operation) : Prop where
  powerless : op.exponents = []
  comparable : op.Comparable

section Plain

variable {op w : Operation}

theorem Operation.Plain.wrapped (h : op.Plain) (hw : op.wrapped? = some w) : w.Plain := by
  obtain ⟨hpowerless, hcomparable⟩ := h
  cases op with
  | controlled | inverted | repeated =>
      obtain rfl := Option.some.inj hw
      exact ⟨hpowerless, hcomparable⟩
  | powered => cases hpowerless
  | _ => cases hw

theorem Operation.Plain.beq_self (h : op.Plain) : (op == op) = true :=
  Operation.beq_self_iff.2 ⟨by simp [h.powerless], h.comparable⟩

theorem Operation.Plain.step {g : Gate} {qubits : List Nat}
    {steps : List (Operation × List Nat)} (h : (Operation.gate g).Plain)
    (hsteps : g.expansionSteps qubits = some steps) : ∀ step ∈ steps, step.1.Plain :=
  fun step hstep => ⟨((isStep_of_expansionSteps hsteps).2 step hstep).1.exponents_eq_nil,
    Operation.comparable_of_expansionSteps h.comparable hsteps step hstep⟩

end Plain

section Steps

variable {bindings : Bindings} {free : List Nat} {depth : Nat} {w w' : Operation}
  {inst inst' : Instruction}

/-- The steps of a bound gate are the bound steps of the gate. -/
theorem expansionSteps_substitute (bindings : Bindings) (g : Gate) (qubits : List Nat) :
    Option.Rel (List.Forall₂ fun step step' : Operation × List Nat =>
        step.1.Binds bindings step'.1 ∧ step'.2 = step.2)
      (g.expansionSteps qubits) ((g.substitute bindings).expansionSteps qubits) := by
  cases g
  case swap | iswap | rzz | rxx | ryy | u =>
    refine .some ?_
    repeat' constructor
  all_goals exact .none

theorem instructions_agree {steps steps' : List (Operation × List Nat)}
    (h : List.Forall₂ (fun step step' : Operation × List Nat =>
      step.1.Binds bindings step'.1 ∧ step'.2 = step.2) steps steps') :
    Agree (fun made made' => made = steps.map (fun step => step.1.on step.2) ∧
        made' = steps'.map (fun step => step.1.on step.2))
      (instructions steps) (instructions steps') := by
  unfold instructions
  induction h with
  | nil => exact .ok ⟨rfl, rfl⟩
  | cons hstep _ ih =>
      rw [List.mapM_cons, List.mapM_cons, hstep.2]
      refine (hstep.1.make _ [] []).bind fun inst inst' hinst => ih.bind fun list list' hlist => ?_
      obtain ⟨rfl, rfl⟩ := hinst
      obtain ⟨rfl, rfl⟩ := hlist
      refine .ok ⟨rfl, ?_⟩
      rw [List.map_cons, hstep.2]
      rfl

/-- What is lowered within an instruction is lowered alike within the bound one. -/
def BindsWithin (bindings : Bindings) (lower : Instruction → Emission) : Prop :=
  ∀ inst inst', inst.Binds bindings inst' → inst.operation.Plain → inst'.operation.Plain →
    (lower inst).BindsTo bindings (lower inst')

variable {lower : Instruction → Emission}

theorem lowerOn_bindsTo (hlower : BindsWithin bindings lower) (h : w.Binds bindings w')
    (hw : w.Plain) (hw' : w'.Plain) (qubits : List Nat) :
    (lowerOn lower w qubits).BindsTo bindings (lowerOn lower w' qubits) := by
  refine bindsTo_build (h.make qubits [] []) fun inst inst' hmade => ?_
  obtain ⟨rfl, rfl⟩ := hmade
  exact hlower _ _ (h.instruction qubits [] []) hw hw'

theorem forall₂_and_forall {α β : Type} {R : α → β → Prop} {P : α → Prop} {Q : β → Prop}
    {items : List α} {images : List β} (h : List.Forall₂ R items images)
    (hP : ∀ a ∈ items, P a) (hQ : ∀ b ∈ images, Q b) :
    List.Forall₂ (fun a b => R a b ∧ P a ∧ Q b) items images := by
  induction h with
  | nil => exact .nil
  | cons hR _ ih =>
      obtain ⟨hP, hPs⟩ := List.forall_mem_cons.1 hP
      obtain ⟨hQ, hQs⟩ := List.forall_mem_cons.1 hQ
      exact .cons ⟨hR, hP, hQ⟩ (ih hPs hQs)

/-- The steps are lowered alike, and a gate without any stays. -/
theorem lowerGate_bindsTo (hlower : BindsWithin bindings lower) (g : Gate)
    (hinst : inst.Binds bindings inst') (hg : (Operation.gate g).Plain)
    (hg' : (Operation.gate (g.substitute bindings)).Plain) :
    (lowerGate lower inst g).BindsTo bindings
      (lowerGate lower inst' (g.substitute bindings)) := by
  have hrel := expansionSteps_substitute bindings g inst.qubits
  have hplain : ∀ steps, g.expansionSteps inst.qubits = some steps →
      ∀ step ∈ steps, step.1.Plain := fun _ => hg.step
  have hplain' : ∀ steps, (g.substitute bindings).expansionSteps inst.qubits = some steps →
      ∀ step ∈ steps, step.1.Plain := fun _ => hg'.step
  unfold lowerGate Gate.expansion
  rw [hinst.qubits]
  generalize g.expansionSteps inst.qubits = before at hrel hplain
  generalize (g.substitute bindings).expansionSteps inst.qubits = after at hrel hplain'
  cases hrel with
  | none => exact bindsTo_done_singleton hinst
  | @some steps steps' hsteps =>
      have hparts := forall₂_and_forall hsteps (hplain steps rfl) (hplain' steps' rfl)
      refine bindsTo_build (R := fun made made' =>
        made = some (steps.map fun step => step.1.on step.2) ∧
          made' = some (steps'.map fun step => step.1.on step.2))
        ((instructions_agree hsteps).map fun _ _ hmade => hmade.imp (congrArg some) (congrArg some))
        fun made made' hmade => ?_
      obtain ⟨rfl, rfl⟩ := hmade
      dsimp only
      rw [List.map_map, List.map_map]
      refine bindsTo_sequence hparts fun step step' hstep => ?_
      obtain ⟨⟨hbinds, hqubits⟩, hstep, hstep'⟩ := hstep
      exact hlower _ _ ⟨hbinds, hqubits, rfl, rfl⟩ hstep hstep'

theorem lowerInverted_bindsTo (hlower : BindsWithin bindings lower) (h : w.Binds bindings w')
    (hw : w.Plain) (hw' : w'.Plain) (qubits : List Nat) :
    (lowerInverted lower w qubits).BindsTo bindings (lowerInverted lower w' qubits) := by
  refine (lowerOn_bindsTo hlower h hw hw' qubits).whole fun lowered lowered' _ hlowered => ?_
  refine bindsTo_sequence (List.rel_reverse hlowered) fun part part' hpart => ?_
  have hinverse : Agree (Instruction.Binds bindings) part.inverse part'.inverse :=
    hpart.operation.inverse.bind fun op op' hop =>
      .ok ⟨hop, hpart.qubits, hpart.bits, hpart.zvars⟩
  exact bindsTo_bind (hinverse.mapError LoweringError.ofRefusal) fun _ _ => bindsTo_done_singleton

theorem lowerRepeated_bindsTo (hlower : BindsWithin bindings lower) (h : w.Binds bindings w')
    (hw : w.Plain) (hw' : w'.Plain) (qubits : List Nat) :
    (lowerRepeated lower w qubits).BindsTo bindings (lowerRepeated lower w' qubits) := by
  unfold lowerRepeated
  rw [h.numQubits_eq, h.name_eq]
  split
  · exact bindsTo_failure _
  · refine bindsTo_sequence (List.forall₂_same.2 fun _ _ => rfl) fun block block' hblock => ?_
    subst hblock
    exact lowerOn_bindsTo hlower h hw hw' block

theorem controlInstruction_bindsTo (hinst : inst.Binds bindings inst') (controls : List Nat) :
    (controlInstruction controls inst).BindsTo bindings (controlInstruction controls inst') := by
  refine bindsTo_bind ((hinst.operation.control controls.length).mapError LoweringError.ofRefusal)
    fun controlled controlled' hcontrolled => ?_
  rw [hinst.qubits]
  exact bindsTo_apply hcontrolled _

theorem lowerControlledLeaf_bindsTo (hinst : inst.Binds bindings inst') (h : w.Binds bindings w')
    (free controls targets : List Nat) :
    (lowerControlledLeaf free inst controls w targets).BindsTo bindings
      (lowerControlledLeaf free inst' controls w' targets) := by
  unfold lowerControlledLeaf
  rw [h.numQubits_eq, Operation.beq_x_of_binds h]
  split
  · exact bindsTo_done_singleton hinst
  · dsimp only
    split
    · exact controlledX_bindsTo _ _ _
    · exact rootLadder_bindsTo h _ _ _

theorem Operation.beq_eq_false_of_rank_lt {op other : Operation} (h : op.rank < other.rank) :
    (op == other) = false := by
  by_contra hsame
  rw [Bool.not_eq_false] at hsame
  exact Nat.ne_of_lt h (rank_eq_of_beq hsame)

/-- Whether an operation stays as it is does not depend on whether its symbols are bound:
either it does, and both forms are equal to themselves, or it has lost weight. -/
theorem isUnchanged_of_binds (h : w.Binds bindings w') (hw : w.Plain) (hw' : w'.Plain)
    {targets : List Nat} {lowered lowered' : List Instruction}
    (hdone : lowerOn (lowerWithin free depth) w targets = .done lowered)
    (hlowered : List.Forall₂ (Instruction.Binds bindings) lowered lowered') :
    isUnchanged lowered' w' targets = isUnchanged lowered w targets := by
  obtain ⟨hvalid, hdone⟩ := lowerOn_eq_done_iff.1 hdone
  cases hlowered with
  | nil => rfl
  | @cons only only' _ _ honly hrest =>
      cases hrest with
      | cons => rfl
      | nil =>
          simp only [isUnchanged, honly.qubits]
          rcases dominates_of_lowerWithin hvalid hdone with rfl | hlt
          · have heq : only'.operation = w' := honly.operation.unique h
            simp only [Operation.operation_on, heq, hw.beq_self, hw'.beq_self]
          · have hlt : only.operation.rank < w.rank := hlt
            have hlt' : only'.operation.rank < w'.rank := by
              rw [honly.operation.rank_eq, h.rank_eq]
              exact hlt
            rw [Operation.beq_eq_false_of_rank_lt hlt, Operation.beq_eq_false_of_rank_lt hlt']

theorem lowerControlled_bindsTo (hlower : BindsWithin bindings (lowerWithin free depth))
    (hinst : inst.Binds bindings inst') (h : w.Binds bindings w') (hw : w.Plain)
    (hw' : w'.Plain) (n : Nat) :
    (lowerControlled (lowerWithin free depth) free inst n w).BindsTo bindings
      (lowerControlled (lowerWithin free depth) free inst' n w') := by
  unfold lowerControlled
  rw [h.numQubits_eq, hinst.qubits]
  dsimp only
  split
  · exact bindsTo_done_singleton hinst
  · refine (lowerOn_bindsTo hlower h hw hw' _).whole fun lowered lowered' hdone hlowered => ?_
    rw [isUnchanged_of_binds h hw hw' hdone hlowered]
    split
    · exact lowerControlledLeaf_bindsTo hinst h _ _ _
    · exact bindsTo_sequence hlowered fun part part' hpart => controlInstruction_bindsTo hpart _

/-- One level after the other. -/
theorem bindsWithin_lowerWithin (bindings : Bindings) (free : List Nat) (depth : Nat) :
    BindsWithin bindings (lowerWithin free depth) := by
  induction depth with
  | zero => exact fun inst inst' _ _ _ => ⟨rfl, .nil⟩
  | succ depth ih =>
      rintro ⟨op, qubits, bits, zvars⟩ ⟨op', qubits', bits', zvars'⟩ hinst hplain hplain'
      have hop : op.Binds bindings op' := hinst.operation
      obtain rfl : qubits' = qubits := hinst.qubits
      dsimp only at hplain hplain'
      rw [lowerWithin, lowerWithin]
      cases hop with
      | gate g => exact lowerGate_bindsTo ih g hinst hplain hplain'
      | inverted h =>
          exact lowerInverted_bindsTo ih h (hplain.wrapped rfl) (hplain'.wrapped rfl) _
      | repeated n h =>
          exact lowerRepeated_bindsTo ih h (hplain.wrapped rfl) (hplain'.wrapped rfl) _
      | powered e h => cases hplain.powerless
      | controlled n h =>
          exact lowerControlled_bindsTo ih hinst h (hplain.wrapped rfl) (hplain'.wrapped rfl) n
      | _ => exact bindsTo_done_singleton hinst

end Steps

section Whole

variable {bindings : Bindings} {op op' : Operation}

theorem lower_bindsTo (h : op.Binds bindings op') (hop : op.Plain) (hop' : op'.Plain)
    (qubits bits zvars ancillae : List Nat) :
    (op.lower qubits bits zvars ancillae).BindsTo bindings
      (op'.lower qubits bits zvars ancillae) := by
  refine bindsTo_build (h.make qubits bits zvars) fun inst inst' hmade => ?_
  obtain ⟨rfl, rfl⟩ := hmade
  rw [Instruction.lower_eq, Instruction.lower_eq]
  dsimp only
  rw [h.rank_eq]
  exact bindsWithin_lowerWithin bindings _ _ _ _ (h.instruction qubits bits zvars) hop hop'

/-- Without powers and NaN lowering comes to its end, or to a failure. -/
theorem Operation.Plain.finished_lower (h : op.Plain) (qubits bits zvars ancillae : List Nat) :
    (op.lower qubits bits zvars ancillae).Finished := by
  refine finished_build fun inst hmade => ?_
  obtain ⟨rfl, hvalid⟩ := Instruction.make_eq_ok_iff.1 hmade
  exact finished_of_no_self_call hvalid (Nat.le_refl _) fun other hother =>
    not_calls_self hvalid h.comparable (keepsFinite_of_exponents_eq_nil h.powerless) hother

end Whole

/-- Lowering an operation without powers and NaN comes to its end or to a failure, and its
bound form is lowered to exactly the bound instructions of the operation, or fails for the
same reason, whatever the targets and ancillae are. -/
theorem lowering_commutes_with_binding {bindings : Bindings} {op op' : Operation}
    (hbound : op.substitute bindings = .ok op') (hpowers : op.exponents = [])
    (hself : (op == op) = true) (hself' : (op' == op') = true)
    (qubits bits zvars ancillae : List Nat) :
    let emission := op.lower qubits bits zvars ancillae
    let emission' := op'.lower qubits bits zvars ancillae
    emission.Finished ∧ emission'.Finished ∧ emission'.stop = emission.stop ∧
    emission.emitted.mapM (Instruction.substitute bindings) = .ok emission'.emitted ∧
    ∀ name, (⟨name, emission.emitted⟩ : Circuit).substitute bindings =
      .ok ⟨name, emission'.emitted⟩ := by
  have hbinds := Operation.binds_iff.2 hbound
  have hplain : op.Plain := ⟨hpowers, Operation.comparable_of_beq_self hself⟩
  have hplain' : op'.Plain :=
    ⟨hbinds.exponents_eq.trans hpowers, Operation.comparable_of_beq_self hself'⟩
  obtain ⟨hstop, hemitted⟩ := lower_bindsTo hbinds hplain hplain' qubits bits zvars ancillae
  have hlist := mapM_eq_ok_iff.2 (hemitted.imp fun _ _ => Instruction.binds_iff.1)
  exact ⟨hplain.finished_lower _ _ _ _, hplain'.finished_lower _ _ _ _, hstop, hlist,
    fun name => (Circuit.substitute_eq_ok_iff bindings).2 ⟨hlist, rfl⟩⟩

/-- An inverted interaction with an open angle, under a control. -/
def controlledInteraction (angle : Scalar) : Operation :=
  .controlled 1 (.inverted (.gate (.rzz angle)))

/-- The angle that is bound beforehand stands in the instructions. -/
theorem lowering_commutes_with_binding_controlledInteraction :
    (controlledInteraction (.named "theta")).substitute [("theta", 0.5)] =
      .ok (controlledInteraction (.real 0.5)) ∧
    ((controlledInteraction (.named "theta")).lower [2, 0, 1] [] [] []).emitted.mapM
      (Instruction.substitute [("theta", 0.5)]) =
        .ok ((controlledInteraction (.real 0.5)).lower [2, 0, 1] [] [] []).emitted := by
  have hbound : (controlledInteraction (.named "theta")).substitute [("theta", 0.5)] =
      .ok (controlledInteraction (.real 0.5)) := rfl
  exact ⟨hbound, (lowering_commutes_with_binding hbound rfl (by decide) (by decide)
    [2, 0, 1] [] [] []).2.2.2.1⟩

end GateAlgebra
