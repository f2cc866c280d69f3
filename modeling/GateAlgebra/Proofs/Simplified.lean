import GateAlgebra.Proofs.Counted
import GateAlgebra.Proofs.Outcomes
/-!
Simplified operations.  Whatever modifiers are applied to an operation and whatever symbols
are bound in it, in any order, nothing is left that the modifier algebra would simplify, and
modifiers wrap gates only.
-/

namespace GateAlgebra

namespace Operation

/-- Modifiers wrap gates only, and all counts of controls and copies are of a certain kind. -/
def ModifiesGatesWith (P : Nat → Prop) : Operation → Prop
  | controlled n w | repeated n w => P n ∧ w.isUnitary = true ∧ w.ModifiesGatesWith P
  | powered _ w | inverted w => w.isUnitary = true ∧ w.ModifiesGatesWith P
  | _ => True

/-- There is a control in front of every controlled operation and a copy in every repeated
one, and modifiers wrap gates only. -/
abbrev ModifiesGates (op : Operation) : Prop :=
  op.ModifiesGatesWith (0 < ·)

/-- The modifier algebra has nothing to simplify, modifiers wrap gates only, and all counts are of
a certain kind. -/
structure SimplifiedWith (P : Nat → Prop) (op : Operation) : Prop where
  canonical : op.CanonicalWith P
  modifiesGates : op.ModifiesGatesWith P

/-- The modifier algebra has nothing to simplify, and modifiers wrap gates only. -/
abbrev Simplified (op : Operation) : Prop :=
  op.SimplifiedWith (0 < ·)

/-- All counts of controls and copies are of a certain kind. -/
def EachCount (P : Nat → Prop) : Operation → Prop
  | controlled n w | repeated n w => P n ∧ w.EachCount P
  | powered _ w | inverted w => w.EachCount P
  | _ => True

variable {op op' : Operation} {P Q : Nat → Prop}

theorem ModifiesGatesWith.eachCount (h : op.ModifiesGatesWith P) : op.EachCount P := by
  induction op with
  | controlled n w ih | repeated n w ih => exact ⟨h.1, ih h.2.2⟩
  | powered e w ih | inverted w ih => exact ih h.2
  | _ => trivial

theorem EachCount.mono (h : op.EachCount P) (hPQ : ∀ n, P n → Q n) : op.EachCount Q := by
  induction op with
  | controlled n w ih | repeated n w ih => exact ⟨hPQ n h.1, ih h.2⟩
  | powered e w ih | inverted w ih => exact ih h
  | _ => trivial

theorem ModifiesGatesWith.of_eachCount (h : op.ModifiesGatesWith Q) (hcounts : op.EachCount P) :
    op.ModifiesGatesWith P := by
  induction op with
  | controlled n w ih | repeated n w ih => exact ⟨hcounts.1, h.2.1, ih h.2.2 hcounts.2⟩
  | powered e w ih | inverted w ih => exact ⟨h.1, ih h.2 hcounts⟩
  | _ => trivial

theorem CanonicalWith.of_eachCount (h : op.CanonicalWith Q) (hcounts : op.EachCount P) :
    op.CanonicalWith P := by
  induction op with
  | controlled n w ih | repeated n w ih => exact ⟨hcounts.1, h.2.1, ih h.2.2 hcounts.2⟩
  | powered e w ih => exact ⟨h.1, h.2.1, ih h.2.2 hcounts⟩
  | inverted w ih => exact ⟨h.1, ih h.2 hcounts⟩
  | _ => trivial

/-- What is simplified in other respects is simplified if its counts are of the right kind. -/
theorem SimplifiedWith.iff_eachCount (h : op.SimplifiedWith Q) :
    op.SimplifiedWith P ↔ op.EachCount P :=
  ⟨fun h => h.modifiesGates.eachCount,
    fun hcounts => ⟨h.canonical.of_eachCount hcounts, h.modifiesGates.of_eachCount hcounts⟩⟩

theorem simplified_of_not_modifier (h : op.isModifier = false) : op.SimplifiedWith P := by
  cases op with
  | controlled | powered | inverted | repeated => cases h
  | _ => exact ⟨trivial, trivial⟩

/-- A barrier stays as it is, and anything else that has an inverse is a gate. -/
theorem inverse_eq_ok_iff :
    op.inverse = .ok op' ↔
      op.isBarrier = true ∧ op' = op ∨ op.isUnitary = true ∧ op' = op.invert := by
  constructor
  · intro h
    unfold inverse at h
    split at h
    · rename_i hbarrier
      exact Or.inl ⟨hbarrier, (Except.ok.inj h).symm⟩
    · split at h
      · rename_i hunitary
        exact Or.inr ⟨hunitary, (Except.ok.inj h).symm⟩
      · cases h
  · rintro (⟨hbarrier, rfl⟩ | ⟨hunitary, rfl⟩)
    · rw [inverse, if_pos hbarrier]
    · exact inverse_eq_ok hunitary

section Modifiers

theorem ModifiesGatesWith.addControls (h : op.ModifiesGatesWith P) (hunitary : op.isUnitary = true)
    {n : Nat} (hn : ∀ m, P (n + m)) : (op.addControls n).ModifiesGatesWith P := by
  cases op with
  | controlled m w => exact ⟨hn m, h.2⟩
  | _ => exact ⟨hn 0, hunitary, h⟩

theorem ModifiesGatesWith.addRepeats (h : op.ModifiesGatesWith P) (hunitary : op.isUnitary = true)
    {n : Nat} (hn : P n) (hmul : ∀ m, P m → P (n * m)) : (op.addRepeats n).ModifiesGatesWith P := by
  cases op with
  | repeated m w => exact ⟨hmul m h.1, h.2⟩
  | _ => exact ⟨hn, hunitary, h⟩

theorem ModifiesGatesWith.invert (h : op.ModifiesGatesWith P) (hunitary : op.isUnitary = true) :
    op.invert.ModifiesGatesWith P := by
  induction op with
  | inverted w ih => exact h.2
  | controlled n w ih => exact ⟨h.1, by simpa using h.2.1, ih h.2.2 h.2.1⟩
  | repeated n w ih => exact ⟨h.1, by simpa using h.2.1, ih h.2.2 h.2.1⟩
  | _ => exact ⟨hunitary, h⟩

theorem ModifiesGatesWith.raise (h : op.ModifiesGatesWith P) (hunitary : op.isUnitary = true)
    (e : Exponent) : (op.raise e).ModifiesGatesWith P := by
  fun_induction Operation.raise e op with
  | case1 => exact h
  | case2 e hone p w ih => exact ih h.2 h.1
  | case3 e hone n w ih | case4 e hone n w ih =>
      exact ⟨h.1, by simpa using h.2.1, ih h.2.2 h.2.1⟩
  | case5 => exact ⟨hunitary, h⟩

end Modifiers

section Substitution

/-- The same modifiers around leaves of the same kind on the same targets. -/
inductive SameForm : Operation → Operation → Prop where
  | leaf {op op' : Operation} (hop : op.isModifier = false) (hop' : op'.isModifier = false)
      (hkind : op'.kind = op.kind) (hunitary : op'.isUnitary = op.isUnitary)
      (harity : op'.arity = op.arity) : SameForm op op'
  | controlled {w w' : Operation} (n : Nat) (h : SameForm w w') :
      SameForm (controlled n w) (controlled n w')
  | powered {w w' : Operation} (e : Exponent) (h : SameForm w w') :
      SameForm (powered e w) (powered e w')
  | inverted {w w' : Operation} (h : SameForm w w') : SameForm (inverted w) (inverted w')
  | repeated {w w' : Operation} (n : Nat) (h : SameForm w w') :
      SameForm (repeated n w) (repeated n w')

/-- Symbols are bound without a change of form. -/
theorem sameForm_of_substitute {bindings : Bindings} (h : op.substitute bindings = .ok op') :
    SameForm op op' := by
  induction op generalizing op' with
  | controlled n w ih =>
      obtain ⟨w', hw, hop⟩ := bind_eq_ok_iff.1 h
      obtain rfl := Except.ok.inj hop
      exact .controlled n (ih hw)
  | powered e w ih =>
      obtain ⟨w', hw, hop⟩ := bind_eq_ok_iff.1 h
      obtain rfl := Except.ok.inj hop
      exact .powered e (ih hw)
  | inverted w ih =>
      obtain ⟨w', hw, hop⟩ := bind_eq_ok_iff.1 h
      obtain rfl := Except.ok.inj hop
      exact .inverted (ih hw)
  | repeated n w ih =>
      obtain ⟨w', hw, hop⟩ := bind_eq_ok_iff.1 h
      obtain rfl := Except.ok.inj hop
      exact .repeated n (ih hw)
  | channel c =>
      obtain ⟨c', hc, hop⟩ := bind_eq_ok_iff.1 h
      obtain rfl := Except.ok.inj hop
      exact .leaf rfl rfl rfl rfl rfl
  | gate g =>
      obtain rfl := Except.ok.inj h
      exact .leaf rfl rfl rfl rfl
        (congrArg Arity.onQubits (Gate.numQubits_mapParameters (Scalar.substitute bindings) g))
  | _ =>
      obtain rfl := Except.ok.inj h
      exact .leaf rfl rfl rfl rfl rfl

theorem SameForm.kind_eq (h : SameForm op op') : op'.kind = op.kind := by
  cases h with
  | leaf hop hop' hkind => exact hkind
  | _ => rfl

theorem SameForm.isUnitary_eq (h : SameForm op op') : op'.isUnitary = op.isUnitary := by
  induction h with
  | leaf hop hop' hkind hunitary => exact hunitary
  | controlled _ _ ih | powered _ _ ih | inverted _ ih | repeated _ _ ih => exact ih

theorem SameForm.arity_eq (h : SameForm op op') : op'.arity = op.arity := by
  induction h with
  | leaf hop hop' hkind hunitary harity => exact harity
  | controlled n h ih => simp only [arity, ih]
  | repeated n h ih => simp only [arity, ih]
  | powered _ _ ih | inverted _ ih => exact ih

theorem SameForm.canonical (h : SameForm op op') (hop : op.CanonicalWith P) :
    op'.CanonicalWith P := by
  induction h with
  | leaf _ hop' => exact (simplified_of_not_modifier hop').canonical
  | controlled n h ih | repeated n h ih =>
      exact ⟨hop.1, by rw [h.kind_eq]; exact hop.2.1, ih hop.2.2⟩
  | powered e h ih => exact ⟨hop.1, by rw [h.kind_eq]; exact hop.2.1, ih hop.2.2⟩
  | inverted h ih => exact ⟨by rw [h.kind_eq]; exact hop.1, ih hop.2⟩

theorem SameForm.modifiesGates (h : SameForm op op') (hop : op.ModifiesGatesWith P) :
    op'.ModifiesGatesWith P := by
  induction h with
  | leaf _ hop' => exact (simplified_of_not_modifier hop').modifiesGates
  | controlled n h ih | repeated n h ih =>
      exact ⟨hop.1, h.isUnitary_eq.trans hop.2.1, ih hop.2.2⟩
  | powered _ h ih | inverted h ih => exact ⟨h.isUnitary_eq.trans hop.1, ih hop.2⟩

end Substitution

section Closed

/-- A property that every gate has and that passes to what a modifier wraps, which is a gate
then, and which modifiers and substitutions keep. -/
structure ModifierClosed (P : Operation → Prop) : Prop where
  gate : ∀ g, P (gate g)
  wrapped : ∀ {op w : Operation}, op.wrapped? = some w → P op → w.isUnitary = true ∧ P w
  addControls : ∀ {op : Operation} {n : Nat}, 0 < n → op.isUnitary = true → P op →
    P (op.addControls n)
  addRepeats : ∀ {op : Operation} {n : Nat}, 0 < n → op.isUnitary = true → P op →
    P (op.addRepeats n)
  raise : ∀ {op : Operation} (e : Exponent), op.isUnitary = true → P op → P (op.raise e)
  invert : ∀ {op : Operation}, op.isUnitary = true → P op → P op.invert
  sameForm : ∀ {op op' : Operation}, SameForm op op' → P op → P op'

/-- A property of operations and one of exponents that calls keep: gates have it, it passes to
what a modifier wraps, which is a gate then, to the exponents of powers and back, and modifiers
and the binding of symbols keep it. -/
structure CallClosed (E : Exponent → Prop) (P : Operation → Prop) : Prop where
  half : E .half
  gate : ∀ g, P (gate g)
  wrapped : ∀ {op w : Operation}, op.wrapped? = some w → P op → w.isUnitary = true ∧ P w
  exponent : ∀ {e : Exponent} {w : Operation}, P (powered e w) → E e
  addControls : ∀ {op : Operation} {n : Nat}, 0 < n → op.isUnitary = true → P op →
    P (op.addControls n)
  addRepeats : ∀ {op : Operation} {n : Nat}, 0 < n → op.isUnitary = true → P op →
    P (op.addRepeats n)
  raise : ∀ {op : Operation} {e : Exponent}, E e → op.isUnitary = true → P op → P (op.raise e)
  invert : ∀ {op : Operation}, op.isUnitary = true → P op → P op.invert
  substitute : ∀ {op op' : Operation} {bindings : Bindings}, op.substitute bindings = .ok op' →
    P op → P op'

/-- Where the form of an operation decides, exponents do not matter. -/
theorem ModifierClosed.callClosed {P : Operation → Prop} (hP : ModifierClosed P) :
    CallClosed (fun _ => True) P where
  half := trivial
  gate := hP.gate
  wrapped := hP.wrapped
  exponent _ := trivial
  addControls := hP.addControls
  addRepeats := hP.addRepeats
  raise _ := hP.raise _
  invert := hP.invert
  substitute h := hP.sameForm (sameForm_of_substitute h)

namespace CallClosed

variable {E : Exponent → Prop} {P : Operation → Prop} (hP : CallClosed E P)
  {counting : Counting}

include hP

theorem control {n : Nat}
    (hcounted : ∀ {op op' : Operation}, P op → op.recounted counting = some op' → P op')
    (h : op.controlIn counting n = pure op') (hop : P op) : P op' := by
  obtain ⟨hn, hunitary, h⟩ := modifyIn_eq_pure_iff.1 h
  exact hcounted (hP.addControls hn hunitary hop) h

theorem power {e : Exponent} (h : op.power e = .ok op') (he : E e) (hop : P op) : P op' := by
  obtain ⟨hunitary, rfl⟩ := power_eq_ok_iff.1 h
  exact hP.raise he hunitary hop

theorem inverse (h : op.inverse = .ok op') (hop : P op) : P op' := by
  rcases inverse_eq_ok_iff.1 h with ⟨-, rfl⟩ | ⟨hunitary, rfl⟩
  · exact hop
  · exact hP.invert hunitary hop

theorem parallel {n : Nat}
    (hcounted : ∀ {op op' : Operation}, P op → op.recounted counting = some op' → P op')
    (h : op.parallelIn counting n = pure op') (hop : P op) : P op' := by
  obtain ⟨hn, hunitary, h⟩ := modifyIn_eq_pure_iff.1 h
  exact hcounted (hP.addRepeats hn hunitary hop) h

end CallClosed

theorem ModifiesGatesWith.wrapped {w : Operation} (h : op.ModifiesGatesWith P)
    (hw : op.wrapped? = some w) : w.isUnitary = true ∧ w.ModifiesGatesWith P := by
  cases op with
  | controlled | repeated =>
      obtain rfl := Option.some.inj hw
      exact h.2
  | powered | inverted =>
      obtain rfl := Option.some.inj hw
      exact h
  | _ => cases hw

theorem modifierClosed_modifiesGatesWith (counting : Counting) :
    ModifierClosed (ModifiesGatesWith counting.Allows) where
  gate _ := trivial
  wrapped hw h := h.wrapped hw
  addControls hn hunitary h :=
    h.addControls hunitary fun m => Counting.allows_of_pos (Nat.add_pos_left hn m)
  addRepeats hn hunitary h :=
    h.addRepeats hunitary (Counting.allows_of_pos hn) fun _ hm => hm.mul hn
  raise e hunitary h := h.raise hunitary e
  invert hunitary h := h.invert hunitary
  sameForm hform h := hform.modifiesGates h

theorem modifierClosed_modifiesGates : ModifierClosed ModifiesGates :=
  modifierClosed_modifiesGatesWith .exact

theorem modifierClosed_isUnitary : ModifierClosed (fun op => op.isUnitary = true) where
  gate _ := rfl
  wrapped {op w} hw h := by
    cases op with
    | controlled | repeated | powered | inverted =>
        obtain rfl := Option.some.inj hw
        exact ⟨h, h⟩
    | _ => cases hw
  addControls _ _ h := (isUnitary_addControls _ _).trans h
  addRepeats _ _ h := (isUnitary_addRepeats _ _).trans h
  raise e _ h := (isUnitary_raise e _).trans h
  invert _ h := (isUnitary_invert _).trans h
  sameForm hform h := hform.isUnitary_eq.trans h

theorem CanonicalWith.wrapped {w : Operation} (h : op.CanonicalWith P)
    (hw : op.wrapped? = some w) : w.CanonicalWith P := by
  cases op with
  | controlled | repeated | powered =>
      obtain rfl := Option.some.inj hw
      exact h.2.2
  | inverted =>
      obtain rfl := Option.some.inj hw
      exact h.2
  | _ => cases hw

theorem modifierClosed_simplifiedWith (counting : Counting) :
    ModifierClosed (SimplifiedWith counting.Allows) where
  gate _ := ⟨trivial, trivial⟩
  wrapped hw h :=
    have hmodifies := h.modifiesGates.wrapped hw
    ⟨hmodifies.1, h.canonical.wrapped hw, hmodifies.2⟩
  addControls hn hunitary h :=
    ⟨canonical_addControls (fun m => Counting.allows_of_pos (Nat.add_pos_left hn m)) h.canonical,
      (modifierClosed_modifiesGatesWith counting).addControls hn hunitary h.modifiesGates⟩
  addRepeats hn hunitary h :=
    ⟨canonical_addRepeats (Counting.allows_of_pos hn) (fun _ hm => hm.mul hn) h.canonical,
      (modifierClosed_modifiesGatesWith counting).addRepeats hn hunitary h.modifiesGates⟩
  raise e hunitary h := ⟨canonical_raise h.canonical e, h.modifiesGates.raise hunitary e⟩
  invert hunitary h := ⟨canonical_invert h.canonical, h.modifiesGates.invert hunitary⟩
  sameForm hform h := ⟨hform.canonical h.canonical, hform.modifiesGates h.modifiesGates⟩

theorem modifierClosed_simplified : ModifierClosed Simplified :=
  modifierClosed_simplifiedWith .exact

variable {counting : Counting}

theorem CanonicalWith.recounted (h : op.CanonicalWith counting.Allows)
    (hcounted : op.recounted counting = some op') : op'.CanonicalWith counting.Allows := by
  cases op with
  | controlled n w | repeated n w =>
      obtain ⟨m, hm, rfl⟩ := Option.map_eq_some_iff.1 hcounted
      exact ⟨h.1.count hm, h.2⟩
  | _ => rwa [← Option.some.inj hcounted]

theorem ModifiesGatesWith.recounted (h : op.ModifiesGatesWith counting.Allows)
    (hcounted : op.recounted counting = some op') : op'.ModifiesGatesWith counting.Allows := by
  cases op with
  | controlled n w | repeated n w =>
      obtain ⟨m, hm, rfl⟩ := Option.map_eq_some_iff.1 hcounted
      exact ⟨h.1.count hm, h.2⟩
  | _ => rwa [← Option.some.inj hcounted]

theorem SimplifiedWith.recounted (h : op.SimplifiedWith counting.Allows)
    (hcounted : op.recounted counting = some op') : op'.SimplifiedWith counting.Allows :=
  ⟨h.canonical.recounted hcounted, h.modifiesGates.recounted hcounted⟩

/-- One use of the modifier algebra, or a substitution. -/
inductive Modified (counting : Counting) (op : Operation) : Operation → Prop where
  | control {n : Nat} {op' : Operation} (h : op.controlIn counting n = pure op') :
      Modified counting op op'
  | power {e : Exponent} {op' : Operation} (h : op.power e = .ok op') : Modified counting op op'
  | sqrt {op' : Operation} (h : op.sqrt = .ok op') : Modified counting op op'
  | inverse {op' : Operation} (h : op.inverse = .ok op') : Modified counting op op'
  | parallel {n : Nat} {op' : Operation} (h : op.parallelIn counting n = pure op') :
      Modified counting op op'
  | substitute {bindings : Bindings} {op' : Operation}
      (h : op.substitute bindings = .ok op') : Modified counting op op'

theorem ModifierClosed.modified {P : Operation → Prop} (hP : ModifierClosed P)
    (hcounted : ∀ {op op' : Operation}, P op → op.recounted counting = some op' → P op')
    (h : Modified counting op op') (hop : P op) : P op' := by
  have hclosed := hP.callClosed
  cases h with
  | control h => exact hclosed.control hcounted h hop
  | power h => exact hclosed.power h trivial hop
  | sqrt h => exact hclosed.power h trivial hop
  | inverse h => exact hclosed.inverse h hop
  | parallel h => exact hclosed.parallel hcounted h hop
  | substitute h => exact hclosed.substitute h hop

end Closed

section Constructed

/-- Anything that wraps nothing and the named operations, modified any number of times. -/
inductive Constructed (counting : Counting) : Operation → Prop where
  | leaf {op : Operation} (h : op.isModifier = false) : Constructed counting op
  | controlledGate {n : Nat} (hn : 0 < n) (g : Gate) : Constructed counting (controlledGate n g)
  | invertedGate (g : Gate) : Constructed counting (invertedGate g)
  | modify {op op' : Operation} (hop : Constructed counting op) (h : Modified counting op op') :
      Constructed counting op'

/-- Whatever order modifiers and substitutions come in, the result is simplified, but that lost
bits may leave a count of zero. -/
theorem simplified_of_constructed (h : Constructed counting op) :
    op.SimplifiedWith counting.Allows := by
  have hclosed := modifierClosed_simplifiedWith counting
  induction h with
  | leaf h => exact simplified_of_not_modifier h
  | controlledGate hn g => exact hclosed.addControls hn rfl (hclosed.gate g)
  | invertedGate g => exact hclosed.invert rfl (hclosed.gate g)
  | modify _ h ih => exact hclosed.modified SimplifiedWith.recounted h ih

theorem Built.constructed (h : Built op) : Constructed .exact op := by
  induction h with
  | gate g | custom g => exact .leaf rfl
  | control _ h ih => exact .modify ih (.control (controlIn_exact_eq_pure h))
  | power _ h ih => exact .modify ih (.power h)
  | inverse _ h ih => exact .modify ih (.inverse h)
  | parallel _ h ih => exact .modify ih (.parallel (parallelIn_exact_eq_pure h))

/-- The square root of Y under two controls. -/
def controlledRootY : Operation :=
  controlled 2 (powered .half (gate .y))

theorem constructed_controlledRootY : controlledRootY.Constructed counting := by
  have hroot : (gate .y).sqrt = .ok (powered .half (gate .y)) := rfl
  have hcontrol : (powered .half (gate .y)).controlIn counting 2 = pure controlledRootY :=
    modifyIn_eq_pure_iff.2 ⟨Nat.two_pos, rfl, recounted_of_countFits (by decide : 2 ≤ maxIndex)⟩
  exact .modify (.modify (.leaf rfl) (.sqrt hroot)) (.control hcontrol)

end Constructed

end Operation

end GateAlgebra
