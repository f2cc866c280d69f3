import GateAlgebra.Proofs.Simplified
/-!
Well-formed operations: what the modifiers make of gates that act on a qubit at least.  Nested
modifiers need not be simplified.
-/

namespace GateAlgebra

namespace Operation

/-- There is a control under every controlled operation and a copy in every repeated one,
modifiers wrap gates only, and a gate given by its matrix acts on some qubit. -/
def WellFormed : Operation → Prop
  | custom g => 0 < g.numQubits
  | controlled n w | repeated n w => 0 < n ∧ w.isUnitary = true ∧ w.WellFormed
  | powered _ w | inverted w => w.isUnitary = true ∧ w.WellFormed
  | gate _ | measure | reset | barrier _ | channel _ | observable _ | expectation _ => True

/-- The operation acts on some qubit, if it comes from a matrix. -/
def Sized (op : Operation) : Prop :=
  ∀ g, op.innermost = .custom g → 0 < g.numQubits

theorem wellFormed_iff {op : Operation} : op.WellFormed ↔ op.ModifiesGates ∧ op.Sized := by
  induction op with
  | custom g => exact ⟨fun h => ⟨trivial, fun _ heq => custom.inj heq ▸ h⟩, fun h => h.2 g rfl⟩
  | controlled n w ih | repeated n w ih =>
      exact ⟨fun h => ⟨⟨h.1, h.2.1, (ih.1 h.2.2).1⟩, (ih.1 h.2.2).2⟩,
        fun h => ⟨h.1.1, h.1.2.1, ih.2 ⟨h.1.2.2, h.2⟩⟩⟩
  | powered e w ih | inverted w ih =>
      exact ⟨fun h => ⟨⟨h.1, (ih.1 h.2).1⟩, (ih.1 h.2).2⟩,
        fun h => ⟨h.1.1, ih.2 ⟨h.1.2, h.2⟩⟩⟩
  | gate | measure | reset | barrier | channel | observable | expectation =>
      exact ⟨fun _ => ⟨trivial, nofun⟩, fun _ => trivial⟩

/-- A well-formed gate acts on a qubit at least. -/
theorem WellFormed.numQubits_pos {op : Operation} (h : op.WellFormed)
    (hunitary : op.isUnitary = true) : 0 < op.numQubits := by
  induction op with
  | gate g => cases g <;> exact Nat.le_of_ble_eq_true rfl
  | custom g => exact h
  | controlled n w ih => exact Nat.lt_of_lt_of_le h.1 (Nat.le_add_right n _)
  | repeated n w ih => exact Nat.mul_pos h.1 (ih h.2.2 h.2.1)
  | powered e w ih => exact ih h.2 h.1
  | inverted w ih => exact ih h.2 h.1
  | measure | reset | barrier | channel | observable | expectation => cases hunitary

section Innermost

@[simp] theorem innermost_addControls (n : Nat) (op : Operation) :
    (op.addControls n).innermost = op.innermost := by
  cases op <;> rfl

@[simp] theorem innermost_addRepeats (n : Nat) (op : Operation) :
    (op.addRepeats n).innermost = op.innermost := by
  cases op <;> rfl

@[simp] theorem innermost_invert (op : Operation) : op.invert.innermost = op.innermost := by
  induction op with
  | controlled n w ih => exact ih
  | repeated n w ih => exact ih
  | _ => rfl

@[simp] theorem innermost_raise (e : Exponent) (op : Operation) :
    (op.raise e).innermost = op.innermost :=
  raise_keeps innermost (fun _ _ => rfl) (fun _ _ _ h => h) (fun _ _ _ h => h) e op

@[simp] theorem innermost_rootAt (op : Operation) (k : Nat) :
    (op.rootAt k).innermost = op.innermost := by
  induction k with
  | zero => rfl
  | succ k ih => rw [rootAt, innermost_raise, ih]

end Innermost

section Modifiers

variable {op : Operation}

theorem WellFormed.addControls (h : op.WellFormed) (hunitary : op.isUnitary = true) {n : Nat}
    (hn : 0 < n) : (op.addControls n).WellFormed := by
  obtain ⟨hmodifies, hsized⟩ := wellFormed_iff.1 h
  exact wellFormed_iff.2 ⟨modifierClosed_modifiesGates.addControls hn hunitary hmodifies,
    fun g hg => hsized g (innermost_addControls n op ▸ hg)⟩

theorem WellFormed.addRepeats (h : op.WellFormed) (hunitary : op.isUnitary = true) {n : Nat}
    (hn : 0 < n) : (op.addRepeats n).WellFormed := by
  obtain ⟨hmodifies, hsized⟩ := wellFormed_iff.1 h
  exact wellFormed_iff.2 ⟨modifierClosed_modifiesGates.addRepeats hn hunitary hmodifies,
    fun g hg => hsized g (innermost_addRepeats n op ▸ hg)⟩

theorem WellFormed.invert (h : op.WellFormed) (hunitary : op.isUnitary = true) :
    op.invert.WellFormed := by
  obtain ⟨hmodifies, hsized⟩ := wellFormed_iff.1 h
  exact wellFormed_iff.2
    ⟨hmodifies.invert hunitary, fun g hg => hsized g (innermost_invert op ▸ hg)⟩

theorem WellFormed.raise (h : op.WellFormed) (hunitary : op.isUnitary = true) (e : Exponent) :
    (op.raise e).WellFormed := by
  obtain ⟨hmodifies, hsized⟩ := wellFormed_iff.1 h
  exact wellFormed_iff.2
    ⟨hmodifies.raise hunitary e, fun g hg => hsized g (innermost_raise e op ▸ hg)⟩

theorem WellFormed.rootAt (h : op.WellFormed) (hunitary : op.isUnitary = true) (k : Nat) :
    (op.rootAt k).WellFormed ∧ (op.rootAt k).isUnitary = true := by
  induction k with
  | zero => exact ⟨h, hunitary⟩
  | succ k ih => exact ⟨ih.1.raise ih.2 .half, by simpa [Operation.rootAt] using ih.2⟩

end Modifiers

section Origin

variable {op op' : Operation}

/-- Whatever the modifiers make of gates is well-formed. -/
theorem wellFormed_of_built (h : op.Built) (hsized : op.Sized) : op.WellFormed :=
  wellFormed_iff.2 ⟨(simplified_of_constructed h.constructed).modifiesGates, hsized⟩

theorem SameForm.sized (h : SameForm op op') (hop : op.Sized) : op'.Sized := by
  induction h with
  | @leaf op op' hleaf hleaf' hkind hunitary harity =>
      intro g hg
      cases op' with
      | custom g' =>
          cases op with
          | custom g'' =>
              have hwidth : g'.numQubits = g''.numQubits := congrArg Arity.qubits harity
              obtain rfl := custom.inj hg
              exact hwidth ▸ hop g'' rfl
          | _ => cases hkind
      | controlled | powered | inverted | repeated => cases hleaf'
      | _ => cases hg
  | controlled _ _ ih | powered _ _ ih | inverted _ ih | repeated _ _ ih => exact ih hop

theorem modifierClosed_wellFormed : ModifierClosed WellFormed where
  gate _ := trivial
  wrapped {op w} hw h := by
    cases op with
    | controlled | repeated =>
        obtain rfl := Option.some.inj hw
        exact h.2
    | powered | inverted =>
        obtain rfl := Option.some.inj hw
        exact h
    | _ => cases hw
  addControls hn hunitary h := h.addControls hunitary hn
  addRepeats hn hunitary h := h.addRepeats hunitary hn
  raise e hunitary h := h.raise hunitary e
  invert hunitary h := h.invert hunitary
  sameForm hform h :=
    have hparts := wellFormed_iff.1 h
    wellFormed_iff.2 ⟨hform.modifiesGates hparts.1, hform.sized hparts.2⟩

theorem WellFormed.substitute (hop : op.WellFormed) {bindings : Bindings}
    (h : op.substitute bindings = .ok op') : op'.WellFormed :=
  modifierClosed_wellFormed.sameForm (sameForm_of_substitute h) hop

end Origin

end Operation

end GateAlgebra
