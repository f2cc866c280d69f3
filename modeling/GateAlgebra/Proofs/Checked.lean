import Mathlib.Data.Rat.Lemmas
import GateAlgebra.Proofs.Decoded
import GateAlgebra.Proofs.Sign
/-!
Checked values: those that the checks of their constructors accept again.  Constructors give
nothing else, and modifiers, substitutions and products of exponents lead to nothing else.
-/

namespace GateAlgebra

open Document

section Exponents

namespace Exponent

/-- A fraction of words that is not negative, or a double that is not below zero.  A product of
doubles may still be infinite. -/
def Checked : Exponent → Prop
  | rational ratio => 0 ≤ ratio.num ∧ fitsWord ratio.num = true ∧ fitsWord ratio.den = true
  | real value => ¬value < 0

theorem checked_half : half.Checked := by
  have hparts : 0 ≤ (mkRat 1 2).num ∧ fitsWord (mkRat 1 2).num = true ∧
      fitsWord (mkRat 1 2).den = true := by decide
  exact hparts

theorem checked_ofNat {n : Nat} (h : n ≤ maxRepetitions) : (ofNat n).Checked := by
  have hword : maxRepetitions ≤ 0x7fffffffffffffff := by decide
  exact ⟨Int.natCast_nonneg n, (fitsWord_natCast n).2 (h.trans hword), rfl⟩

theorem checked_of_ofFraction {numer denom : Int} {e : Exponent}
    (h : ofFraction numer denom = .ok e) : e.Checked := by
  unfold ofFraction at h
  split at h
  · cases h
  · dsimp only at h
    split at h
    · cases h
    · rename_i hnum
      split at h
      · rename_i hfits
        obtain rfl := Except.ok.inj h
        simp only [Bool.and_eq_true] at hfits
        exact ⟨Int.not_lt.1 hnum, hfits⟩
      · cases h

theorem checked_of_ofFloat {value : Float} {e : Exponent} (h : ofFloat value = .ok e) :
    e.Checked := by
  unfold ofFloat at h
  split at h
  · cases h
  · rename_i hrefused
    obtain rfl := Except.ok.inj h
    simp only [Bool.or_eq_true, not_or] at hrefused
    exact fun hlt => hrefused.2 (decide_eq_true hlt)

theorem checked_of_decode {d : Document} {e : Exponent} (h : Exponent.decode d = .ok e) :
    e.Checked := by
  rcases cases_of_decode h with ⟨numer, denom, he⟩ | ⟨value, he⟩
  · exact checked_of_ofFraction he
  · exact checked_of_ofFloat he

theorem Checked.not_toFloat_lt_zero {e : Exponent} (h : e.Checked) : ¬e.toFloat < 0 := by
  cases e with
  | rational ratio => exact not_lt_zero_ratioToFloat h.1
  | real value => exact h

/-- Lowest terms are not larger than the product of the parts. -/
theorem checked_mul_rational {a b : Rat} (ha : 0 ≤ a.num) (hb : 0 ≤ b.num)
    (hnum : fitsWord (a.num * b.num) = true) (hden : fitsWord (a.den * b.den : Nat) = true) :
    (rational (a * b)).Checked := by
  have hnonneg : 0 ≤ (a * b).num :=
    Rat.num_nonneg.2 (mul_nonneg (Rat.num_nonneg.1 ha) (Rat.num_nonneg.1 hb))
  have hle : (a * b).num ≤ a.num * b.num := by
    rw [Rat.mul_num]
    exact Int.ediv_le_self _ (mul_nonneg ha hb)
  refine ⟨hnonneg, ?_, ?_⟩
  · simp only [fitsWord, Bool.and_eq_true, decide_eq_true_eq] at hnum ⊢
    omega
  · rw [fitsWord_natCast] at hden ⊢
    exact (Nat.le_of_dvd (Nat.mul_pos a.den_pos b.den_pos) (Rat.mul_den_dvd a b)).trans hden

theorem Checked.mul {e e' : Exponent} (he : e.Checked) (he' : e'.Checked) :
    (e * e').Checked := by
  have hreal : ¬e.toFloat * e'.toFloat < 0 :=
    not_lt_zero_mul he.not_toFloat_lt_zero he'.not_toFloat_lt_zero
  change (Exponent.mul e e').Checked
  unfold Exponent.mul
  split
  · split
    · rename_i hfits
      simp only [Bool.and_eq_true] at hfits
      exact checked_mul_rational he.1 he'.1 hfits.1 hfits.2
    · exact hreal
  · exact hreal

end Exponent

end Exponents

section Leaves

namespace CustomGate

/-- The matrix is accepted again. -/
def Checked (g : CustomGate) : Prop :=
  ofEntries g.name g.numQubits g.entries = .ok (g.withParams [])

theorem checked_of_ofEntries {name : String} {n : Nat} {entries : Array ComplexFloat}
    {g : CustomGate} (h : ofEntries name n entries = .ok g) : g.Checked := by
  obtain rfl := eq_of_ofEntries h
  exact h

theorem Checked.withParams {g : CustomGate} (h : g.Checked) (params : List Scalar) :
    (g.withParams params).Checked :=
  h

theorem Checked.substitute {g : CustomGate} (h : g.Checked) (bindings : Bindings) :
    (g.substitute bindings).Checked :=
  h.withParams _

theorem checked_of_decode {d : Document} {g : CustomGate} (h : CustomGate.decode d = .ok g) :
    g.Checked :=
  (holds_of_decode h).1

end CustomGate

namespace Channel

/-- The parameter is accepted again. -/
def Checked (c : Channel) : Prop :=
  make c.noise c.parameter = .ok c

theorem checked_of_make {noise : Noise} {parameter : Scalar} {c : Channel}
    (h : make noise parameter = .ok c) : c.Checked := by
  obtain ⟨-, -, hc⟩ := bind_eq_ok_iff.1 h
  obtain rfl := Except.ok.inj hc
  exact h

theorem checked_of_substitute {c c' : Channel} {bindings : Bindings}
    (h : c.substitute bindings = .ok c') : c'.Checked :=
  checked_of_make h

theorem checked_of_decode {d : Document} {c : Channel} (h : Channel.decode d = .ok c) :
    c.Checked :=
  (holds_of_decode h).1

end Channel

namespace Observable

/-- A Pauli string is not empty. -/
def Checked (o : Observable) : Prop :=
  o ≠ pauliString []

theorem checked_of_ofPaulis {factors : List Pauli} {o : Observable}
    (h : ofPaulis factors = .ok o) : o.Checked := by
  unfold ofPaulis at h
  split at h
  · cases h
  · rename_i hsome
    obtain rfl := Except.ok.inj h
    rintro hempty
    obtain rfl := pauliString.inj hempty
    exact hsome rfl

theorem checked_of_ofText {text : String} {o : Observable} (h : ofText text = .ok o) :
    o.Checked := by
  obtain ⟨factors, -, ho⟩ := bind_eq_ok_iff.1 h
  exact checked_of_ofPaulis ho

theorem checked_of_decode {d : Document} {o : Observable} (h : Observable.decode d = .ok o) :
    o.Checked := by
  rcases cases_of_decode h with ⟨factors, ho⟩ | hother
  · exact checked_of_ofPaulis ho
  · exact hother []

end Observable

end Leaves

namespace Operation

variable {op op' : Operation} {P Q : Nat → Prop}

/-- Every exponent and everything that is not a modifier is checked. -/
def PartsChecked : Operation → Prop
  | custom g => g.Checked
  | powered e w => e.Checked ∧ w.PartsChecked
  | controlled _ w | inverted w | repeated _ w => w.PartsChecked
  | channel c => c.Checked
  | observable o | expectation o => o.Checked
  | gate _ | measure | reset | barrier _ => True

/-- Modifiers wrap gates only, all counts are of a certain kind, and everything else is
checked. -/
structure CheckedWith (P : Nat → Prop) (op : Operation) : Prop where
  modifiesGates : op.ModifiesGatesWith P
  parts : op.PartsChecked

/-- What decoding asks of an operation. -/
abbrev Checked (op : Operation) : Prop :=
  op.CheckedWith (0 < ·)

section Modifiers

theorem PartsChecked.wrapped {w : Operation} (h : op.PartsChecked) (hw : op.wrapped? = some w) :
    w.PartsChecked := by
  cases op with
  | controlled | inverted | repeated =>
      obtain rfl := Option.some.inj hw
      exact h
  | powered =>
      obtain rfl := Option.some.inj hw
      exact h.2
  | _ => cases hw

theorem PartsChecked.addControls (h : op.PartsChecked) (n : Nat) :
    (op.addControls n).PartsChecked := by
  cases op <;> exact h

theorem PartsChecked.addRepeats (h : op.PartsChecked) (n : Nat) :
    (op.addRepeats n).PartsChecked := by
  cases op <;> exact h

theorem PartsChecked.invert (h : op.PartsChecked) : op.invert.PartsChecked := by
  induction op with
  | controlled n w ih => exact ih h
  | repeated n w ih => exact ih h
  | _ => exact h

theorem PartsChecked.raise (h : op.PartsChecked) {e : Exponent} (he : e.Checked) :
    (op.raise e).PartsChecked := by
  fun_induction Operation.raise e op with
  | case1 => exact h
  | case2 e hone p w ih => exact ih h.2 (h.1.mul he)
  | case3 e hone n w ih | case4 e hone n w ih => exact ih h he
  | case5 => exact ⟨he, h⟩

theorem PartsChecked.substitute (hop : op.PartsChecked) {bindings : Bindings}
    (h : op.substitute bindings = .ok op') : op'.PartsChecked := by
  induction op generalizing op' with
  | controlled n w ih =>
      obtain ⟨w', hw, hop'⟩ := bind_eq_ok_iff.1 h
      obtain rfl := Except.ok.inj hop'
      have hchecked : w'.PartsChecked := ih hop hw
      exact hchecked
  | powered e w ih =>
      obtain ⟨w', hw, hop'⟩ := bind_eq_ok_iff.1 h
      obtain rfl := Except.ok.inj hop'
      exact ⟨hop.1, ih hop.2 hw⟩
  | inverted w ih =>
      obtain ⟨w', hw, hop'⟩ := bind_eq_ok_iff.1 h
      obtain rfl := Except.ok.inj hop'
      have hchecked : w'.PartsChecked := ih hop hw
      exact hchecked
  | repeated n w ih =>
      obtain ⟨w', hw, hop'⟩ := bind_eq_ok_iff.1 h
      obtain rfl := Except.ok.inj hop'
      have hchecked : w'.PartsChecked := ih hop hw
      exact hchecked
  | channel c =>
      obtain ⟨c', hc, hop'⟩ := bind_eq_ok_iff.1 h
      obtain rfl := Except.ok.inj hop'
      exact Channel.checked_of_substitute hc
  | custom g =>
      obtain rfl := Except.ok.inj h
      exact CustomGate.Checked.substitute hop bindings
  | _ =>
      obtain rfl := Except.ok.inj h
      exact hop

/-- What is checked in other respects is checked if its counts are of the right kind. -/
theorem CheckedWith.iff_eachCount (h : op.CheckedWith Q) : op.CheckedWith P ↔ op.EachCount P :=
  ⟨fun h => h.modifiesGates.eachCount,
    fun hcounts => ⟨h.modifiesGates.of_eachCount hcounts, h.parts⟩⟩

theorem PartsChecked.recounted {counting : Counting} (h : op.PartsChecked)
    (hcounted : op.recounted counting = some op') : op'.PartsChecked := by
  cases op with
  | controlled n w | repeated n w =>
      obtain ⟨m, -, rfl⟩ := Option.map_eq_some_iff.1 hcounted
      exact h
  | _ => rwa [← Option.some.inj hcounted]

theorem CheckedWith.recounted {counting : Counting} (h : op.CheckedWith counting.Allows)
    (hcounted : op.recounted counting = some op') : op'.CheckedWith counting.Allows :=
  ⟨h.modifiesGates.recounted hcounted, h.parts.recounted hcounted⟩

theorem CheckedWith.wrapped {w : Operation} (h : op.CheckedWith P) (hw : op.wrapped? = some w) :
    w.isUnitary = true ∧ w.CheckedWith P :=
  have hmodifies := h.modifiesGates.wrapped hw
  ⟨hmodifies.1, hmodifies.2, h.parts.wrapped hw⟩

theorem callClosed_checkedWith (counting : Counting) :
    CallClosed Exponent.Checked (CheckedWith counting.Allows) where
  half := Exponent.checked_half
  gate _ := ⟨trivial, trivial⟩
  wrapped hw h := h.wrapped hw
  exponent h := h.parts.1
  addControls hn hunitary h :=
    ⟨(modifierClosed_modifiesGatesWith counting).addControls hn hunitary h.modifiesGates,
      h.parts.addControls _⟩
  addRepeats hn hunitary h :=
    ⟨(modifierClosed_modifiesGatesWith counting).addRepeats hn hunitary h.modifiesGates,
      h.parts.addRepeats _⟩
  raise he hunitary h := ⟨h.modifiesGates.raise hunitary _, h.parts.raise he⟩
  invert hunitary h := ⟨h.modifiesGates.invert hunitary, h.parts.invert⟩
  substitute h hop :=
    ⟨(sameForm_of_substitute h).modifiesGates hop.modifiesGates, hop.parts.substitute h⟩

end Modifiers

theorem Read.partsChecked {d : Document} (h : Read d op) : op.PartsChecked := by
  induction h with
  | custom h => exact h.imp fun _ _ => CustomGate.checked_of_decode
  | powered he _ _ ih => exact ⟨he.imp fun _ _ => Exponent.checked_of_decode, ih⟩
  | controlled _ _ _ _ ih | repeated _ _ _ _ ih => exact ih
  | inverted _ _ ih => exact ih
  | channel h => exact h.imp fun _ _ => Channel.checked_of_decode
  | observable h | expectation h => exact h.imp fun _ _ => Observable.checked_of_decode
  | _ => trivial

theorem checked_of_decode {d : Document} (h : decode d = .ok op) : op.Checked :=
  ⟨modifiesGates_of_decode h, (read_of_decode h).partsChecked⟩

end Operation

end GateAlgebra
