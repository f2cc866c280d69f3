import GateAlgebra.Proofs.Exponent
import GateAlgebra.Proofs.Modifier
/-!
Normal forms.  The modifiers never stack controls on controls, copies on copies, powers
on powers or inverses on inverses, and powers and inverses end up inside controls and
copies.
-/

namespace GateAlgebra

namespace Operation

/-- Gates and custom gates under modifiers, each applied through the modifier algebra. -/
inductive Built : Operation → Prop where
  | gate (g : Gate) : Built (.gate g)
  | custom (g : CustomGate) : Built (.custom g)
  | control {op op' : Operation} {n : Nat} (hop : Built op) (h : op.control n = .ok op') :
      Built op'
  | power {op op' : Operation} {e : Exponent} (hop : Built op) (h : op.power e = .ok op') :
      Built op'
  | inverse {op op' : Operation} (hop : Built op) (h : op.inverse = .ok op') : Built op'
  | parallel {op op' : Operation} {n : Nat} (hop : Built op) (h : op.parallel n = .ok op') :
      Built op'

/-- No modifier is applied where the modifier algebra would simplify, and all counts of controls
and copies are of a certain kind. -/
def CanonicalWith (P : Nat → Prop) : Operation → Prop
  | controlled n w => P n ∧ w.kind ≠ .controlled ∧ w.CanonicalWith P
  | repeated n w => P n ∧ w.kind ≠ .repeated ∧ w.CanonicalWith P
  | inverted w => w.kind ∉ [.inverted, .controlled, .repeated] ∧ w.CanonicalWith P
  | powered e w =>
      e.isOne = false ∧ w.kind ∉ [.powered, .controlled, .repeated] ∧ w.CanonicalWith P
  | _ => True

/-- The same, and nothing is under no controls or copied no times. -/
abbrev Canonical (op : Operation) : Prop :=
  op.CanonicalWith (0 < ·)

variable {P : Nat → Prop}

/-- What is not controlled gets a modifier for its controls. -/
theorem addControls_eq_controlled {op : Operation} (hkind : op.kind ≠ .controlled) (n : Nat) :
    op.addControls n = controlled n op := by
  cases op with
  | controlled m w => exact absurd rfl hkind
  | _ => rfl

theorem addRepeats_eq_repeated {op : Operation} (hkind : op.kind ≠ .repeated) (n : Nat) :
    op.addRepeats n = repeated n op := by
  cases op with
  | repeated m w => exact absurd rfl hkind
  | _ => rfl

theorem canonical_addControls {op : Operation} {n : Nat} (hn : ∀ m, P (n + m))
    (h : op.CanonicalWith P) : (op.addControls n).CanonicalWith P := by
  cases op with
  | controlled m w => exact ⟨hn m, h.2⟩
  | _ => exact ⟨hn 0, by simp [kind], h⟩

theorem canonical_addRepeats {op : Operation} {n : Nat} (hn : P n) (hmul : ∀ m, P m → P (n * m))
    (h : op.CanonicalWith P) : (op.addRepeats n).CanonicalWith P := by
  cases op with
  | repeated m w => exact ⟨hmul m h.1, h.2⟩
  | _ => exact ⟨hn, by simp [kind], h⟩

theorem raise_controlled {e : Exponent} (he : e.isOne = false) (n : Nat)
    (w : Operation) : (controlled n w).raise e = controlled n (w.raise e) := by
  simp [raise, he]

theorem raise_powered {e : Exponent} (he : e.isOne = false) (p : Exponent)
    (w : Operation) : (powered p w).raise e = w.raise (p * e) := by
  simp [raise, he]

/-- A power of what is neither a power nor controlled nor repeated. -/
theorem raise_eq_powered {op : Operation} {e : Exponent} (he : e.isOne = false)
    (hkind : op.kind ∉ [.powered, .controlled, .repeated]) : op.raise e = powered e op := by
  cases op with
  | powered p w => simp [kind] at hkind
  | controlled n w => simp [kind] at hkind
  | repeated n w => simp [kind] at hkind
  | _ => simp [raise, he]

/-- A power has the form of its operation, is a power, or has the form of what the
operation is a power of. -/
theorem kind_raise {op : Operation} (h : op.CanonicalWith P) {e : Exponent} :
    (op.raise e).kind = op.kind ∨ (op.raise e).kind = .powered ∨
      ∃ p w, op = powered p w ∧ (op.raise e).kind = w.kind := by
  cases op with
  | powered p w =>
      by_cases he : e.isOne = true
      · simp [raise, he]
      · have hraise : (powered p w).raise e = w.raise (p * e) := by simp [raise, he]
        rw [hraise]
        by_cases hone : (p * e).isOne = true
        · right
          right
          exact ⟨p, w, rfl, by cases w <;> simp [raise, hone]⟩
        · rw [raise_eq_powered (by simpa using hone) h.2.1]
          simp [kind]
  | _ =>
      unfold raise
      split <;> simp [kind]

/-- Powers do not become controlled or repeated. -/
theorem kind_raise_ne {op : Operation} (h : op.CanonicalWith P) {kind : OperationKind}
    (hkind : kind ∈ [.controlled, .repeated]) (hop : op.kind ≠ kind) (e : Exponent) :
    (op.raise e).kind ≠ kind := by
  rcases kind_raise h with heq | heq | ⟨p, w, rfl, heq⟩
  · rw [heq]
    exact hop
  · rw [heq]
    rintro rfl
    simp at hkind
  · have hw := h.2.1
    rw [heq]
    rintro rfl
    exact hw (List.mem_cons_of_mem _ hkind)

theorem canonical_raise {op : Operation} (h : op.CanonicalWith P) (e : Exponent) :
    (op.raise e).CanonicalWith P := by
  fun_induction raise e op with
  | case1 => exact h
  | case2 e hone p w ih => exact ih h.2.2
  | case3 e hone n w ih | case4 e hone n w ih =>
      exact ⟨h.1, kind_raise_ne h.2.2 (by simp) h.2.1 e, ih h.2.2⟩
  | case5 e hone op hpowered hcontrolled hrepeated =>
      cases op with
      | powered p w => exact (hpowered p w rfl).elim
      | controlled n w => exact (hcontrolled n w rfl).elim
      | repeated n w => exact (hrepeated n w rfl).elim
      | _ => exact ⟨by simpa using hone, by simp [kind], h⟩

/-- An inverse has the form of its operation or is an inverse, unless it takes an inverse
back. -/
theorem kind_invert (op : Operation) :
    op.invert.kind = op.kind ∨ op.invert.kind = .inverted ∨ op = inverted op.invert := by
  cases op <;> simp [invert, kind]

/-- What is neither an inverse nor controlled nor repeated is inverted by a modifier. -/
theorem invert_eq_inverted {op : Operation}
    (hkind : op.kind ∉ [.inverted, .controlled, .repeated]) : op.invert = inverted op := by
  cases op with
  | inverted w => simp [kind] at hkind
  | controlled n w => simp [kind] at hkind
  | repeated n w => simp [kind] at hkind
  | _ => rfl

theorem kind_invert_ne {op : Operation} (h : op.CanonicalWith P) {kind : OperationKind}
    (hkind : kind ∈ [.controlled, .repeated]) (hop : op.kind ≠ kind) :
    op.invert.kind ≠ kind := by
  rcases kind_invert op with heq | heq | hback
  · rw [heq]
    exact hop
  · rw [heq]
    rintro rfl
    simp at hkind
  · rintro rfl
    rw [hback] at h
    exact h.1 (List.mem_cons_of_mem _ hkind)

theorem canonical_invert {op : Operation} (h : op.CanonicalWith P) :
    op.invert.CanonicalWith P := by
  induction op with
  | inverted w _ => exact h.2
  | controlled n w ih => exact ⟨h.1, kind_invert_ne h.2.2 (by simp) h.2.1, ih h.2.2⟩
  | repeated n w ih => exact ⟨h.1, kind_invert_ne h.2.2 (by simp) h.2.1, ih h.2.2⟩
  | _ =>
      rw [invert_eq_inverted (by simp [kind])]
      exact ⟨by simp [kind], h⟩

theorem control_eq_ok_iff {op op' : Operation} {n : Nat} :
    op.control n = .ok op' ↔ 0 < n ∧ op.isUnitary = true ∧ op' = op.addControls n := by
  constructor
  · intro h
    unfold control at h
    split at h
    · cases h
    · rename_i hn
      split at h
      · rename_i hunitary
        cases h
        exact ⟨Nat.pos_of_ne_zero hn, hunitary, rfl⟩
      · cases h
  · rintro ⟨hn, hunitary, rfl⟩
    exact control_eq_ok hn hunitary

theorem power_eq_ok_iff {op op' : Operation} {e : Exponent} :
    op.power e = .ok op' ↔ op.isUnitary = true ∧ op' = op.raise e := by
  constructor
  · intro h
    unfold power at h
    split at h
    · rename_i hunitary
      cases h
      exact ⟨hunitary, rfl⟩
    · cases h
  · rintro ⟨hunitary, rfl⟩
    simp [power, hunitary]

theorem parallel_eq_ok_iff {op op' : Operation} {n : Nat} :
    op.parallel n = .ok op' ↔ 0 < n ∧ op.isUnitary = true ∧ op' = op.addRepeats n := by
  constructor
  · intro h
    unfold parallel at h
    split at h
    · cases h
    · rename_i hn
      split at h
      · rename_i hunitary
        cases h
        exact ⟨Nat.pos_of_ne_zero hn, hunitary, rfl⟩
      · cases h
  · rintro ⟨hn, hunitary, rfl⟩
    simp [parallel, hunitary, Nat.ne_of_gt hn]

theorem isUnitary_of_built {op : Operation} (h : Built op) : op.isUnitary = true := by
  induction h with
  | gate g => rfl
  | custom g => rfl
  | control _ hop' ih =>
      obtain ⟨-, hunitary, rfl⟩ := control_eq_ok_iff.1 hop'
      simpa using hunitary
  | power _ hop' ih =>
      obtain ⟨hunitary, rfl⟩ := power_eq_ok_iff.1 hop'
      simpa using hunitary
  | inverse _ hop' ih =>
      rw [inverse_eq_ok ih] at hop'
      cases hop'
      simpa using ih
  | parallel _ hop' ih =>
      obtain ⟨-, hunitary, rfl⟩ := parallel_eq_ok_iff.1 hop'
      simpa using hunitary

/-- Whatever order the modifiers are applied in, they lead to a normal form. -/
theorem canonical_of_built {op : Operation} (h : Built op) : op.Canonical := by
  induction h with
  | gate g => trivial
  | custom g => trivial
  | control _ hop' ih =>
      obtain ⟨hn, -, rfl⟩ := control_eq_ok_iff.1 hop'
      exact canonical_addControls (Nat.add_pos_left hn) ih
  | power _ hop' ih =>
      obtain ⟨-, rfl⟩ := power_eq_ok_iff.1 hop'
      exact canonical_raise ih _
  | inverse hop hop' ih =>
      rw [inverse_eq_ok (isUnitary_of_built hop)] at hop'
      cases hop'
      exact canonical_invert ih
  | parallel _ hop' ih =>
      obtain ⟨hn, -, rfl⟩ := parallel_eq_ok_iff.1 hop'
      exact canonical_addRepeats hn (fun _ => Nat.mul_pos hn) ih

/-- The exponent of a power, and one for any other operation. -/
def exponent : Operation → Exponent
  | powered e _ => e
  | _ => .ofNat 1

/-- What a power is a power of. -/
def base : Operation → Operation
  | powered _ w => w
  | op => op

theorem numQubits_base {op : Operation} : op.base.numQubits = op.numQubits := by
  cases op <;> rfl

theorem isUnitary_base {op : Operation} : op.base.isUnitary = op.isUnitary := by
  cases op <;> rfl

/-- What is no power is the first power of itself. -/
theorem exponent_base_of_not_powered {op : Operation} (h : op.kind ≠ .powered) :
    op.exponent = .ofNat 1 ∧ op.base = op := by
  cases op with
  | powered e w => exact absurd rfl h
  | _ => exact ⟨rfl, rfl⟩

/-- Every square root that the operation may be built from, under `c` further controls,
has exactly half the exponent of the one before.  Powers on several qubits are never built
from roots, and a gate on two qubits may have to be built from gates under one control
more. -/
def RootsExact (c : Nat) : Operation → Prop
  | gate g => (Exponent.ofNat 1).HalvesExactly (c + (g.numQubits - 1))
  | custom _ => (Exponent.ofNat 1).HalvesExactly c
  | controlled n w => w.RootsExact (c + n)
  | powered e w => (w.numQubits = 1 → e.HalvesExactly c) ∧ w.RootsExact c
  | inverted w => w.RootsExact c
  | repeated _ w => w.RootsExact c
  | _ => True

theorem RootsExact.mono {op : Operation} {c d : Nat} (h : op.RootsExact d) (hcd : c ≤ d) :
    op.RootsExact c := by
  induction op generalizing c d with
  | gate g => exact Exponent.HalvesExactly.mono h (Nat.add_le_add_right hcd _)
  | custom g => exact Exponent.HalvesExactly.mono h hcd
  | controlled n w ih => exact ih h (Nat.add_le_add_right hcd n)
  | powered e w ih => exact ⟨fun hqubit => (h.1 hqubit).mono hcd, ih h.2 hcd⟩
  | inverted w ih => exact ih h hcd
  | repeated n w ih => exact ih h hcd
  | _ => trivial

theorem RootsExact.halves_one {op : Operation} (hunitary : op.isUnitary = true) {c : Nat}
    (h : op.RootsExact c) : (Exponent.ofNat 1).HalvesExactly c := by
  induction op generalizing c with
  | gate g => exact Exponent.HalvesExactly.mono h (Nat.le_add_right c _)
  | custom g => exact h
  | controlled n w ih => exact (ih hunitary h).mono (Nat.le_add_right c n)
  | powered e w ih => exact ih hunitary h.2
  | inverted w ih => exact ih hunitary h
  | repeated n w ih => exact ih hunitary h
  | _ => simp [isUnitary] at hunitary

theorem RootsExact.halves {op : Operation} (hunitary : op.isUnitary = true)
    (hqubit : op.numQubits = 1) {c : Nat} (h : op.RootsExact c) :
    op.exponent.HalvesExactly c := by
  cases op with
  | powered e w => exact h.1 hqubit
  | _ => exact h.halves_one hunitary

theorem rootsExact_addControls {op : Operation} {c n : Nat} :
    (op.addControls n).RootsExact c ↔ op.RootsExact (c + n) := by
  cases op with
  | controlled m w =>
      simp only [addControls, RootsExact]
      rw [Nat.add_assoc]
  | _ => rfl

theorem rootsExact_invert {op : Operation} {c : Nat} :
    op.invert.RootsExact c ↔ op.RootsExact c := by
  induction op generalizing c with
  | controlled n w ih => exact ih
  | repeated n w ih => exact ih
  | _ => rfl

end Operation

end GateAlgebra
