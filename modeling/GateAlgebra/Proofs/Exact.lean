import GateAlgebra.Proofs.Canonical
/-!
The operations that lowering treats without a rounding error: gates in normal form whose
exponents halve exactly as often as controls may ask for.
-/

namespace GateAlgebra

namespace Operation

/-- A gate in normal form that may be put under `c` controls and lowered. -/
structure Exact (c : Nat) (op : Operation) : Prop where
  unitary : op.isUnitary = true
  canonical : op.Canonical
  roots : op.RootsExact c

namespace Exact

variable {c n : Nat} {e : Exponent} {op w : Operation}

theorem mono {d : Nat} (h : op.Exact d) (hcd : c ≤ d) : op.Exact c :=
  ⟨h.unitary, h.canonical, h.roots.mono hcd⟩

theorem addControls (hn : 0 < n) (h : op.Exact (c + n)) : (op.addControls n).Exact c :=
  ⟨by simpa using h.unitary, canonical_addControls (Nat.add_pos_left hn) h.canonical,
    rootsExact_addControls.2 h.roots⟩

theorem invert (h : op.Exact c) : op.invert.Exact c :=
  ⟨by simpa using h.unitary, canonical_invert h.canonical, rootsExact_invert.2 h.roots⟩

theorem of_controlled (h : (controlled n w).Exact c) : w.Exact (c + n) :=
  ⟨h.unitary, h.canonical.2.2, h.roots⟩

theorem of_repeated (h : (repeated n w).Exact c) : w.Exact c :=
  ⟨h.unitary, h.canonical.2.2, h.roots⟩

theorem of_inverted (h : (inverted w).Exact c) : w.Exact c :=
  ⟨h.unitary, h.canonical.2, h.roots⟩

theorem of_powered (h : (powered e w).Exact c) : w.Exact c :=
  ⟨h.unitary, h.canonical.2.2, h.roots.2⟩

theorem kind_of_inverted (h : (inverted w).Exact c) : w.kind ∈ [.gate, .custom, .powered] := by
  have hunitary := h.of_inverted.unitary
  have hkind := h.canonical.1
  cases w <;> simp [kind, isUnitary] at hunitary hkind ⊢

theorem kind_of_powered (h : (powered e w).Exact c) : w.kind ∈ [.gate, .custom, .inverted] := by
  have hunitary := h.of_powered.unitary
  have hkind := h.canonical.2.1
  cases w <;> simp [kind, isUnitary] at hunitary hkind ⊢

/-- A power of what is neither a power nor controlled nor repeated. -/
theorem powered (he : e.isOne = false) (hkind : w.kind ∉ [.powered, .controlled, .repeated])
    (hhalves : w.numQubits = 1 → e.HalvesExactly c) (h : w.Exact c) :
    (Operation.powered e w).Exact c :=
  ⟨h.unitary, ⟨he, hkind, h.canonical⟩, ⟨hhalves, h.roots⟩⟩

theorem gate {g : Gate} (h : (Exponent.ofNat 1).HalvesExactly (c + (g.numQubits - 1))) :
    (Operation.gate g).Exact c :=
  ⟨rfl, trivial, h⟩

/-- Any gate under some of the controls that an operation may be put under. -/
theorem controlledGate {g : Gate} {d : Nat} (hn : 0 < n) (hg : g.numQubits = 1)
    (hnd : n ≤ d) (h : op.Exact (c + d)) : (controlled n (.gate g)).Exact c := by
  refine ⟨rfl, ⟨hn, by simp [kind], trivial⟩, ?_⟩
  have hone := h.roots.halves_one h.unitary
  simp only [RootsExact, hg]
  exact hone.mono (by omega)

end Exact

/-- Neither controlled nor repeated: what an operation on one qubit that lowers to itself
can be. -/
def IsCore (op : Operation) : Prop :=
  op.kind ∉ [.controlled, .repeated]

theorem isCore_of_not_mem {op : Operation} (h : op.kind ∉ [.powered, .controlled, .repeated]) :
    op.IsCore := by
  intro hkind
  exact h (List.mem_cons_of_mem _ hkind)

/-- The square root of a power has the root of its exponent and the same base. -/
theorem raise_half_of_core {op : Operation} (h : op.Canonical) (hcore : op.IsCore) :
    (op.raise .half).exponent = op.exponent.root ∧ (op.raise .half).base = op.base ∧
      (op.raise .half).IsCore := by
  have hhalf : Exponent.half.isOne = false := rfl
  by_cases hpowered : ∃ p w, op = powered p w
  · obtain ⟨p, w, rfl⟩ := hpowered
    have hraise : (powered p w).raise .half = w.raise (p * .half) := by
      simp [raise, hhalf]
    have hw : w.IsCore := isCore_of_not_mem h.2.1
    rw [hraise]
    by_cases hone : (p * .half).isOne = true
    · have hsame : w.raise (p * .half) = w := by
        cases w <;> simp [raise, hone]
      have hnotPowered : w.kind ≠ .powered := fun hkind => h.2.1 (by simp [hkind])
      obtain ⟨hexponent, hbase⟩ := exponent_base_of_not_powered hnotPowered
      rw [hsame, hexponent]
      refine ⟨?_, hbase, hw⟩
      simp [exponent, Exponent.root, hone]
    · rw [raise_eq_powered (by simpa using hone) h.2.1]
      exact ⟨by simp [exponent, Exponent.root, hone], rfl, by simp [IsCore, kind]⟩
  · have hkind : op.kind ∉ [.powered, .controlled, .repeated] := by
      cases op with
      | powered p w => exact absurd ⟨p, w, rfl⟩ hpowered
      | controlled n w => simp [IsCore, kind] at hcore
      | repeated n w => simp [IsCore, kind] at hcore
      | _ => simp [kind]
    have hnotPowered : op.kind ≠ .powered := fun h => hkind (by simp [h])
    obtain ⟨hexponent, hbase⟩ := exponent_base_of_not_powered hnotPowered
    rw [raise_eq_powered hhalf hkind, hexponent, hbase, Exponent.root_ofNat_one]
    exact ⟨rfl, rfl, by simp [IsCore, kind]⟩

theorem rootsExact_iff {c : Nat} {op : Operation} (hunitary : op.isUnitary = true) :
    op.RootsExact c ↔
      (op.numQubits = 1 → op.exponent.HalvesExactly c) ∧ op.base.RootsExact c := by
  cases op with
  | powered e w => rfl
  | _ => exact ⟨fun h => ⟨fun hqubit => h.halves hunitary hqubit, h⟩, fun h => h.2⟩

theorem Exact.root {c : Nat} {op : Operation} (h : op.Exact (c + 1)) (hcore : op.IsCore) :
    (op.raise .half).Exact c := by
  obtain ⟨hexponent, hbase, -⟩ := raise_half_of_core h.canonical hcore
  obtain ⟨hhalves, hroots⟩ := (rootsExact_iff h.unitary).1 h.roots
  refine ⟨by simpa using h.unitary, canonical_raise h.canonical _, ?_⟩
  rw [rootsExact_iff (by simpa using h.unitary), hexponent, hbase, numQubits_raise]
  exact ⟨fun hqubit => (hhalves hqubit).root, hroots.mono (Nat.le_succ c)⟩

end Operation

end GateAlgebra
