import GateAlgebra.Proofs.BitIndex
import GateAlgebra.Proofs.CircuitMatrix
import GateAlgebra.Proofs.Semantics
/-!
Operators on a register.  A matrix on target qubits is an operator on all qubits, and on a register
it is the matrix that a gate in place has there.  So the operator of gates one after the other is
the unitary of the circuit.
-/

namespace GateAlgebra

section Targets

variable {n k index value : Nat} {qubits : List Nat} {s : Assignment}

theorem targetAt_range (q : Fin n) : targetAt (List.range n) n q = q := by
  simp [targetAt, List.getD_eq_getElem?_getD]

/-- A bit of what is read is the bit of one target. -/
theorem qubitBit_targetAt (hlength : qubits.length = k) (p : Fin k) :
    qubitBit k p (readTargets n qubits index) = qubitBit n (targetAt qubits k p) index := by
  subst hlength
  exact qubitBit_readTargets p.2

/-- The bits of an assignment on the first qubits are those of an index. -/
def SpelledBy (n index : Nat) (s : Assignment) : Prop :=
  ∀ q < n, s q = decide (qubitBit n q index = 1)

theorem exists_spelledBy (n : Nat) (s : Assignment) :
    ∃ i : Fin (dimension n), SpelledBy n i s ∧ s ∘ targetAt (List.range n) n = bitsOf n i := by
  obtain ⟨i, hi⟩ := (bitsEquiv n).surjective (s ∘ targetAt (List.range n) n)
  refine ⟨i, fun q hq => ?_, hi.symm⟩
  have hbit : bitsOf n i ⟨q, hq⟩ = s (targetAt (List.range n) n ⟨q, hq⟩) := congrFun hi ⟨q, hq⟩
  rw [targetAt_range] at hbit
  exact hbit.symm

section Below

variable (h : TargetsBelow n qubits) (hlength : qubits.length = k)

include h hlength

theorem targetAt_lt (p : Fin k) : targetAt qubits k p < n :=
  h.lt _ (targetAt_mem hlength p)

/-- The bits that are read from an index are those of the targets. -/
theorem comp_targetAt (hs : SpelledBy n index s) :
    s ∘ targetAt qubits k = bitsOf k (readTargets n qubits index) := by
  funext p
  rw [Function.comp_apply, hs _ (targetAt_lt h hlength p), bitsOf, qubitBit_targetAt hlength]

/-- Writing bits to the targets of an index is writing them to an assignment. -/
theorem extend_writeTargets (hs : SpelledBy n index s) (hvalue : value < dimension k) :
    Function.extend (targetAt (List.range n) n) (bitsOf n (writeTargets n qubits value index)) s =
      Function.extend (targetAt qubits k) (bitsOf k value) s := by
  have hall := targetAt_injective (List.length_range (n := n)) List.nodup_range
  have htargets := targetAt_injective hlength h.nodup
  have hinside : ∀ q (hq : q < n),
      Function.extend (targetAt (List.range n) n) (bitsOf n (writeTargets n qubits value index)) s
        q = decide (qubitBit n q (writeTargets n qubits value index) = 1) := by
    intro q hq
    have hextend := hall.extend_apply (bitsOf n (writeTargets n qubits value index)) s ⟨q, hq⟩
    rwa [targetAt_range] at hextend
  funext q
  by_cases hq : ∃ p, targetAt qubits k p = q
  · obtain ⟨p, rfl⟩ := hq
    rw [hinside _ (targetAt_lt h hlength p), htargets.extend_apply, bitsOf,
      ← qubitBit_targetAt hlength, readTargets_writeTargets h, hlength, Nat.mod_eq_of_lt hvalue]
  · rw [Function.extend_apply' _ _ _ hq]
    by_cases hbelow : q < n
    · have hmem : q ∉ qubits := by
        intro hmem
        obtain ⟨p, hp, rfl⟩ := List.mem_iff_getElem.1 hmem
        exact hq ⟨⟨p, hlength ▸ hp⟩, by
          simp [targetAt, List.getD_eq_getElem?_getD, List.getElem?_eq_getElem hp]⟩
      rw [hinside q hbelow, qubitBit_writeTargets h.lt hbelow hmem, hs q hbelow]
    · have houtside : ¬∃ p, targetAt (List.range n) n p = q := by
        rintro ⟨p, rfl⟩
        exact hbelow (targetAt_range p ▸ p.2)
      exact Function.extend_apply' _ _ _ houtside

end Below

end Targets

section Place

open DenseMatrix

variable {R : Type} [CommRing R] {m u : DenseMatrix R} {n k : Nat} {qubits : List Nat}

/-- On a register a matrix on targets is what a gate on these targets has for a matrix. -/
theorem place_bitMatrix (h : TargetsBelow n qubits) (hlength : qubits.length = k)
    (hm : m.HasSide (dimension k)) :
    place qubits (m.bitMatrix k) =
      place (List.range n) (((identity (dimension n)).applyGate m qubits n).bitMatrix n) := by
  funext ψ s
  obtain ⟨i, hs, hi⟩ := exists_spelledBy n s
  have hread : readTargets n qubits i < dimension k := hlength ▸ readTargets_lt
  have hwrite : ∀ j : Fin (dimension k), writeTargets n qubits j i < dimension n := fun j =>
    writeTargets_lt h.lt i.2
  have hentry : ∀ l : Fin (dimension n),
      ((identity (dimension n)).applyGate m qubits n).bitMatrix n (bitsOf n i) (bitsOf n l) =
        ∑ j : Fin (dimension k), m.entry (readTargets n qubits i) j *
          if l = ⟨writeTargets n qubits j i, hwrite j⟩ then 1 else 0 := by
    intro l
    rw [bitMatrix_apply, entry_applyGate _ i.2 l.2, hm.cols, Finset.sum_range]
    refine Finset.sum_congr rfl fun j _ => ?_
    rw [entry_identity (hwrite j) l.2]
    simp only [Fin.ext_iff, eq_comm]
  calc place qubits (m.bitMatrix k) ψ s
      = ∑ j : Fin (dimension k), m.bitMatrix k (s ∘ targetAt qubits k) (bitsOf k j) *
          ψ (Function.extend (targetAt qubits k) (bitsOf k j) s) :=
        ((bitsEquiv k).sum_comp _).symm
    _ = ∑ j : Fin (dimension k), m.entry (readTargets n qubits i) j *
          ψ (Function.extend (targetAt (List.range n) n) (bitsOf n (writeTargets n qubits j i))
            s) := by
        refine Finset.sum_congr rfl fun j _ => ?_
        rw [comp_targetAt h hlength hs, extend_writeTargets h hlength hs j.2]
        exact congrArg (· * _) (bitMatrix_apply ⟨_, hread⟩ j)
    _ = ∑ l : Fin (dimension n),
          ((identity (dimension n)).applyGate m qubits n).bitMatrix n (bitsOf n i) (bitsOf n l) *
            ψ (Function.extend (targetAt (List.range n) n) (bitsOf n l) s) := by
        simp only [hentry, Finset.sum_mul]
        rw [Finset.sum_comm]
        refine Finset.sum_congr rfl fun j _ => ?_
        simp only [mul_ite, mul_one, mul_zero, ite_mul, zero_mul]
        rw [Finset.sum_ite_eq' Finset.univ, if_pos (Finset.mem_univ _)]
    _ = place (List.range n) (((identity (dimension n)).applyGate m qubits n).bitMatrix n) ψ s := by
        rw [← hi]
        exact (bitsEquiv n).sum_comp fun b =>
          ((identity (dimension n)).applyGate m qubits n).bitMatrix n
              (s ∘ targetAt (List.range n) n) b *
            ψ (Function.extend (targetAt (List.range n) n) b s)

/-- A gate after others. -/
theorem place_applyGate (h : TargetsBelow n qubits) (hlength : qubits.length = k)
    (hm : m.HasSide (dimension k)) (hu : u.HasSide (dimension n)) :
    place (List.range n) ((u.applyGate m qubits n).bitMatrix n) =
      place qubits (m.bitMatrix k) * place (List.range n) (u.bitMatrix n) := by
  have hgate : ((identity (dimension n)).applyGate m qubits n).HasSide (dimension n) := ⟨rfl, rfl⟩
  have hidentity : identity (dimension n) * u = u := by
    rw [← hu.rows]
    exact identity_mul u
  rw [place_bitMatrix h hlength hm, ← place_mul List.length_range List.nodup_range,
    ← bitMatrix_mul hgate hu, ← applyGate_mul rfl h.lt, hidentity]

end Place

section Run

open DenseMatrix

variable {R : Type} [CommRing R] [StarRing R] {S : Semantics R} {leaves : LeafMatrices R} {n : Nat}
  {state u : DenseMatrix R} {inst : Instruction} {insts : List Instruction}

/-- Gates mean their matrices. -/
def Semantics.Reads (S : Semantics R) (leaves : LeafMatrices R) : Prop :=
  ∀ (op : Operation) (m : DenseMatrix R), op.isUnitary = true → op.matrixOver leaves = .ok m →
    S.den op = m.bitMatrix op.numQubits

/-- A valid gate with a matrix on qubits of the register. -/
structure Instruction.GateBelow (leaves : LeafMatrices R) (n : Nat) (inst : Instruction) :
    Prop where
  valid : inst.Valid
  unitary : inst.operation.isUnitary = true
  matrix : ∃ m, inst.operation.matrixOver leaves = .ok m
  below : ∀ q ∈ inst.qubits, q < n

/-- The operator of gates is that of the unitary of the circuit. -/
theorem Semantics.Reads.run (hS : S.Reads leaves) (hsized : leaves.Sized)
    (h : ∀ inst ∈ insts, inst.GateBelow leaves n) (hstate : state.HasSide (dimension n)) :
    ∃ u, insts.foldlM (Circuit.applyInstruction leaves n) state = .ok u ∧
      u.HasSide (dimension n) ∧
      place (List.range n) (u.bitMatrix n) =
        S.run insts * place (List.range n) (state.bitMatrix n) := by
  induction insts generalizing state with
  | nil => exact ⟨state, rfl, hstate, (one_mul _).symm⟩
  | cons inst insts ih =>
      obtain ⟨hinst, hrest⟩ := List.forall_mem_cons.1 h
      obtain ⟨m, hm⟩ := hinst.matrix
      have hlength := hinst.valid.qubits_length
      have hrows := Operation.rows_matrixOver hsized hinst.unitary hm
      have hsquare := Operation.isSquare_of_matrixOver hsized.toSquare hinst.unitary hm
      have hside : m.HasSide (dimension inst.operation.numQubits) :=
        ⟨hrows, hsquare.symm.trans hrows⟩
      have htargets : TargetsBelow n inst.qubits := ⟨hinst.valid.qubits_nodup, hinst.below⟩
      have hgate := Circuit.foldlM_gate inst (Operation.isBarrier_of_isUnitary hinst.unitary)
        htargets hm hstate.rows hsquare (hlength.symm ▸ hside.cols)
      have hnext : (state.applyGate m inst.qubits n).HasSide (dimension n) :=
        ⟨hstate.rows, hstate.cols⟩
      obtain ⟨u, hfold, hu, hplace⟩ := ih hrest hnext
      refine ⟨u, ?_, hu, ?_⟩
      · rw [← List.singleton_append, List.foldlM_append, hgate]
        exact hfold
      · have hoperator : S.operator inst.operation inst.qubits =
            place inst.qubits (m.bitMatrix inst.operation.numQubits) :=
          congrArg (place inst.qubits) (hS _ m hinst.unitary hm)
        rw [hplace, place_applyGate htargets hlength hside hstate, Semantics.run_cons, mul_assoc,
          hoperator]
        rfl

/-- Gates have one operator exactly if circuits of them have one unitary. -/
theorem Semantics.Reads.unitary_eq_iff (hS : S.Reads leaves) (hsized : leaves.Sized)
    {insts insts' : List Instruction} (name name' : String)
    (h : ∀ inst ∈ insts, inst.GateBelow leaves n) (h' : ∀ inst ∈ insts', inst.GateBelow leaves n) :
    (⟨name, insts⟩ : Circuit).unitaryOver leaves n =
      (⟨name', insts'⟩ : Circuit).unitaryOver leaves n ↔ S.run insts = S.run insts' := by
  have hidentity : (identity (dimension n) : DenseMatrix R).HasSide (dimension n) := ⟨rfl, rfl⟩
  have hone : place (List.range n) ((identity (dimension n) : DenseMatrix R).bitMatrix n) = 1 := by
    rw [bitMatrix_identity, place_one List.length_range List.nodup_range]
  obtain ⟨u, hfold, hu, hplace⟩ := hS.run hsized h hidentity
  obtain ⟨u', hfold', hu', hplace'⟩ := hS.run hsized h' hidentity
  rw [hone, mul_one] at hplace hplace'
  rw [Circuit.unitaryOver, Circuit.unitaryOver, hfold, hfold', ← hplace, ← hplace']
  constructor
  · intro hsame
    rw [Except.ok.inj hsame]
  · intro hsame
    exact congrArg _ (bitMatrix_injective hu hu' (eq_of_place_range hsame))

end Run

end GateAlgebra
