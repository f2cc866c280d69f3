import GateAlgebra.DenseMatrix.Stored
import GateAlgebra.Proofs.MatrixOutcome
/-!
Matrices as they are stored.  Up to 29 qubits the matrix of an operation is the one that is
computed without a limit.  For more qubits the program stops, if it stops where shifts do not
fit.
-/

namespace GateAlgebra

theorem dimension_le {m n : Nat} (h : m ≤ n) : dimension m ≤ dimension n :=
  Nat.pow_le_pow_right Nat.two_pos h

/-- The greatest number of qubits whose matrices can be stored. -/
def maxStoredQubits : Nat := 29

namespace Counting

variable {counting : Counting} {k n : Nat}

/-- Matrices on so many qubits can be stored. -/
def Stores (counting : Counting) (n : Nat) : Prop :=
  counting = .exact ∨ n ≤ maxStoredQubits

theorem Stores.mono (h : counting.Stores n) (hk : k ≤ n) : counting.Stores k :=
  h.imp_right hk.trans

theorem holds_iff : counting.holds (dimension n * dimension n) = true ↔ counting.Stores n := by
  have hsquare : dimension n * dimension n ≤ maxEntries ↔ n ≤ maxStoredQubits := by
    refine ⟨fun h => Nat.not_lt.1 fun hlarge => ?_, fun h => ?_⟩
    · have hside : dimension 30 ≤ dimension n := dimension_le hlarge
      exact absurd ((Nat.mul_le_mul hside hside).trans h) (by decide)
    · have hside : dimension n ≤ dimension 29 := dimension_le h
      exact (Nat.mul_le_mul hside hside).trans (by decide)
  simp only [holds, Stores, hsquare, Bool.or_eq_true, beq_iff_eq, decide_eq_true_eq]

/-- The side of a control block that can be stored fits in 64 bits. -/
theorem shiftLeft_eq_some (h : counting.Stores (n + k)) :
    counting.shiftLeft (dimension k) n = some (dimension (n + k)) := by
  have hproduct : dimension k * dimension n = dimension (n + k) := by
    rw [dimension_add, Nat.mul_comm]
  rcases h with rfl | h
  · exact congrArg some hproduct
  · have hmax : maxStoredQubits < 64 := by decide
    have hside : dimension (n + k) ≤ dimension 29 := dimension_le h
    have hword : dimension (n + k) % (maxIndex + 1) = dimension (n + k) :=
      Nat.mod_eq_of_lt (hside.trans_lt (by decide))
    have hn : n < 64 := by omega
    cases counting with
    | exact => exact congrArg some hproduct
    | stops => rw [shiftLeft, if_pos hn, hproduct, hword]
    | wraps => rw [shiftLeft, Nat.mod_eq_of_lt hn, hproduct, hword]

/-- What is shifted by fewer than 64 bits is a power of two or nothing. -/
theorem shiftLeft_stops {dim : Nat} (h : stops.shiftLeft (dimension k) n = some dim) :
    dim = dimension (n + k) ∨ dim = 0 := by
  rw [shiftLeft] at h
  obtain ⟨-, hdim⟩ := Option.ite_none_right_eq_some.1 h
  obtain rfl := Option.some.inj hdim
  rw [Nat.mul_comm, ← dimension_add]
  rcases Nat.lt_or_ge (n + k) 64 with hlt | hge
  · exact Or.inl (Nat.mod_eq_of_lt ((dimension_le (Nat.le_of_lt_succ hlt)).trans_lt (by decide)))
  · right
    have hword : maxIndex + 1 = dimension 64 := by decide
    rw [hword]
    exact Nat.mod_eq_zero_of_dvd (pow_dvd_pow 2 hge)

end Counting

open Counting

namespace DenseMatrix

variable {α : Type} [Zero α] {counting : Counting} {m result : DenseMatrix α} {k n : Nat}

section Blocks

variable [One α]

theorem controlIn_eq_some (hm : m.rows = dimension k) (h : counting.Stores (n + k)) :
    m.controlIn counting n = some (m.control n) := by
  have hdim : m.rows * dimension n = dimension (n + k) := by
    rw [hm, dimension_add, Nat.mul_comm]
  rw [controlIn, hm, shiftLeft_eq_some h, control, hdim]
  exact if_pos ⟨dimension_le (Nat.le_add_left k n), holds_iff.2 h⟩

theorem controlIn_eq_none (hm : m.rows = dimension k) (h : maxStoredQubits < n + k) :
    m.controlIn .stops n = none := by
  rw [controlIn, hm]
  cases hdim : Counting.stops.shiftLeft (dimension k) n with
  | none => rfl
  | some dim =>
      refine if_neg fun hstored => ?_
      rcases shiftLeft_stops hdim with rfl | rfl
      · rcases holds_iff.1 hstored.2 with hexact | hle
        · cases hexact
        · omega
      · exact absurd hstored.1 (Nat.not_le.2 (dimension_pos k))

end Blocks

variable [Mul α]

/-- A tensor power, copy by copy. -/
theorem tensorCopiesIn_eq_some [One α] (hrows : m.rows = dimension k) (hsquare : m.IsSquare)
    {copies : Nat} (h : counting.Stores ((copies + n) * k)) :
    tensorCopiesIn counting m n (m.tensorPower copies) = some (m.tensorPower (copies + n)) := by
  induction n generalizing copies with
  | zero => rfl
  | succ n ih =>
      have hcopies : copies + 1 + n = copies + (n + 1) := by omega
      have hnext : (m.tensorPower (copies + 1)).rows = dimension ((copies + 1) * k) := by
        rw [rows_tensorPower, hrows, dimension_mul]
      have hcols := hsquare.tensorPower (copies + 1)
      have hstored : counting.Stores ((copies + 1) * k) :=
        h.mono (Nat.mul_le_mul_right k (by omega))
      have hstep :
          (m.tensorPower copies).tensorIn counting m = some (m.tensorPower (copies + 1)) := by
        refine if_pos ?_
        change counting.holds ((m.tensorPower (copies + 1)).rows *
          (m.tensorPower (copies + 1)).cols) = true
        rw [← hcols, hnext]
        exact holds_iff.2 hstored
      rw [← hcopies] at h ⊢
      rw [tensorCopiesIn, hstep]
      exact ih h

theorem tensorCopiesIn_identity [One α] (hrows : m.rows = dimension k) (hsquare : m.IsSquare)
    (h : counting.Stores (n * k)) :
    tensorCopiesIn counting m n (.identity 1) = some (m.tensorPower n) := by
  rw [← Nat.zero_add n] at h
  exact (tensorCopiesIn_eq_some hrows hsquare h).trans (by rw [Nat.zero_add])

/-- The copies stop at the first product that cannot be stored. -/
theorem tensorCopiesIn_eq_none (hrows : m.rows = dimension k) (hsquare : m.IsSquare) {j : Nat}
    (hresult : result.rows = dimension j) (hresult' : result.IsSquare) (hj : j ≤ maxStoredQubits)
    (h : maxStoredQubits < j + n * k) : tensorCopiesIn .stops m n result = none := by
  induction n generalizing result j with
  | zero => omega
  | succ n ih =>
      have hproduct : (result.tensor m).rows = dimension (j + k) := by
        change result.rows * m.rows = _
        rw [hresult, hrows, dimension_add]
      have hproduct' : (result.tensor m).IsSquare := congrArg₂ (· * ·) hresult' hsquare
      rw [tensorCopiesIn, tensorIn]
      split
      · rename_i hstored
        change Counting.stops.holds ((result.tensor m).rows * (result.tensor m).cols) = true
          at hstored
        rw [← hproduct', hproduct, holds_iff] at hstored
        refine ih hproduct hproduct' (hstored.resolve_left nofun) ?_
        rw [Nat.succ_mul] at h
        omega
      · rfl

theorem tensorCopiesIn_identity_eq_none [One α] (hrows : m.rows = dimension k)
    (hsquare : m.IsSquare) (h : maxStoredQubits < n * k) :
    tensorCopiesIn .stops m n (.identity 1) = none := by
  have hside : (identity 1 : DenseMatrix α).rows = dimension 0 := rfl
  have hside' : (identity 1 : DenseMatrix α).IsSquare := rfl
  rw [← Nat.zero_add (n * k)] at h
  exact tensorCopiesIn_eq_none hrows hsquare hside hside' (Nat.zero_le _) h

end DenseMatrix

namespace Operation

section Stored

variable {α : Type} [Zero α] [One α] [Add α] [Mul α] [Conj α] {leaves : LeafMatrices α}
  {counting : Counting} {x : Operation}

/-- What can be stored is the matrix that is computed without a limit. -/
theorem matrixIn_eq_matrixOver (hsized : leaves.Sized) (hchecked : x.Checked)
    (hunitary : x.isUnitary = true) (h : counting.Stores x.numQubits) :
    x.matrixIn counting leaves = liftM (x.matrixOver leaves) := by
  induction x with
  | gate g => rfl
  | custom g =>
      have hsize : g.entries.size = dimension g.numQubits * dimension g.numQubits :=
        CustomGate.Checked.size_entries hchecked.parts
      rw [matrixIn, hsize]
      exact if_pos (holds_iff.2 h)
  | controlled n w ih =>
      have hstored : counting.Stores (n + w.numQubits) := h
      have hw : w.isUnitary = true := hunitary
      rw [matrixIn, matrixOver_controlled, ih (hchecked.wrapped rfl).2 hw
        (hstored.mono (Nat.le_add_left _ n))]
      cases hm : w.matrixOver leaves with
      | error e => rfl
      | ok m =>
          change ExceptT.lift (m.controlIn counting n) = _
          rw [DenseMatrix.controlIn_eq_some (rows_matrixOver hsized hw hm) hstored]
          rfl
  | powered e w ih =>
      rw [matrixIn, ih (hchecked.wrapped rfl).2 hunitary h, matrixOver]
      cases w.matrixOver leaves <;> rfl
  | inverted w ih =>
      rw [matrixIn, ih (hchecked.wrapped rfl).2 hunitary h, matrixOver]
      cases w.matrixOver leaves <;> rfl
  | repeated n w ih =>
      have hstored : counting.Stores (n * w.numQubits) := h
      have hw : w.isUnitary = true := hunitary
      have hn : 0 < n := hchecked.modifiesGates.1
      rw [matrixIn, matrixOver_repeated, ih (hchecked.wrapped rfl).2 hw
        (hstored.mono (Nat.le_mul_of_pos_left _ hn))]
      cases hm : w.matrixOver leaves with
      | error e => rfl
      | ok m =>
          change ExceptT.lift (m.tensorCopiesIn counting n (.identity 1)) = _
          rw [DenseMatrix.tensorCopiesIn_identity (rows_matrixOver hsized hw hm)
            (isSquare_of_matrixOver hsized.toSquare hw hm) hstored]
          rfl
  | measure | reset | barrier | channel | observable | expectation => cases hunitary

/-- What cannot be stored stops the program, if a shift that does not fit does. -/
theorem matrixIn_stops (hsized : leaves.Sized) (hchecked : x.Checked)
    (hunitary : x.isUnitary = true) (h : maxStoredQubits < x.numQubits) {m : DenseMatrix α}
    (hm : x.matrixOver leaves = .ok m) : x.matrixIn .stops leaves = ExceptT.lift none := by
  induction x generalizing m with
  | gate g =>
      have hsmall : g.numQubits ≤ 2 := by cases g <;> exact Nat.le_of_ble_eq_true rfl
      have hlarge : 29 < g.numQubits := h
      omega
  | custom g =>
      have hsize : g.entries.size = dimension g.numQubits * dimension g.numQubits :=
        CustomGate.Checked.size_entries hchecked.parts
      rw [matrixIn, hsize]
      refine if_neg fun hstored => ?_
      rcases holds_iff.1 hstored with hexact | hle
      · cases hexact
      · exact Nat.not_lt.2 hle h
  | controlled n w ih =>
      obtain ⟨hw, hinner⟩ := hchecked.wrapped rfl
      rw [matrixOver_controlled] at hm
      obtain ⟨inner, hm, -⟩ := map_eq_ok_iff.1 hm
      rw [matrixIn]
      by_cases hlarge : maxStoredQubits < w.numQubits
      · rw [ih hinner hw hlarge hm]
        rfl
      · rw [matrixIn_eq_matrixOver hsized hinner hw (Or.inr (Nat.not_lt.1 hlarge)), hm]
        change ExceptT.lift (inner.controlIn .stops n) = _
        rw [DenseMatrix.controlIn_eq_none (rows_matrixOver hsized hw hm) h]
  | powered e w ih =>
      rw [matrixOver] at hm
      obtain ⟨inner, hm, -⟩ := bind_eq_ok_iff.1 hm
      rw [matrixIn, ih (hchecked.wrapped rfl).2 hunitary h hm]
      rfl
  | inverted w ih =>
      rw [matrixOver_inverted] at hm
      obtain ⟨inner, hm, -⟩ := map_eq_ok_iff.1 hm
      rw [matrixIn, ih (hchecked.wrapped rfl).2 hunitary h hm]
      rfl
  | repeated n w ih =>
      obtain ⟨hw, hinner⟩ := hchecked.wrapped rfl
      rw [matrixOver_repeated] at hm
      obtain ⟨inner, hm, -⟩ := map_eq_ok_iff.1 hm
      rw [matrixIn]
      by_cases hlarge : maxStoredQubits < w.numQubits
      · rw [ih hinner hw hlarge hm]
        rfl
      · rw [matrixIn_eq_matrixOver hsized hinner hw (Or.inr (Nat.not_lt.1 hlarge)), hm]
        change ExceptT.lift (inner.tensorCopiesIn .stops n (.identity 1)) = _
        rw [DenseMatrix.tensorCopiesIn_identity_eq_none (rows_matrixOver hsized hw hm)
          (isSquare_of_matrixOver hsized.toSquare hw hm) h]
  | measure | reset | barrier | channel | observable | expectation => cases hunitary

end Stored

section Double

variable {counting : Counting} {x : Operation} {error : CircuitError} {m : FloatMatrix}

theorem matrixIn_double (hx : x.Checked) (h : counting.Stores x.numQubits) :
    x.matrixIn counting .double = liftM x.matrix := by
  by_cases hunitary : x.isUnitary = true
  · exact matrixIn_eq_matrixOver LeafMatrices.sized_double hx hunitary h
  · cases x with
    | observable o => exact if_pos (holds_iff.2 h)
    | controlled n w | repeated n w => exact absurd hx.modifiesGates.2.1 hunitary
    | powered e w | inverted w => exact absurd hx.modifiesGates.1 hunitary
    | gate | custom => exact absurd rfl hunitary
    | measure | reset | barrier | channel | expectation => rfl

/-- What keeps an operation from having a matrix is met before any matrix is stored. -/
theorem matrixIn_eq_throw (hparts : x.PartsChecked) (hconverges : x.Converges)
    (h : x.matrix = .error error) : x.matrixIn counting .double = throw error := by
  induction x with
  | gate g => exact congrArg liftM h
  | custom g =>
      obtain ⟨m, hm⟩ := CustomGate.Checked.exists_matrix hparts
      cases hm.symm.trans h
  | controlled n w ih | repeated n w ih =>
      rw [matrix, matrixOver] at h
      rw [matrixIn, ih hparts hconverges (map_eq_error_iff.1 h)]
      rfl
  | inverted w ih =>
      rw [matrix, matrixOver_inverted] at h
      rw [matrixIn, ih hparts hconverges (map_eq_error_iff.1 h)]
      rfl
  | powered e w ih =>
      rw [matrix, matrixOver, bind_eq_error_iff] at h
      rcases h with hw | ⟨m, hm, hpower⟩
      · rw [matrixIn, ih hparts.2 hconverges.1 hw]
        rfl
      · obtain ⟨p, hp⟩ := DenseMatrix.exists_power (hconverges.2 m hm)
        cases hp.symm.trans hpower
  | observable o => cases h
  | measure | reset | barrier | channel | expectation =>
      obtain rfl := Except.error.inj h
      rfl

/-- Where no bits of a shift are lost, the answer is the matrix if it can be stored, and the
failure of an operation without a matrix. -/
theorem matrixIn_cases (hx : x.Checked) (hconverges : x.Converges)
    (hkept : counting = .wraps → x.numQubits ≤ maxStoredQubits) :
    (counting.Stores x.numQubits ∧ x.matrixIn counting .double = liftM x.matrix) ∨
      ¬counting.Stores x.numQubits ∧
        ((∃ error, x.matrix = .error error ∧ x.matrixIn counting .double = throw error) ∨
          (∃ m, x.matrix = .ok m) ∧ x.matrixIn counting .double = ExceptT.lift none) := by
  by_cases hstored : counting.Stores x.numQubits
  · exact Or.inl ⟨hstored, matrixIn_double hx hstored⟩
  · refine Or.inr ⟨hstored, ?_⟩
    have hlarge : maxStoredQubits < x.numQubits := Nat.not_le.1 fun hle => hstored (Or.inr hle)
    have hstops : counting = .stops := by
      cases counting with
      | exact => exact absurd (Or.inl rfl) hstored
      | stops => rfl
      | wraps => exact absurd (hkept rfl) (Nat.not_le.2 hlarge)
    subst hstops
    cases hm : x.matrix with
    | error e => exact Or.inl ⟨e, rfl, matrixIn_eq_throw hx.parts hconverges hm⟩
    | ok m =>
        refine Or.inr ⟨⟨m, rfl⟩, ?_⟩
        by_cases hunitary : x.isUnitary = true
        · exact matrixIn_stops LeafMatrices.sized_double hx hunitary hlarge hm
        · rcases matrix_of_not_isUnitary hx.modifiesGates (by simpa using hunitary) with
            ⟨o, rfl, -⟩ | ⟨-, herror⟩
          · exact if_neg fun h => hstored (holds_iff.1 h)
          · cases hm.symm.trans herror

theorem matrixIn_eq_pure_iff (hx : x.Checked) (hconverges : x.Converges)
    (hkept : counting = .wraps → x.numQubits ≤ maxStoredQubits) :
    x.matrixIn counting .double = pure m ↔ counting.Stores x.numQubits ∧ x.matrix = .ok m := by
  rcases matrixIn_cases hx hconverges hkept with
    ⟨hstored, heq⟩ | ⟨hstored, ⟨e, -, heq⟩ | ⟨-, heq⟩⟩
  · rw [heq, liftM_eq_pure_iff]
    exact (and_iff_right hstored).symm
  · rw [heq]
    exact iff_of_false (throw_ne_pure e m) fun h => hstored h.1
  · rw [heq]
    exact iff_of_false nofun fun h => hstored h.1

theorem matrixIn_eq_throw_iff (hx : x.Checked) (hconverges : x.Converges)
    (hkept : counting = .wraps → x.numQubits ≤ maxStoredQubits) :
    x.matrixIn counting .double = throw error ↔ x.matrix = .error error := by
  rcases matrixIn_cases hx hconverges hkept with
    ⟨-, heq⟩ | ⟨-, ⟨e, hm, heq⟩ | ⟨⟨m, hm⟩, heq⟩⟩
  · rw [heq, liftM_eq_throw_iff]
  · rw [heq, hm]
    exact liftM_eq_throw_iff
  · rw [heq, hm]
    exact iff_of_false nofun nofun

end Double

end Operation

end GateAlgebra
