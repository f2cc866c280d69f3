import GateAlgebra.Proofs.Issued
import GateAlgebra.Proofs.LeafMatrix
/-!
Which operations have a matrix in doubles, how the others fail, and the sides of the matrix.
Modifiers pass on what their innermost operation does; only a power can add a failure, when
the decomposition behind it does not converge.
-/

namespace GateAlgebra

section Leaves

/-- A primitive gate has a matrix if all of its parameters are read, and otherwise fails as
one of them does. -/
theorem gateMatrix_outcome {ρ α ε : Type} [Zero ρ] [One ρ] [Neg ρ] [Add ρ] [Zero α] [One α]
    [Neg α] (trig : Trigonometry ρ α) (read : Scalar → Except ε ρ) (g : Gate) :
    ((∃ m, trig.gateMatrix read g = .ok m) ∧ ∀ s ∈ g.parameters, ∃ angle, read s = .ok angle) ∨
      ∃ s ∈ g.parameters, ∃ e, read s = .error e ∧ trig.gateMatrix read g = .error e := by
  cases g with
  | rx angle | ry angle | rz angle | p angle | rxx angle | ryy angle | rzz angle =>
      cases h : read angle with
      | ok value =>
          refine Or.inl ⟨⟨_, by rw [Trigonometry.gateMatrix, h]; rfl⟩, ?_⟩
          exact List.forall_mem_singleton.2 ⟨value, h⟩
      | error e =>
          refine Or.inr ⟨angle, List.mem_singleton_self angle, e, h, ?_⟩
          rw [Trigonometry.gateMatrix, h]
          rfl
  | u theta phi lambda =>
      rw [Trigonometry.gateMatrix]
      cases htheta : read theta with
      | error e => exact Or.inr ⟨theta, by simp [Gate.parameters], e, htheta, rfl⟩
      | ok first =>
          cases hphi : read phi with
          | error e => exact Or.inr ⟨phi, by simp [Gate.parameters], e, hphi, rfl⟩
          | ok second =>
              cases hlambda : read lambda with
              | error e => exact Or.inr ⟨lambda, by simp [Gate.parameters], e, hlambda, rfl⟩
              | ok third =>
                  refine Or.inl ⟨⟨_, rfl⟩, ?_⟩
                  simp [Gate.parameters, htheta, hphi, hlambda]
  | _ => exact Or.inl ⟨⟨_, rfl⟩, by simp [Gate.parameters]⟩

/-- A number whose imaginary part is negligible. -/
def Scalar.IsAngle (s : Scalar) : Prop :=
  ∃ z : ComplexFloat, s = .concrete z ∧ z.im.abs < 1e-12

namespace Gate

variable {g : Gate}

/-- A parameter is an angle, or the gate fails for it. -/
theorem angle_outcome (g : Gate) (s : Scalar) :
    ((∃ x, g.angle s = .ok x) ∧ s.IsAngle) ∨
      ¬s.IsAngle ∧ ((∃ e, s = .symbolic e ∧ g.angle s = .error (.unbound e.text)) ∨
        g.angle s = .error (.notUnitary g.name)) := by
  cases s with
  | symbolic e => exact Or.inr ⟨nofun, Or.inl ⟨e, rfl, rfl⟩⟩
  | concrete z =>
      by_cases hz : z.im.abs < 1e-12
      · exact Or.inl ⟨⟨z.re, if_pos (decide_eq_true hz)⟩, z, rfl, hz⟩
      · refine Or.inr ⟨?_, Or.inr (if_neg fun hreal => hz (of_decide_eq_true hreal))⟩
        rintro ⟨w, hw, hwz⟩
        obtain rfl := Scalar.concrete.inj hw
        exact hz hwz

/-- A gate whose parameters are angles has a matrix. -/
theorem matrix_outcome (g : Gate) :
    ((∃ m, g.matrix = .ok m) ∧ ∀ s ∈ g.parameters, s.IsAngle) ∨
      (¬∀ s ∈ g.parameters, s.IsAngle) ∧
        ((∃ e, .symbolic e ∈ g.parameters ∧ g.matrix = .error (.unbound e.text)) ∨
          g.matrix = .error (.notUnitary g.name)) := by
  rcases gateMatrix_outcome .double g.angle g with ⟨hm, hread⟩ | ⟨s, hs, error, hread, hm⟩
  · refine Or.inl ⟨hm, fun s hs => ?_⟩
    obtain ⟨x, hx⟩ := hread s hs
    rcases g.angle_outcome s with ⟨-, hangle⟩ | ⟨-, ⟨e, -, hfails⟩ | hfails⟩
    · exact hangle
    · cases hx.symm.trans hfails
    · cases hx.symm.trans hfails
  · rcases g.angle_outcome s with ⟨⟨x, hx⟩, -⟩ | ⟨hangle, hfails⟩
    · cases hx.symm.trans hread
    · refine Or.inr ⟨fun h => hangle (h s hs), hfails.imp ?_ fun hname => ?_⟩
      · rintro ⟨e, rfl, hunbound⟩
        exact ⟨e, hs, hm.trans (congrArg _ (Except.error.inj (hread.symm.trans hunbound)))⟩
      · exact hm.trans (congrArg _ (Except.error.inj (hread.symm.trans hname)))

end Gate

namespace CustomGate

/-- What the constructor asks of a matrix: few enough qubits, a square of entries for them, and
rows that are orthonormal within the tolerance. -/
theorem checked_iff {g : CustomGate} :
    g.Checked ↔ g.numQubits ≤ maxQubits ∧
      isUnitaryEntries g.entries (dimension g.numQubits) = true := by
  unfold Checked ofEntries
  dsimp only
  split
  · exact iff_of_false nofun fun h => absurd h.1 (by omega)
  · rename_i hmax
    have hmax : g.numQubits ≤ maxQubits := Nat.not_lt.1 hmax
    split
    · rename_i hsize
      refine iff_of_false nofun fun h => hsize ?_
      exact eq_of_beq (Bool.and_eq_true_iff.1 h.2).1
    · split
      · rename_i hrefused
        refine iff_of_false nofun fun h => ?_
        rw [h.2] at hrefused
        cases hrefused
      · rename_i haccepted
        exact iff_of_true rfl ⟨hmax, by simpa using haccepted⟩

theorem Checked.size_entries {g : CustomGate} (h : g.Checked) :
    g.entries.size = dimension g.numQubits * dimension g.numQubits :=
  eq_of_beq (Bool.and_eq_true_iff.1 (checked_iff.1 h).2).1

theorem Checked.exists_matrix {g : CustomGate} (h : g.Checked) : ∃ m, g.matrix = .ok m :=
  ⟨_, dif_pos h.size_entries⟩

end CustomGate

namespace Observable

/-- Factors of side two make a product with a row and a column for every basis state. -/
theorem sides_foldl_tensor {factors : List FloatMatrix}
    (h : ∀ f ∈ factors, f.rows = 2 ∧ f.cols = 2) (start : FloatMatrix) :
    (factors.foldl DenseMatrix.tensor start).rows = start.rows * dimension factors.length ∧
      (factors.foldl DenseMatrix.tensor start).cols = start.cols * dimension factors.length := by
  induction factors generalizing start with
  | nil => exact ⟨(Nat.mul_one _).symm, (Nat.mul_one _).symm⟩
  | cons f factors ih =>
      obtain ⟨⟨hrows, hcols⟩, hfactors⟩ := List.forall_mem_cons.1 h
      obtain ⟨hr, hc⟩ := ih hfactors (start.tensor f)
      have hrows' : (start.tensor f).rows = start.rows * 2 := congrArg (start.rows * ·) hrows
      have hcols' : (start.tensor f).cols = start.cols * 2 := congrArg (start.cols * ·) hcols
      have hdim : dimension (f :: factors).length = 2 * dimension factors.length :=
        (dimension_succ _).trans (Nat.mul_comm _ _)
      rw [List.foldl_cons, hr, hc, hrows', hcols', hdim, Nat.mul_assoc, Nat.mul_assoc]
      exact ⟨rfl, rfl⟩

theorem sides_matrix (o : Observable) :
    o.matrix.rows = dimension o.numQubits ∧ o.matrix.cols = dimension o.numQubits := by
  cases o with
  | pauliString factors =>
      have hfactors : ∀ f ∈ factors.map Trigonometry.double.pauliMatrix,
          f.rows = 2 ∧ f.cols = 2 := by
        intro f hf
        obtain ⟨p, -, rfl⟩ := List.mem_map.1 hf
        cases p <;> exact ⟨rfl, rfl⟩
      obtain ⟨hrows, hcols⟩ := sides_foldl_tensor hfactors (.identity 1)
      rw [List.length_map] at hrows hcols
      exact ⟨hrows.trans (Nat.one_mul _), hcols.trans (Nat.one_mul _)⟩
  | _ => exact ⟨rfl, rfl⟩

end Observable

end Leaves

/-- The decomposition that the power of a matrix is computed from, where one is, converges. -/
def DenseMatrix.PowerConverges (m : FloatMatrix) (e : Exponent) : Prop :=
  e.natural? = none → m.isDiagonal = false → ∃ state, m.leadingSquare.schur? = some state

theorem DenseMatrix.exists_power {m : FloatMatrix} {e : Exponent} (h : m.PowerConverges e) :
    ∃ p, m.power e = .ok p := by
  unfold power
  split
  · exact ⟨_, rfl⟩
  · rename_i hnatural
    unfold fractionalPower
    split
    · exact ⟨_, rfl⟩
    · rename_i hdiagonal
      obtain ⟨state, hstate⟩ := h hnatural (by simpa using hdiagonal)
      rw [hstate]
      exact ⟨_, rfl⟩

/-- There is nothing to iterate below side three. -/
theorem DenseMatrix.powerConverges_of_rows {m : FloatMatrix} (h : m.rows ≤ 2) (e : Exponent) :
    m.PowerConverges e := by
  intro _ _
  have hrows : m.leadingSquare.rows ≤ 2 := h
  unfold schur?
  dsimp only
  split
  · exact ⟨_, rfl⟩
  · split
    · exact ⟨_, rfl⟩
    · omega

namespace Operation

/-- Every decomposition on the way to the matrix converges.  Of the iteration behind one
only this is taken for granted. -/
def Converges : Operation → Prop
  | powered e w => w.Converges ∧ ∀ m, w.matrix = .ok m → m.PowerConverges e
  | controlled _ w | inverted w | repeated _ w => w.Converges
  | _ => True

/-- A custom gate, or a primitive gate all of whose parameters are real numbers. -/
def HasEntries : Operation → Prop
  | custom _ => True
  | gate g => ∀ s ∈ g.parameters, s.IsAngle
  | _ => False

variable {x : Operation} {error : CircuitError}

/-- An operation fails as its innermost operation does. -/
theorem matrix_eq_error_iff (h : x.Converges) :
    x.matrix = .error error ↔ x.innermost.matrix = .error error := by
  induction x with
  | controlled n w ih =>
      rw [matrix, matrixOver_controlled, map_eq_error_iff]
      exact ih h
  | inverted w ih =>
      rw [matrix, matrixOver_inverted, map_eq_error_iff]
      exact ih h
  | repeated n w ih =>
      rw [matrix, matrixOver_repeated, map_eq_error_iff]
      exact ih h
  | powered e w ih =>
      rw [matrix, matrixOver, bind_eq_error_iff]
      refine Iff.trans ⟨?_, Or.inl⟩ (ih h.1)
      rintro (hw | ⟨m, hm, hpower⟩)
      · exact hw
      · obtain ⟨p, hp⟩ := DenseMatrix.exists_power (h.2 m hm)
        cases hp.symm.trans hpower
  | _ => exact Iff.rfl

theorem exists_matrix_iff (h : x.Converges) :
    (∃ m, x.matrix = .ok m) ↔ ∃ m, x.innermost.matrix = .ok m := by
  simp only [exists_eq_ok_iff, ne_eq, matrix_eq_error_iff h]

theorem PartsChecked.innermost (h : x.PartsChecked) : x.innermost.PartsChecked := by
  induction x with
  | powered e w ih => exact ih h.2
  | controlled n w ih | repeated n w ih => exact ih h
  | inverted w ih => exact ih h
  | _ => exact h

theorem innermost_of_isUnitary (h : x.isUnitary = true) :
    (∃ g, x.innermost = gate g) ∨ ∃ g, x.innermost = custom g := by
  induction x with
  | gate g => exact Or.inl ⟨g, rfl⟩
  | custom g => exact Or.inr ⟨g, rfl⟩
  | powered e w ih => exact ih h
  | controlled n w ih | repeated n w ih => exact ih h
  | inverted w ih => exact ih h
  | _ => cases h

/-- Modifiers wrap gates only, so an operation that is none is not modified. -/
theorem ModifiesGatesWith.innermost_eq {P : Nat → Prop} (h : x.ModifiesGatesWith P)
    (hunitary : x.isUnitary = false) :
    x.innermost = x := by
  cases x with
  | controlled n w | repeated n w => cases hunitary.symm.trans h.2.1
  | powered e w | inverted w => cases hunitary.symm.trans h.1
  | _ => rfl

/-- What is no gate has a matrix exactly if it is a pure operator. -/
theorem matrix_of_not_isUnitary (hx : x.ModifiesGates) (hunitary : x.isUnitary = false) :
    (∃ o, x = observable o ∧ x.matrix = .ok o.matrix) ∨
      (∀ o, x ≠ observable o) ∧ x.matrix = .error (.notUnitary x.name) := by
  cases x with
  | observable o => exact Or.inl ⟨o, rfl, rfl⟩
  | controlled n w | repeated n w => cases hunitary.symm.trans hx.2.1
  | powered e w | inverted w => cases hunitary.symm.trans hx.1
  | gate | custom => cases hunitary
  | measure | reset | barrier | channel | expectation => exact Or.inr ⟨nofun, rfl⟩

/-- A gate has a matrix exactly if its innermost gate has entries. -/
theorem matrix_of_isUnitary (hx : x.Checked) (hconverges : x.Converges)
    (hunitary : x.isUnitary = true) :
    ((∃ m, x.matrix = .ok m) ∧ x.innermost.HasEntries) ∨
      ¬x.innermost.HasEntries ∧
        ((∃ g e, x.innermost = gate g ∧ .symbolic e ∈ g.parameters ∧
            x.matrix = .error (.unbound e.text)) ∨
          x.matrix = .error (.notUnitary x.innermost.name)) := by
  have hparts := hx.parts.innermost
  rw [exists_matrix_iff hconverges]
  simp only [matrix_eq_error_iff hconverges]
  rcases innermost_of_isUnitary hunitary with ⟨g, hg⟩ | ⟨g, hg⟩
  · rw [hg]
    refine g.matrix_outcome.imp_right (And.imp_right (Or.imp_left ?_))
    rintro ⟨e, he, hm⟩
    exact ⟨g, e, rfl, he, hm⟩
  · rw [hg] at hparts ⊢
    exact Or.inl ⟨CustomGate.Checked.exists_matrix hparts, trivial⟩

theorem matrix_exists_iff (hx : x.Checked) (hconverges : x.Converges) :
    (∃ m, x.matrix = .ok m) ↔
      (∃ o, x = observable o) ∨ x.isUnitary = true ∧ x.innermost.HasEntries := by
  cases hunitary : x.isUnitary with
  | true =>
      have hgate : ∀ o, x ≠ observable o := by
        rintro o rfl
        cases hunitary
      rcases matrix_of_isUnitary hx hconverges hunitary with ⟨hm, hentries⟩ | ⟨hnone, hfails⟩
      · exact iff_of_true hm (Or.inr ⟨rfl, hentries⟩)
      · refine iff_of_false (fun ⟨m, hm⟩ => ?_) ?_
        · rcases hfails with ⟨g, e, -, -, herror⟩ | herror
          · cases hm.symm.trans herror
          · cases hm.symm.trans herror
        · rintro (⟨o, ho⟩ | ⟨-, hentries⟩)
          · exact hgate o ho
          · exact hnone hentries
  | false =>
      rcases matrix_of_not_isUnitary hx.modifiesGates hunitary with ⟨o, ho, hm⟩ | ⟨hnone, herror⟩
      · exact iff_of_true ⟨_, hm⟩ (Or.inl ⟨o, ho⟩)
      · refine iff_of_false (fun ⟨m, hm⟩ => ?_) ?_
        · cases hm.symm.trans herror
        · rintro (⟨o, ho⟩ | ⟨hgate, -⟩)
          · exact hnone o ho
          · cases hgate

/-- Without a matrix, an expression is left in the innermost gate or something is not
unitary. -/
theorem matrix_error (hx : x.Checked) (hconverges : x.Converges) (h : x.matrix = .error error) :
    (∃ g e, x.innermost = gate g ∧ .symbolic e ∈ g.parameters ∧ error = .unbound e.text) ∨
      error = .notUnitary x.innermost.name := by
  cases hunitary : x.isUnitary with
  | true =>
      rcases matrix_of_isUnitary hx hconverges hunitary with
        ⟨⟨m, hm⟩, -⟩ | ⟨-, ⟨g, e, hg, he, herror⟩ | herror⟩
      · cases hm.symm.trans h
      · exact Or.inl ⟨g, e, hg, he, Except.error.inj (h.symm.trans herror)⟩
      · exact Or.inr (Except.error.inj (h.symm.trans herror))
  | false =>
      rcases matrix_of_not_isUnitary hx.modifiesGates hunitary with ⟨o, -, hm⟩ | ⟨-, herror⟩
      · cases hm.symm.trans h
      · rw [hx.modifiesGates.innermost_eq hunitary]
        exact Or.inr (Except.error.inj (h.symm.trans herror))

theorem sides_matrix (hx : x.Checked) {m : FloatMatrix} (h : x.matrix = .ok m) :
    m.rows = dimension x.numQubits ∧ m.cols = dimension x.numQubits := by
  cases hunitary : x.isUnitary with
  | true =>
      have hrows := rows_matrixOver LeafMatrices.sized_double hunitary h
      exact ⟨hrows, (isSquare_matrix hunitary h).symm.trans hrows⟩
  | false =>
      rcases matrix_of_not_isUnitary hx.modifiesGates hunitary with ⟨o, rfl, hm⟩ | ⟨-, herror⟩
      · obtain rfl := Except.ok.inj (h.symm.trans hm)
        exact o.sides_matrix
      · cases h.symm.trans herror

end Operation

end GateAlgebra
