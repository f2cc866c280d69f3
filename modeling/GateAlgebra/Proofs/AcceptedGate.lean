import GateAlgebra.Proofs.FiniteDocument
import GateAlgebra.Proofs.MatrixOutcome
import GateAlgebra.Proofs.Orthonormal
/-!
Custom gates that are accepted.  They fill their side, so they have a matrix.  They are unitary
within the tolerance exactly if no entry is NaN: the check refuses a matrix for a distance above
the tolerance, and a NaN is not above it.  Documents without NaN make no such gates.
-/

namespace GateAlgebra

/-- Neither part is NaN. -/
def ComplexFloat.IsNumber (z : ComplexFloat) : Prop :=
  z.re.isNaN = false ∧ z.im.isNaN = false

theorem isNaN_eq_false_iff {x : Float} :
    x.isNaN = false ↔ x.toModel.unpack ≠ .notANumber := by
  change x.toModel.unpack.isNaN = false ↔ _
  cases x.toModel.unpack with
  | notANumber => exact iff_of_false Bool.noConfusion fun h => h rfl
  | infinity | zero | finite =>
      exact iff_of_true rfl Float.Model.UnpackedFloat.noConfusion

theorem ComplexFloat.isNumber_iff {z : ComplexFloat} :
    z.IsNumber ↔ z.re.toModel.unpack ≠ .notANumber ∧ z.im.toModel.unpack ≠ .notANumber :=
  and_congr isNaN_eq_false_iff isNaN_eq_false_iff

namespace CustomGate

/-- The gate comes from the constructor, with any parameters for display, or from a document. -/
def Accepted (g : CustomGate) : Prop :=
  (∃ name n entries params g₀, ofEntries name n entries = .ok g₀ ∧ g = g₀.withParams params) ∨
    ∃ d, decode d = .ok g

/-- How far the overlap of two rows is from what it is for a unitary matrix. -/
def rowDistance (g : CustomGate) (i j : Nat) : Float :=
  (rowOverlap g.entries (dimension g.numQubits) i j - if i = j then 1 else 0).norm

/-- All distances compare as at most the tolerance. -/
def IsUnitary (g : CustomGate) : Prop :=
  ∀ i < dimension g.numQubits, ∀ j < dimension g.numQubits, g.rowDistance i j ≤ overlapTolerance

variable {g : CustomGate}

theorem Accepted.checked (h : g.Accepted) : g.Checked := by
  rcases h with ⟨name, n, entries, params, g₀, hg, rfl⟩ | ⟨d, hd⟩
  · exact (checked_of_ofEntries hg).withParams params
  · exact checked_of_decode hd

/-- What is accepted is not above the tolerance. -/
theorem Checked.not_lt_rowDistance (h : g.Checked) {i j : Nat} (hi : i < dimension g.numQubits)
    (hj : j < dimension g.numQubits) : ¬overlapTolerance < g.rowDistance i j := by
  have hrows := (Bool.and_eq_true_iff.1 (checked_iff.1 h).2).2
  have hdiffers := List.all_eq_true.1 (List.all_eq_true.1 hrows i (List.mem_range.2 hi)) j
    (List.mem_range.2 hj)
  rw [Bool.not_eq_true'] at hdiffers
  exact of_decide_eq_false hdiffers

theorem entry_lt {dim i k : Nat} (hi : i < dim) (hk : k < dim) : i * dim + k < dim * dim := by
  calc i * dim + k < i * dim + dim := Nat.add_lt_add_left hk _
    _ = (i + 1) * dim := (Nat.succ_mul i dim).symm
    _ ≤ dim * dim := Nat.mul_le_mul_right dim hi

/-- The entry at a row and a column. -/
theorem Checked.mem_entries_iff (h : g.Checked) {z : ComplexFloat} :
    z ∈ g.entries ↔ ∃ i < dimension g.numQubits, ∃ k < dimension g.numQubits,
      g.entries.getD (i * dimension g.numQubits + k) 0 = z := by
  have hsize := h.size_entries
  have hread : ∀ {index} (hindex : index < g.entries.size),
      g.entries.getD index 0 = g.entries[index] := fun hindex => by
    rw [Array.getD_eq_getD_getElem?, Array.getElem?_eq_getElem hindex, Option.getD_some]
  constructor
  · intro hz
    obtain ⟨index, hindex, rfl⟩ := Array.getElem_of_mem hz
    refine ⟨index / dimension g.numQubits, Nat.div_lt_of_lt_mul (hsize ▸ hindex),
      index % dimension g.numQubits, Nat.mod_lt _ (dimension_pos _), ?_⟩
    rw [Nat.div_add_mod', hread hindex]
  · rintro ⟨i, hi, k, hk, rfl⟩
    have hindex : i * dimension g.numQubits + k < g.entries.size := hsize ▸ entry_lt hi hk
    rw [hread hindex]
    exact Array.getElem_mem hindex

theorem rowDistance_self (g : CustomGate) (i : Nat) :
    g.rowDistance i i = (rowOverlap g.entries (dimension g.numQubits) i i - 1).norm := by
  rw [rowDistance, if_pos rfl]

theorem IsUnitary.isNumber (hunitary : g.IsUnitary) (h : g.Checked) :
    ∀ z ∈ g.entries, z.IsNumber := by
  intro z hz
  obtain ⟨i, hi, k, hk, rfl⟩ := h.mem_entries_iff.1 hz
  have hclose := hunitary i hi i hi
  rw [rowDistance_self] at hclose
  rw [ComplexFloat.isNumber_iff]
  by_contra hnan
  exact not_close_of_nan (f := fun k => g.entries.getD (i * dimension g.numQubits + k) 0) hk
    ((not_and_or.1 hnan).imp not_not.1 not_not.1) hclose

/-- Without NaN, no part of an entry is above two. -/
theorem Checked.atMost_two (h : g.Checked) (hnumbers : ∀ z ∈ g.entries, z.IsNumber) {i k : Nat}
    (hi : i < dimension g.numQubits) (hk : k < dimension g.numQubits) :
    AtMost 2 (g.entries.getD (i * dimension g.numQubits + k) 0).re ∧
      AtMost 2 (g.entries.getD (i * dimension g.numQubits + k) 0).im := by
  have hclose := h.not_lt_rowDistance hi hi
  rw [rowDistance_self] at hclose
  exact atMost_two_of_close (f := fun k => g.entries.getD (i * dimension g.numQubits + k) 0)
    (fun k hk => ComplexFloat.isNumber_iff.1
      (hnumbers _ (h.mem_entries_iff.2 ⟨i, hi, k, hk, rfl⟩))) hclose hk

theorem Checked.isUnitary_iff (h : g.Checked) : g.IsUnitary ↔ ∀ z ∈ g.entries, z.IsNumber := by
  have hdim : dimension g.numQubits ≤ 2 ^ 31 :=
    Nat.pow_le_pow_right Nat.two_pos (checked_iff.1 h).1
  refine ⟨fun hunitary => hunitary.isNumber h, fun hnumbers i hi j hj => ?_⟩
  have hideal : AtMost 1 (if i = j then (1 : ComplexFloat) else 0).re ∧
      AtMost 1 (if i = j then (1 : ComplexFloat) else 0).im := by
    have hzero : AtMost 1 (0 : Float) := atMost_zero.mono zero_le_one
    split
    · exact ⟨isPower_one.atMost, hzero⟩
    · exact ⟨hzero, hzero⟩
  -- A distance that is no NaN is at most the tolerance if it is not above it.
  exact le_of_not_lt_double isFinite_overlapTolerance
    (distance_ne_nan (fun _ => h.atMost_two hnumbers hi) (fun _ => h.atMost_two hnumbers hj) hdim
      hideal) (h.not_lt_rowDistance hi hj)

/-- Documents that text can hold have no NaN, so the gates that are read from them are unitary. -/
theorem isUnitary_of_decode {d : Document} (hd : d.Finite) (h : decode d = .ok g) :
    g.IsUnitary := by
  refine (checked_of_decode h).isUnitary_iff.2 fun z hz => ?_
  obtain ⟨hre, him⟩ := (writable_of_decode hd h).entries z hz
  exact ComplexFloat.isNumber_iff.2
    ⟨(rounds_self hre).ne_nan, (rounds_self him).ne_nan⟩

/-- Accepted gates have few enough qubits, as many entries as these need, and so a matrix.  They
are unitary within the tolerance exactly if no entry is NaN. -/
theorem accepted_gates_are_unitary_iff (g : CustomGate) (h : g.Accepted) :
    g.numQubits ≤ 31 ∧ g.entries.size = 4 ^ g.numQubits ∧
      (∃ m, (Operation.custom g).matrix = .ok m) ∧
      (g.IsUnitary ↔ ∀ z ∈ g.entries, z.IsNumber) := by
  have hchecked := h.checked
  refine ⟨(checked_iff.1 hchecked).1, ?_, hchecked.exists_matrix, hchecked.isUnitary_iff⟩
  exact hchecked.size_entries.trans (Nat.mul_pow 2 2 g.numQubits).symm

/-- The exchange of two states. -/
theorem accepted_gates_are_unitary_iff_exchange :
    let g : CustomGate := ⟨"exchange", 1, [], #[0, 1, 1, 0]⟩
    g.Accepted ∧ g.entries.size = 4 ∧ g.IsUnitary := by
  intro g
  have haccepted : g.Accepted := by
    have hunitary : isUnitaryEntries #[0, 1, 1, 0] (dimension 1) = true := by decide +kernel
    have hchecked : g.Checked := checked_iff.2 ⟨(by decide : 1 ≤ 31), hunitary⟩
    exact Or.inl ⟨"exchange", 1, #[0, 1, 1, 0], [], g, hchecked, rfl⟩
  have hnumbers : ∀ z ∈ g.entries, z.IsNumber := by
    intro z hz
    have hcases : z = 0 ∨ z = 1 ∨ z = 1 ∨ z = 0 := by simpa [g] using hz
    rcases hcases with rfl | rfl | rfl | rfl <;> exact ⟨rfl, rfl⟩
  obtain ⟨-, hsize, -, hunitary⟩ := accepted_gates_are_unitary_iff g haccepted
  exact ⟨haccepted, hsize, hunitary.2 hnumbers⟩

/-- A gate without qubits whose only entry is NaN. -/
theorem nan_is_accepted :
    let g : CustomGate := ⟨"hole", 0, [], #[⟨0 / 0, 0⟩]⟩
    ofEntries "hole" 0 #[⟨0 / 0, 0⟩] = .ok g ∧ ¬g.rowDistance 0 0 ≤ overlapTolerance ∧
      ¬g.IsUnitary := by
  intro g
  have hunitary : isUnitaryEntries g.entries (dimension 0) = true := by decide
  have hfar : ¬g.rowDistance 0 0 ≤ overlapTolerance := by decide
  have hchecked : g.Checked := checked_iff.2 ⟨Nat.zero_le _, hunitary⟩
  exact ⟨hchecked, hfar, fun h => hfar (h 0 (dimension_pos 0) 0 (dimension_pos 0))⟩

end CustomGate

end GateAlgebra
