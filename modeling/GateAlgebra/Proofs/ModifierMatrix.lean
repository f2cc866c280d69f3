import Mathlib.NumberTheory.Zsqrtd.GaussianInt
import Mathlib.RingTheory.RootsOfUnity.Complex
import GateAlgebra.DenseMatrix.Operation
import GateAlgebra.Proofs.DenseMatrix
import GateAlgebra.Proofs.Schur
import GateAlgebra.Proofs.Simplified
/-!
The matrices of modified operations.  Where a modifier merges with another one, cancels it or
moves inside, the matrix is the one that a plain modifier would give.  The matrices of gates
are square, those in doubles too.
-/

namespace GateAlgebra

/-- The matrices of gates are square, and so are the powers of square matrices. -/
structure LeafMatrices.Square {R : Type} (leaves : LeafMatrices R) : Prop where
  gate : ∀ g m, leaves.gate g = .ok m → m.IsSquare
  custom : ∀ g m, leaves.custom g = .ok m → m.IsSquare
  power : ∀ m e p, m.IsSquare → leaves.power m e = .ok p → p.IsSquare

namespace Operation

section Nodes

variable {α : Type} [Zero α] [One α] [Add α] [Mul α] [Conj α]
variable (leaves : LeafMatrices α) (n : Nat) (w : Operation)

theorem matrixOver_controlled :
    (controlled n w).matrixOver leaves = DenseMatrix.control n <$> w.matrixOver leaves := by
  rw [matrixOver]
  cases w.matrixOver leaves <;> rfl

theorem matrixOver_repeated :
    (repeated n w).matrixOver leaves = (·.tensorPower n) <$> w.matrixOver leaves := by
  rw [matrixOver]
  cases w.matrixOver leaves <;> rfl

theorem matrixOver_inverted :
    (inverted w).matrixOver leaves = DenseMatrix.adjoint <$> w.matrixOver leaves := by
  rw [matrixOver]
  cases w.matrixOver leaves <;> rfl

variable {leaves}

/-- What the matrices of leaves have, and every modifier keeps, the matrix of a gate has. -/
theorem matrixOver_induction {P : Operation → DenseMatrix α → Prop}
    (hgate : ∀ g m, leaves.gate g = .ok m → P (gate g) m)
    (hcustom : ∀ g m, leaves.custom g = .ok m → P (custom g) m)
    (hcontrolled : ∀ n w m, P w m → P (controlled n w) (m.control n))
    (hpowered : ∀ e w m p, P w m → leaves.power m e = .ok p → P (powered e w) p)
    (hinverted : ∀ w m, P w m → P (inverted w) m.adjoint)
    (hrepeated : ∀ n w m, P w m → P (repeated n w) (m.tensorPower n))
    {x : Operation} (hunitary : x.isUnitary = true) {m : DenseMatrix α}
    (h : x.matrixOver leaves = .ok m) : P x m := by
  induction x generalizing m with
  | gate g => exact hgate g m h
  | custom g => exact hcustom g m h
  | controlled n w ih =>
      rw [matrixOver_controlled] at h
      obtain ⟨inner, hw, rfl⟩ := map_eq_ok_iff.1 h
      exact hcontrolled n w inner (ih hunitary hw)
  | powered e w ih =>
      rw [matrixOver] at h
      obtain ⟨inner, hw, hpower⟩ := bind_eq_ok_iff.1 h
      exact hpowered e w inner m (ih hunitary hw) hpower
  | inverted w ih =>
      rw [matrixOver_inverted] at h
      obtain ⟨inner, hw, rfl⟩ := map_eq_ok_iff.1 h
      exact hinverted w inner (ih hunitary hw)
  | repeated n w ih =>
      rw [matrixOver_repeated] at h
      obtain ⟨inner, hw, rfl⟩ := map_eq_ok_iff.1 h
      exact hrepeated n w inner (ih hunitary hw)
  | measure | reset | barrier | channel | observable | expectation => cases hunitary

/-- The matrix of a gate is square, whatever modifies it. -/
theorem isSquare_of_matrixOver (hsquare : leaves.Square) {x : Operation}
    (hunitary : x.isUnitary = true) {m : DenseMatrix α} (h : x.matrixOver leaves = .ok m) :
    m.IsSquare :=
  matrixOver_induction (P := fun _ m => m.IsSquare) hsquare.gate hsquare.custom
    (fun _ _ _ _ => DenseMatrix.isSquare_control)
    (fun e _ m p hm hp => hsquare.power m e p hm hp)
    (fun _ _ hm => hm.adjoint) (fun n _ _ hm => hm.tensorPower n) hunitary h

end Nodes

variable {R : Type} [CommRing R] [StarRing R] {leaves : LeafMatrices R}

section Simplification

variable (x : Operation)

theorem matrixOver_addControls (n : Nat) :
    (x.addControls n).matrixOver leaves = DenseMatrix.control n <$> x.matrixOver leaves := by
  cases x with
  | controlled k w =>
      rw [addControls, matrixOver_controlled, matrixOver_controlled]
      cases w.matrixOver leaves with
      | error e => rfl
      | ok m => exact congrArg Except.ok (m.control_control k n).symm
  | _ => exact matrixOver_controlled leaves n _

theorem matrixOver_addRepeats (n : Nat) :
    (x.addRepeats n).matrixOver leaves = (·.tensorPower n) <$> x.matrixOver leaves := by
  cases x with
  | repeated k w =>
      rw [addRepeats, matrixOver_repeated, matrixOver_repeated]
      cases w.matrixOver leaves with
      | error e => rfl
      | ok m => exact congrArg Except.ok (m.tensorPower_tensorPower k n).symm
  | _ => exact matrixOver_repeated leaves n _

/-- Only the move inside controls asks for square matrices. -/
theorem matrixOver_invert (hsquare : leaves.Square) (hunitary : x.isUnitary = true) :
    x.invert.matrixOver leaves = DenseMatrix.adjoint <$> x.matrixOver leaves := by
  induction x with
  | inverted w ih =>
      rw [invert, matrixOver_inverted]
      cases w.matrixOver leaves with
      | error e => rfl
      | ok m => exact congrArg Except.ok m.adjoint_adjoint.symm
  | controlled n w ih =>
      rw [invert, matrixOver_controlled, matrixOver_controlled, ih hunitary]
      cases hw : w.matrixOver leaves with
      | error e => rfl
      | ok m =>
          have hw' : w.isUnitary = true := hunitary
          have hm := isSquare_of_matrixOver hsquare hw' hw
          exact congrArg Except.ok (hm.adjoint_control n).symm
  | repeated n w ih =>
      rw [invert, matrixOver_repeated, matrixOver_repeated, ih hunitary]
      cases w.matrixOver leaves with
      | error e => rfl
      | ok m => exact congrArg Except.ok (m.adjoint_tensorPower n).symm
  | _ => exact matrixOver_inverted leaves _

end Simplification

end Operation

section Double

/-- A row and a column for every basis state. -/
theorem sides_gateMatrix {ρ α ε : Type} [Zero ρ] [One ρ] [Neg ρ] [Add ρ] [Zero α] [One α]
    [Neg α] {trig : Trigonometry ρ α} {read : Scalar → Except ε ρ} {g : Gate}
    {m : DenseMatrix α} (h : trig.gateMatrix read g = .ok m) :
    m.rows = dimension g.numQubits ∧ m.cols = dimension g.numQubits := by
  cases g with
  | rx angle | ry angle | rz angle | p angle | rxx angle | ryy angle | rzz angle =>
      obtain ⟨value, -, hm⟩ := bind_eq_ok_iff.1 h
      obtain rfl := Except.ok.inj hm
      exact ⟨rfl, rfl⟩
  | u theta phi lambda =>
      obtain ⟨_, -, h⟩ := bind_eq_ok_iff.1 h
      obtain ⟨_, -, h⟩ := bind_eq_ok_iff.1 h
      obtain ⟨_, -, hm⟩ := bind_eq_ok_iff.1 h
      obtain rfl := Except.ok.inj hm
      exact ⟨rfl, rfl⟩
  | _ =>
      obtain rfl := Except.ok.inj h
      exact ⟨rfl, rfl⟩

theorem CustomGate.sides_matrix {g : CustomGate} {m : FloatMatrix} (h : g.matrix = .ok m) :
    m.rows = dimension g.numQubits ∧ m.cols = dimension g.numQubits := by
  unfold CustomGate.matrix at h
  dsimp only at h
  split at h
  · obtain rfl := Except.ok.inj h
    exact ⟨rfl, rfl⟩
  · cases h

/-- The basis of the Schur decomposition stands on both sides of a power that is no whole
one. -/
theorem DenseMatrix.IsSquare.sides_power {m : FloatMatrix} (hm : m.IsSquare) {e : Exponent}
    {p : FloatMatrix} (h : m.power e = .ok p) : p.rows = m.rows ∧ p.cols = m.rows := by
  unfold DenseMatrix.power at h
  split at h
  · obtain rfl := Except.ok.inj h
    have hshape : ∀ a b : FloatMatrix,
        (product a b).rows = a.rows ∧ (product a b).cols = b.cols := fun _ _ => ⟨rfl, rfl⟩
    exact hm.sides_integerPower hshape _
  · unfold fractionalPower at h
    split at h
    · obtain rfl := Except.ok.inj h
      exact ⟨rfl, rfl⟩
    · split at h
      · cases h
      · rename_i state hschur
        obtain rfl := Except.ok.inj h
        have hbasis : state.basis.rows = m.leadingSquare.rows := rows_basis_schur hschur
        exact ⟨hbasis, hbasis⟩

/-- The matrices that the program computes in doubles. -/
theorem LeafMatrices.square_double : LeafMatrices.double.Square where
  gate _ _ h := (sides_gateMatrix h).1.trans (sides_gateMatrix h).2.symm
  custom _ _ h := (CustomGate.sides_matrix h).1.trans (CustomGate.sides_matrix h).2.symm
  power _ _ _ hm h := (hm.sides_power h).1.trans (hm.sides_power h).2.symm

theorem Operation.isSquare_matrix {x : Operation} (hunitary : x.isUnitary = true)
    {m : FloatMatrix} (h : x.matrix = .ok m) : m.IsSquare :=
  isSquare_of_matrixOver LeafMatrices.square_double hunitary h

end Double

/-- Controls, copies and inverses of a gate have the control block, the tensor power and the
adjoint of its matrix, over any commutative ring with an involution and for any matrices of
leaves.  If the gate has no matrix, they fail as it does.  Controls and copies that do not fit in
64 bits are refused by stopping the program, unless the bits that do not fit are lost. -/
theorem modifiers_keep_matrices {R : Type} [CommRing R] [StarRing R] (counting : Counting)
    (leaves : LeafMatrices R) (x : Operation) (hunitary : x.isUnitary = true) :
    (∀ n, 0 < n → counting = .exact ∨ (x.addControls n).CountFits →
      ∃ y, x.controlIn counting n = pure y ∧
        y.matrixOver leaves = DenseMatrix.control n <$> x.matrixOver leaves) ∧
    (∀ n, 0 < n → counting = .exact ∨ (x.addRepeats n).CountFits →
      ∃ y, x.parallelIn counting n = pure y ∧
        y.matrixOver leaves = (·.tensorPower n) <$> x.matrixOver leaves) ∧
    (counting ≠ .wraps → ∀ n y,
      (x.controlIn counting n = pure y →
        y.matrixOver leaves = DenseMatrix.control n <$> x.matrixOver leaves) ∧
      (x.parallelIn counting n = pure y →
        y.matrixOver leaves = (·.tensorPower n) <$> x.matrixOver leaves)) ∧
    (leaves.Square → ∃ y, x.inverse = .ok y ∧
      y.matrixOver leaves = DenseMatrix.adjoint <$> x.matrixOver leaves) := by
  refine ⟨fun n hn hfits => ?_, fun n hn hfits => ?_,
    fun hcounting n y => ⟨fun h => ?_, fun h => ?_⟩, fun hsquare => ?_⟩
  · have hcounted := Operation.recounted_of_exact_or_countFits hfits
    exact ⟨_, Operation.modifyIn_eq_pure_iff.2 ⟨hn, hunitary, hcounted⟩,
      x.matrixOver_addControls n⟩
  · have hcounted := Operation.recounted_of_exact_or_countFits hfits
    exact ⟨_, Operation.modifyIn_eq_pure_iff.2 ⟨hn, hunitary, hcounted⟩,
      x.matrixOver_addRepeats n⟩
  · have hcontrol := Operation.control_of_controlIn hcounting h
    obtain ⟨-, -, rfl⟩ := Operation.control_eq_ok_iff.1 hcontrol
    exact x.matrixOver_addControls n
  · have hparallel := Operation.parallel_of_parallelIn hcounting h
    obtain ⟨-, -, rfl⟩ := Operation.parallel_eq_ok_iff.1 hparallel
    exact x.matrixOver_addRepeats n
  · exact ⟨_, Operation.inverse_eq_ok hunitary, x.matrixOver_invert hsquare hunitary⟩

/-- Pauli gates and the phase gate over the Gaussian integers, with whole powers. -/
def LeafMatrices.gaussian : LeafMatrices GaussianInt where
  gate
    | .x => .ok (.ofRows [[0, 1], [1, 0]])
    | .y => .ok (.ofRows [[0, ⟨0, -1⟩], [⟨0, 1⟩, 0]])
    | .z => .ok (.ofRows [[1, 0], [0, -1]])
    | .s => .ok (.ofRows [[1, 0], [0, ⟨0, 1⟩]])
    | g => .error (.notUnitary g.name)
  custom g := .error (.notUnitary g.name)
  observable o := .identity (dimension o.numQubits)
  power m e :=
    match e.natural? with
    | some n => .ok (m.integerPower (· * ·) n)
    | none => .error (.noConvergence m.rows)

/-- Only whole powers have a matrix. -/
theorem LeafMatrices.gaussian_power {m p : DenseMatrix GaussianInt} {e : Exponent}
    (h : LeafMatrices.gaussian.power m e = .ok p) : ∃ n, p = m.integerPower (· * ·) n := by
  unfold LeafMatrices.gaussian at h
  dsimp only at h
  split at h
  · rename_i n hn
    exact ⟨n, (Except.ok.inj h).symm⟩
  · cases h

theorem LeafMatrices.square_gaussian : LeafMatrices.gaussian.Square where
  gate g m h := by
    cases g with
    | x | y | z | s =>
        obtain rfl := Except.ok.inj h
        rfl
    | _ => cases h
  custom g m h := by cases h
  power m e p hm h := by
    obtain ⟨n, rfl⟩ := gaussian_power h
    exact hm.integerPower DenseMatrix.shape_mul n

/-- The inverse phase gate under a control, with further controls, repeated and inverted. -/
theorem modifiers_keep_matrices_sdg :
    (Operation.controlled 3 .sdg).matrixOver .gaussian =
        DenseMatrix.control 2 <$> (Operation.controlled 1 .sdg).matrixOver .gaussian ∧
      (Operation.repeated 2 (.controlled 1 .sdg)).matrixOver .gaussian =
        (·.tensorPower 2) <$> (Operation.controlled 1 .sdg).matrixOver .gaussian ∧
      (Operation.controlled 1 (.gate .s)).matrixOver .gaussian =
        DenseMatrix.adjoint <$> (Operation.controlled 1 .sdg).matrixOver .gaussian := by
  obtain ⟨hcontrol, hparallel, -, hinverse⟩ :=
    modifiers_keep_matrices .stops .gaussian (.controlled 1 .sdg) rfl
  obtain ⟨x, hx, hcontrolled⟩ := hcontrol 2 Nat.two_pos (Or.inr (by decide : 3 ≤ maxIndex))
  obtain ⟨y, hy, hrepeated⟩ := hparallel 2 Nat.two_pos (Or.inr (by decide : 2 ≤ maxIndex))
  obtain ⟨z, hz, hinverted⟩ := hinverse LeafMatrices.square_gaussian
  obtain rfl := Except.ok.inj (Option.some.inj hx)
  obtain rfl := Except.ok.inj (Option.some.inj hy)
  obtain rfl := Except.ok.inj hz
  exact ⟨hcontrolled, hrepeated, hinverted⟩

section LostBits

open DenseMatrix

variable {R : Type} [CommRing R]

theorem entry_diagonal_one (z : R) : (diagonal 1 fun _ => z).entry 0 0 = z :=
  (entry_diagonal _ Nat.one_pos Nat.one_pos).trans (if_pos rfl)

/-- Copies of a matrix with one entry. -/
theorem tensorPower_diagonal_one (z : R) (n : Nat) :
    (diagonal 1 fun _ => z).tensorPower n = diagonal 1 fun _ => z ^ n := by
  induction n with
  | zero => exact congrArg (fun one => diagonal 1 fun _ => one) (pow_zero z).symm
  | succ n ih =>
      rw [tensorPower_succ, ih]
      refine ext_entry rfl rfl fun i j hi hj => ?_
      rw [entry_tensor _ _ hi hj]
      obtain rfl := Nat.lt_one_iff.1 hi
      obtain rfl := Nat.lt_one_iff.1 hj
      rw [Nat.zero_div, Nat.zero_div, Nat.zero_mod, Nat.zero_mod, entry_diagonal_one,
        entry_diagonal_one, entry_diagonal_one, pow_succ]

/-- A third of a turn of the phase, on no qubits. -/
def thirdOfTurn : CustomGate :=
  { name := "third", numQubits := 0, params := [], entries := #[⟨-0.5, 0.8660254037844386⟩] }

/-- Every custom gate is a third of a turn of the phase. -/
noncomputable def LeafMatrices.thirds : LeafMatrices ℂ where
  gate g := .error (.notUnitary g.name)
  custom _ := .ok (diagonal 1 fun _ => Complex.exp (2 * Real.pi * Complex.I / 3))
  observable o := .identity (dimension o.numQubits)
  power m _ := .error (.noConvergence m.rows)

/-- Copies of copies of a third of a turn, as many as leave no count where bits are lost, are
another third of a turn, and no copies turn nothing. -/
theorem lost_copies_change_the_matrix :
    ((Operation.custom thirdOfTurn).parallelIn .wraps (2 ^ 32) >>=
        (·.parallelIn .wraps (2 ^ 32))) = pure (.repeated 0 (.custom thirdOfTurn)) ∧
      (Operation.repeated 0 (.custom thirdOfTurn)).matrixOver .thirds ≠
        (·.tensorPower (2 ^ 32)) <$>
          (Operation.repeated (2 ^ 32) (.custom thirdOfTurn)).matrixOver .thirds := by
  refine ⟨rfl, fun h => ?_⟩
  have hthird := Complex.isPrimitiveRoot_exp 3 (by decide)
  rw [Operation.matrixOver_repeated, Operation.matrixOver_repeated] at h
  have hpower := congrArg (entry · 0 0) (Except.ok.inj h)
  simp only [tensorPower_diagonal_one, entry_diagonal_one, ← pow_mul, pow_zero] at hpower
  -- The number of copies is a power of two, and three does not divide it.
  exact absurd ((hthird.pow_eq_one_iff_dvd _).1 hpower.symm) (by decide)

end LostBits

end GateAlgebra
