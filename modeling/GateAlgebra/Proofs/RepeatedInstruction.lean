import GateAlgebra.Proofs.Pass
import GateAlgebra.Proofs.PlainPower
import GateAlgebra.Proofs.Window
/-!
Whole powers and repetitions.  An instruction made `n` times in a row multiplies the state by
the plain power of its matrix, which is the matrix that repeated squaring gives to the `n`-th
power of the operation, and lowering makes the same instruction `n` times instead of the power.
-/

namespace GateAlgebra

/-- Whole powers of matrices are made by repeated squaring, as those in doubles are. -/
def LeafMatrices.SquaresPowers {R : Type} [Zero R] [One R] [Add R] [Mul R]
    (leaves : LeafMatrices R) : Prop :=
  ∀ m e n, e.natural? = some n → leaves.power m e = .ok (m.integerPower (· * ·) n)

theorem LeafMatrices.squaresPowers_gaussian : LeafMatrices.gaussian.SquaresPowers := by
  intro m e n hn
  simp only [gaussian, hn]

theorem Exponent.natural?_ofNat {n : Nat} (h : n ≤ maxRepetitions) :
    (ofNat n).natural? = some n := by
  simp [ofNat, natural?, h]

section Unitary

variable {R : Type} [CommRing R] [StarRing R] {leaves : LeafMatrices R} {k n : Nat}
  {w : Operation} {m state : DenseMatrix R}

namespace Circuit

/-- Every repetition is one more factor. -/
theorem foldlM_replicate {inst : Instruction} (h : inst.ActsBy leaves k m)
    (hstate : state.rows = dimension k) (n : Nat) :
    (List.replicate n inst).foldlM (applyInstruction leaves k) state =
      .ok (state.applyGate (m.plainPower n) inst.qubits k) := by
  have hrows : m.rows = dimension inst.qubits.length := h.square.trans h.cols
  induction n with
  | zero => rw [DenseMatrix.plainPower, hrows, DenseMatrix.applyGate_identity]; rfl
  | succ n ih =>
      have hplaced : (state.applyGate (m.plainPower n) inst.qubits k).rows = dimension k := hstate
      have hfactor : m * m.plainPower n = m.plainPower (n + 1) := by
        rw [Nat.add_comm, h.square.plainPower_add, DenseMatrix.plainPower_one]
      rw [List.replicate_succ', List.foldlM_append, ih]
      change [inst].foldlM (applyInstruction leaves k) _ = _
      rw [List.foldlM_cons, applyInstruction_of_actsBy h hplaced,
        DenseMatrix.applyGate_applyGate h.below hstate h.square h.cols, hfactor]
      rfl

theorem unitaryOver_replicate {inst : Instruction} (h : inst.ActsBy leaves k m) (name : String)
    (n : Nat) : (⟨name, List.replicate n inst⟩ : Circuit).unitaryOver leaves k =
      .ok ((DenseMatrix.identity (dimension k)).applyGate (m.plainPower n) inst.qubits k) :=
  foldlM_replicate h rfl n

end Circuit

/-- The matrix of a whole power. -/
theorem Operation.matrixOver_powered_of_natural? {e : Exponent} (hsized : leaves.Sized)
    (hsquares : leaves.SquaresPowers) (hunitary : w.isUnitary = true)
    (hm : w.matrixOver leaves = .ok m) (hn : e.natural? = some n) :
    (powered e w).matrixOver leaves = .ok (m.plainPower n) := by
  have hsquare := isSquare_of_matrixOver hsized.toSquare hunitary hm
  rw [matrixOver, hm, ← hsquare.integerPower_eq]
  exact hsquares m e n hn

end Unitary

section Lowering

variable {w : Operation} {e : Exponent} {n : Nat} {qubits ancillae : List Nat}

theorem Emission.sequence_replicate (n : Nat) (emission : Emission) :
    sequence (List.replicate n emission) = emission.times n := by
  induction n with
  | zero => rfl
  | succ n ih => rw [List.replicate_succ, sequence_cons, ih, times_succ]

/-- Lowering of a whole power is lowering of as many instructions, as long as it comes to an
end with one of them. -/
theorem Operation.lower_powered_of_natural? (hvalid : (w.on qubits).Valid)
    (hn : e.natural? = some n) (hfinished : ((w.on qubits).lower ancillae).Finished) :
    ((powered e w).on qubits).lower ancillae =
      .sequence ((List.replicate n (w.on qubits)).map (·.lower ancillae)) := by
  have hfree : ((powered e w).on qubits).free ancillae = (w.on qubits).free ancillae := rfl
  rw [List.map_replicate, Emission.sequence_replicate]
  rw [Instruction.lower_eq] at hfinished
  rw [Instruction.lower_eq, Instruction.lower_eq, hfree]
  have hpositive := w.rank_pos
  obtain ⟨depth, hdepth⟩ : ∃ depth, (powered e w).rank = depth + 1 :=
    Nat.exists_eq_succ_of_ne_zero (by simp only [rank]; omega)
  have hle : w.rank ≤ depth := by simp only [rank] at hdepth; omega
  rw [Operation.operation_on, hdepth, lowerWithin]
  simp only [lowerStep, Operation.operation_on, Operation.qubits_on, lowerPowered_eq, hn,
    lowerOn_eq hvalid]
  cases n with
  | zero => rfl
  | succ n => exact congrArg (·.times (n + 1)) (lowerWithin_of_le hle hfinished)

end Lowering

/-- Repeated squaring gives the product of as many equal factors as the exponent says, over
every arithmetic in which products are associative and distribute over sums.  So the matrix of
a whole power of a gate is the unitary of as many instructions of the gate on the same targets,
and these are what lowering hands out for the power, where it comes to an end with one of
them. -/
theorem whole_power_is_repetition :
    (∀ (R : Type) [Semiring R] (u : DenseMatrix R), u.IsSquare →
      ∀ n, u.integerPower (· * ·) n = u.plainPower n) ∧
    (∀ n ≤ Exponent.maxRepetitions, (Exponent.ofNat n).natural? = some n) ∧
    ∀ (w : Operation) (e : Exponent) (n : Nat), w.isUnitary = true → e.natural? = some n →
      (∀ (R : Type) [CommRing R] [StarRing R] (leaves : LeafMatrices R), leaves.Sized →
        leaves.SquaresPowers → ∀ m, w.matrixOver leaves = .ok m →
        (Operation.powered e w).matrixOver leaves = .ok (m.plainPower n) ∧
        (⟨"", List.replicate n (w.on (List.range w.numQubits))⟩ : Circuit).unitaryOver leaves
          w.numQubits = (Operation.powered e w).matrixOver leaves ∧
        ∀ k qubits, TargetsBelow k qubits → qubits.length = w.numQubits →
          (⟨"", List.replicate n (w.on qubits)⟩ : Circuit).unitaryOver leaves k =
              .ok ((DenseMatrix.identity (dimension k)).applyGate (m.plainPower n) qubits k) ∧
          (⟨"", [(Operation.powered e w).on qubits]⟩ : Circuit).unitaryOver leaves k =
            (⟨"", List.replicate n (w.on qubits)⟩ : Circuit).unitaryOver leaves k) ∧
      ∀ qubits ancillae, qubits.Nodup → qubits.length = w.numQubits →
        ((w.on qubits).lower ancillae).Finished →
        ((Operation.powered e w).on qubits).lower ancillae =
          .sequence ((List.replicate n (w.on qubits)).map (·.lower ancillae)) := by
  refine ⟨fun R _ u hu => hu.integerPower_eq, fun n => Exponent.natural?_ofNat,
    fun w e n hunitary hn => ⟨?_, fun qubits ancillae hnodup hlength => ?_⟩⟩
  · intro R _ _ leaves hsized hsquares m hm
    have hpower := Operation.matrixOver_powered_of_natural? hsized hsquares hunitary hm hn
    have hrepeats : ∀ {k qubits}, TargetsBelow k qubits → qubits.length = w.numQubits →
        (⟨"", List.replicate n (w.on qubits)⟩ : Circuit).unitaryOver leaves k =
          .ok ((DenseMatrix.identity (dimension k)).applyGate (m.plainPower n) qubits k) :=
      fun hbelow hlength => Circuit.unitaryOver_replicate
        (Operation.actsBy_on hsized hunitary hm hbelow hlength) "" n
    refine ⟨hpower, ?_, fun k qubits hbelow hlength => ⟨hrepeats hbelow hlength, ?_⟩⟩
    · have hall : TargetsBelow w.numQubits (List.range w.numQubits) :=
        ⟨List.nodup_range, fun q hq => List.mem_range.1 hq⟩
      have hsquare := Operation.isSquare_of_matrixOver hsized.toSquare hunitary hm
      have hcols := (hsquare.cols_plainPower n).trans
        (Operation.rows_matrixOver hsized hunitary hm)
      rw [hrepeats hall List.length_range, hpower,
        DenseMatrix.applyGate_range (hsquare.plainPower n) hcols]
    · have hone := Circuit.unitaryOver_replicate
        (Operation.actsBy_on (w := .powered e w) hsized hunitary hpower hbelow hlength) "" 1
      rw [DenseMatrix.plainPower_one] at hone
      exact hone.trans (hrepeats hbelow hlength).symm
  · exact Operation.lower_powered_of_natural?
      (Instruction.valid_of_isUnitary hunitary hlength hnodup) hn

/-- The fifth power of a controlled phase is five of them, here with the control last. -/
theorem whole_power_is_repetition_controlled_s :
    (DenseMatrix.ofRows [[1, 0], [0, (⟨0, 1⟩ : GaussianInt)]]).integerPower (· * ·) 5 =
      (DenseMatrix.ofRows [[1, 0], [0, ⟨0, 1⟩]]).plainPower 5 ∧
    (∃ u, (Operation.powered (.ofNat 5) (.controlled 1 (.gate .s))).matrixOver .gaussian = .ok u ∧
      (⟨"", List.replicate 5 ((Operation.controlled 1 (.gate .s)).on [0, 1])⟩ :
        Circuit).unitaryOver .gaussian 2 = .ok u) ∧
    (⟨"", [(Operation.powered (.ofNat 5) (.controlled 1 (.gate .s))).on [2, 0]]⟩ :
        Circuit).unitaryOver .gaussian 3 =
      (⟨"", List.replicate 5 ((Operation.controlled 1 (.gate .s)).on [2, 0])⟩ :
        Circuit).unitaryOver .gaussian 3 ∧
    ((Operation.powered (.ofNat 5) (.controlled 1 (.gate .s))).on [2, 0]).lower [1] =
      .done (List.replicate 5 ((Operation.controlled 1 (.gate .s)).on [2, 0])) := by
  obtain ⟨hsquares, hnatural, hrepeats⟩ := whole_power_is_repetition
  obtain ⟨hunitary, hlower⟩ := hrepeats (.controlled 1 (.gate .s)) (.ofNat 5) 5 rfl
    (hnatural 5 (by decide))
  obtain ⟨hpower, hall, hplaced⟩ := hunitary GaussianInt .gaussian LeafMatrices.sized_gaussian
    LeafMatrices.squaresPowers_gaussian _ rfl
  refine ⟨hsquares GaussianInt _ ?_ 5, ⟨_, hpower, hall.trans hpower⟩,
    (hplaced 3 [2, 0] ⟨by decide, by decide⟩ rfl).2,
    hlower [2, 0] [1] (by decide) rfl Emission.finished_done⟩
  rfl

end GateAlgebra
