import GateAlgebra.Circuit.Standard
import GateAlgebra.Proofs.Broadcast
import GateAlgebra.Proofs.Eigenvalues
import GateAlgebra.Proofs.Window
/-!
Amplitudes of circuits.  A circuit is grown by one gate at a time, and each gate combines the
amplitudes of the indices that differ in its targets alone; a gate whose matrix has one entry in
every row moves amplitudes and multiplies them.
-/

namespace GateAlgebra

open Finset

section Targets

variable {n p q value index : Nat}

/-- The index with the bits of two qubits exchanged. -/
def exchangeBits (n p q index : Nat) : Nat :=
  setQubitBit n q (setQubitBit n p index (qubitBit n q index)) (qubitBit n p index)

theorem readTargets_singleton : readTargets n [q] index = qubitBit n q index := by
  simp [readTargets]

theorem readTargets_pair :
    readTargets n [p, q] index = 2 * qubitBit n p index + qubitBit n q index := by
  simp [readTargets]

theorem writeTargets_singleton :
    writeTargets n [q] value index = setQubitBit n q index (value % 2) := by
  simp [writeTargets, dimension_zero]

theorem writeTargets_pair : writeTargets n [p, q] value index =
    setQubitBit n q (setQubitBit n p index (value / 2 % 2)) (value % 2) := by
  simp [writeTargets, dimension_zero, dimension_succ]

end Targets

section Entries

/-- The square root of one half. -/
noncomputable def rootHalf : ℂ :=
  ((√(2 : Nat))⁻¹ : ℝ)

variable {r j : Nat}

/-- Signs where both bits are set. -/
theorem entry_hadamard (root : ℂ) (hr : r < 2) (hj : j < 2) :
    (DenseMatrix.ofRows [[root, root], [root, -root]]).entry r j = root * (-1) ^ (r * j) := by
  have hcells : ∀ r j : Fin 2, (DenseMatrix.ofRows [[root, root], [root, -root]]).toMatrix 2 r j =
      root * (-1) ^ ((r : Nat) * j) := by
    intro r j
    rw [DenseMatrix.toMatrix_ofRows_two]
    fin_cases r <;> fin_cases j <;> simp
  exact hcells ⟨r, hr⟩ ⟨j, hj⟩

theorem entry_phase (factor : ℂ) (hr : r < 2) (hj : j < 2) :
    (DenseMatrix.ofRows [[1, 0], [0, factor]]).entry r j = if j = r then factor ^ r else 0 := by
  have hcells : ∀ r j : Fin 2, (DenseMatrix.ofRows [[1, 0], [0, factor]]).toMatrix 2 r j =
      if (j : Nat) = r then factor ^ (r : Nat) else 0 := by
    intro r j
    rw [DenseMatrix.toMatrix_ofRows_two]
    fin_cases r <;> fin_cases j <;> simp
  exact hcells ⟨r, hr⟩ ⟨j, hj⟩

/-- The factor stands where both bits are set. -/
theorem entry_control_phase (factor : ℂ) (hr : r < 4) (hj : j < 4) :
    ((DenseMatrix.ofRows [[1, 0], [0, factor]]).control 1).entry r j =
      if j = r then factor ^ (r / 2 * (r % 2)) else 0 := by
  have hsquare : (DenseMatrix.ofRows [[1, 0], [0, factor]]).IsSquare := rfl
  have hblock : ((DenseMatrix.ofRows [[1, 0], [0, factor]]).control 1).entry r j =
      if 2 ≤ r ∧ 2 ≤ j then (DenseMatrix.ofRows [[1, 0], [0, factor]]).entry (r - 2) (j - 2)
      else if r = j then 1 else 0 := hsquare.entry_control hr hj
  rw [hblock]
  by_cases hcontrol : 2 ≤ r ∧ 2 ≤ j
  · rw [if_pos hcontrol, entry_phase factor (by omega) (by omega)]
    interval_cases r <;> interval_cases j <;> simp at hcontrol ⊢
  · rw [if_neg hcontrol]
    interval_cases r <;> interval_cases j <;> simp at hcontrol ⊢

/-- The bits change places. -/
theorem entry_exchange_one (hr : r < 4) (hj : j < 4) :
    (Trigonometry.exchange (1 : ℂ)).entry r j = if j = 2 * (r % 2) + r / 2 then 1 else 0 := by
  have hcells : ∀ r j : Fin 4, (Trigonometry.exchange (1 : ℂ)).toMatrix 4 r j =
      if (j : Nat) = 2 * ((r : Nat) % 2) + r / 2 then 1 else 0 := by
    intro r j
    rw [Trigonometry.exchange, DenseMatrix.toMatrix_ofRows_four]
    fin_cases r <;> fin_cases j <;> simp
  exact hcells ⟨r, hr⟩ ⟨j, hj⟩

end Entries

namespace Circuit

section Growth

variable {R : Type} [CommRing R] [StarRing R] {leaves : LeafMatrices R} {n : Nat} {c : Circuit}
  {f g : Nat → Nat → R} {inst : Instruction} {m : DenseMatrix R}

/-- The circuit has a unitary on `n` qubits, and `f x y` is what it makes of the index `y` at the
index `x`. -/
structure HasAmplitudes (leaves : LeafMatrices R) (n : Nat) (c : Circuit) (f : Nat → Nat → R) :
    Prop where
  runs : ∃ u, c.unitaryOver leaves n = .ok u ∧ u.HasSide (dimension n) ∧
    ∀ x y, x < dimension n → y < dimension n → u.entry x y = f x y

theorem hasAmplitudes_empty (name : String) :
    (empty name).HasAmplitudes leaves n fun x y => if x = y then 1 else 0 :=
  ⟨_, rfl, ⟨rfl, rfl⟩, fun _ _ hx hy => DenseMatrix.entry_identity hx hy⟩

namespace HasAmplitudes

theorem congr (h : c.HasAmplitudes leaves n f)
    (hfg : ∀ x y, x < dimension n → y < dimension n → f x y = g x y) :
    c.HasAmplitudes leaves n g := by
  obtain ⟨u, hrun, hside, hentry⟩ := h.runs
  exact ⟨u, hrun, hside, fun x y hx hy => (hentry x y hx hy).trans (hfg x y hx hy)⟩

/-- One more gate combines the amplitudes of the indices that differ in its targets. -/
theorem extend (h : c.HasAmplitudes leaves n f) (hm : inst.ActsBy leaves n m) :
    (c.extend [inst]).HasAmplitudes leaves n fun x y =>
      ∑ j ∈ range m.cols, m.entry (readTargets n inst.qubits x) j *
        f (writeTargets n inst.qubits j x) y := by
  obtain ⟨u, hrun, hside, hentry⟩ := h.runs
  refine ⟨u.applyGate m inst.qubits n, ?_, ⟨hside.rows, hside.cols⟩, fun x y hx hy => ?_⟩
  · rw [unitaryOver] at hrun
    rw [unitaryOver, instructions_extend, List.foldlM_append, hrun]
    exact foldlM_gate inst hm.not_barrier hm.below hm.matrix hside.rows hm.square hm.cols
  · rw [DenseMatrix.entry_applyGate u (hside.rows ▸ hx) (hside.cols ▸ hy)]
    refine sum_congr rfl fun j _ => ?_
    rw [hentry _ y (writeTargets_lt hm.below.lt hx) hy]

/-- A gate with one entry in every row. -/
theorem extend_monomial (h : c.HasAmplitudes leaves n f) (hm : inst.ActsBy leaves n m)
    (place : Nat → Nat) (factor : Nat → R) (hplace : ∀ r < m.cols, place r < m.cols)
    (hentry : ∀ r < m.cols, ∀ j < m.cols,
      m.entry r j = if j = place r then factor r else 0) :
    (c.extend [inst]).HasAmplitudes leaves n fun x y =>
      factor (readTargets n inst.qubits x) *
        f (writeTargets n inst.qubits (place (readTargets n inst.qubits x)) x) y := by
  refine (h.extend hm).congr fun x y _ _ => ?_
  have hread : readTargets n inst.qubits x < m.cols := hm.cols ▸ readTargets_lt
  rw [sum_eq_single_of_mem _ (mem_range.2 (hplace _ hread)), hentry _ hread _ (hplace _ hread),
    if_pos rfl]
  intro j hj hne
  rw [hentry _ hread j (mem_range.1 hj), if_neg hne, zero_mul]

end HasAmplitudes

end Growth

section Steps

variable {reading : Reading} {n p q : Nat} {c : Circuit} {f : Nat → Nat → ℂ}

theorem matrixOver_h : (Operation.gate .h).matrixOver (.exact reading) =
    .ok (.ofRows [[rootHalf, rootHalf], [rootHalf, -rootHalf]]) := by
  have hroot : Trigonometry.exact.real Trigonometry.exact.invSqrtTwo = rootHalf :=
    Trigonometry.exact_real _
  rw [← hroot]
  rfl

theorem matrixOver_cp {angle : Scalar} {θ : ℝ} (hangle : reading.angle angle = .ok θ) :
    (Operation.cp angle).matrixOver (.exact reading) =
      .ok (DenseMatrix.control 1 (.ofRows [[1, 0], [0, Complex.exp (θ * Complex.I)]])) := by
  have hgate : (Operation.gate (.p angle)).matrixOver (.exact reading) =
      .ok (.ofRows [[1, 0], [0, Complex.exp (θ * Complex.I)]]) := by
    rw [← Trigonometry.exact_phase]
    change (reading.angle angle >>= _) = _
    rw [hangle]
    rfl
  rw [Operation.cp, Operation.controlledGate, Operation.matrixOver_controlled, hgate]
  rfl

theorem matrixOver_swap : (Operation.gate .swap).matrixOver (.exact reading) =
    .ok (Trigonometry.exchange 1) := rfl

namespace HasAmplitudes

/-- A Hadamard gate adds up the amplitudes for both bits. -/
theorem h (hc : c.HasAmplitudes (.exact reading) n f) (hq : q < n) :
    ∃ c', c.h (q + 1) = .ok c' ∧ c'.HasAmplitudes (.exact reading) n fun x y =>
      ∑ b ∈ range 2, rootHalf * (-1) ^ (qubitBit n q x * b) * f (setQubitBit n q x b) y := by
  have hbelow : TargetsBelow n [q] := ⟨List.nodup_singleton q, by simpa using hq⟩
  refine ⟨_, c.push_single (.gate .h) [q] rfl rfl hbelow.nodup,
    (hc.extend (Operation.actsBy_on (LeafMatrices.sized_exact reading) rfl matrixOver_h hbelow
      rfl)).congr fun x y _ _ => sum_congr rfl fun b hb => ?_⟩
  have hbit : b < 2 := mem_range.1 hb
  rw [entry_hadamard _ readTargets_lt hbit, readTargets_singleton, writeTargets_singleton,
    Nat.mod_eq_of_lt hbit]

/-- A phase for the indices with both bits set. -/
theorem cp {angle : Scalar} {θ : ℝ} (hc : c.HasAmplitudes (.exact reading) n f)
    (hangle : reading.angle angle = .ok θ) (hp : p < n) (hq : q < n) (hne : p ≠ q) :
    ∃ c', c.cp angle (p + 1) (q + 1) = .ok c' ∧ c'.HasAmplitudes (.exact reading) n fun x y =>
      Complex.exp (θ * Complex.I) ^ (qubitBit n p x * qubitBit n q x) * f x y := by
  have hbelow : TargetsBelow n [p, q] := ⟨by simpa using hne, by simp [hp, hq]⟩
  have hadded := c.push_single (.cp angle) [p, q] rfl rfl hbelow.nodup
  have hacts := Operation.actsBy_on (LeafMatrices.sized_exact reading) rfl (matrixOver_cp hangle)
    hbelow rfl
  refine ⟨_, hadded, (hc.extend_monomial hacts id
    (fun r => Complex.exp (θ * Complex.I) ^ (r / 2 * (r % 2))) (fun _ hr => hr)
    fun r hr j hj => ?_).congr fun x y _ _ => ?_⟩
  · exact entry_control_phase _ hr hj
  · have hlow : qubitBit n q x < 2 := qubitBit_lt_two
    have hread : readTargets n [p, q] x = 2 * qubitBit n p x + qubitBit n q x := readTargets_pair
    dsimp only [id]
    rw [writeTargets_readTargets, hread]
    have hhigh : (2 * qubitBit n p x + qubitBit n q x) / 2 = qubitBit n p x := by omega
    have hrest : (2 * qubitBit n p x + qubitBit n q x) % 2 = qubitBit n q x := by omega
    rw [hhigh, hrest]

/-- An exchange of two bits. -/
theorem swap (hc : c.HasAmplitudes (.exact reading) n f) (hp : p < n) (hq : q < n) (hne : p ≠ q) :
    ∃ c', c.swap (p + 1) (q + 1) = .ok c' ∧ c'.HasAmplitudes (.exact reading) n fun x y =>
      f (exchangeBits n p q x) y := by
  have hbelow : TargetsBelow n [p, q] := ⟨by simpa using hne, by simp [hp, hq]⟩
  have hadded := c.push_single (.gate .swap) [p, q] rfl rfl hbelow.nodup
  have hacts := Operation.actsBy_on (LeafMatrices.sized_exact reading) rfl matrixOver_swap
    hbelow rfl
  refine ⟨_, hadded, (hc.extend_monomial hacts (fun r => 2 * (r % 2) + r / 2)
    (fun _ => 1) (fun r hr => ?_) fun r hr j hj => ?_).congr fun x y _ _ => ?_⟩
  · have hr : r < 4 := hr
    change 2 * (r % 2) + r / 2 < 4
    omega
  · exact entry_exchange_one hr hj
  · have hlow : qubitBit n q x < 2 := qubitBit_lt_two
    have hhigh : qubitBit n p x < 2 := qubitBit_lt_two
    have hread : readTargets n [p, q] x = 2 * qubitBit n p x + qubitBit n q x := readTargets_pair
    rw [one_mul, hread, writeTargets_pair, exchangeBits]
    have hbits : ∀ high < 2, ∀ low < 2,
        (2 * ((2 * high + low) % 2) + (2 * high + low) / 2) / 2 % 2 = low ∧
          (2 * ((2 * high + low) % 2) + (2 * high + low) / 2) % 2 = high := by decide
    rw [(hbits _ hhigh _ hlow).1, (hbits _ hhigh _ hlow).2]

end HasAmplitudes

end Steps

end Circuit

end GateAlgebra
