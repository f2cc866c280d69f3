import GateAlgebra.Proofs.Amplitudes
/-!
The Fourier transform.  Row by row the circuit replaces a bit of the index by a phase, and after
all rows the amplitudes are those of the transform with the bits in reverse; the exchanges at the
end put them in order.
-/

namespace GateAlgebra

open Finset

/-! ### Parts of a turn -/

section Turns

/-- The point of the unit circle after `a` of the `2 ^ d` equal parts of a turn. -/
noncomputable def dyadicPhase (d a : Nat) : ℂ :=
  Complex.exp ((2 : Nat) * Real.pi * Complex.I * a / (2 ^ d : Nat))

theorem dyadicPhase_eq (d a : Nat) :
    dyadicPhase d a = Complex.exp (2 * Real.pi * Complex.I * a / 2 ^ d) := by
  rw [dyadicPhase, Nat.cast_ofNat, Nat.cast_pow, Nat.cast_ofNat]

theorem dyadicPhase_zero_right (d : Nat) : dyadicPhase d 0 = 1 := by
  simp [dyadicPhase]

theorem dyadicPhase_add (d a b : Nat) :
    dyadicPhase d (a + b) = dyadicPhase d a * dyadicPhase d b := by
  rw [dyadicPhase_eq, dyadicPhase_eq, dyadicPhase_eq, ← Complex.exp_add]
  congr 1
  push_cast
  ring

theorem dyadicPhase_mul (d a b : Nat) : dyadicPhase d (a * b) = dyadicPhase d a ^ b := by
  rw [dyadicPhase_eq, dyadicPhase_eq, ← Complex.exp_nat_mul]
  congr 1
  push_cast
  ring

/-- Smaller parts, and as many more of them. -/
theorem dyadicPhase_scale (d k a : Nat) : dyadicPhase (d + k) (2 ^ k * a) = dyadicPhase d a := by
  have hscale : (2 : ℂ) ^ k ≠ 0 := pow_ne_zero k two_ne_zero
  rw [dyadicPhase_eq, dyadicPhase_eq]
  congr 1
  push_cast
  field_simp
  ring

theorem dyadicPhase_one : dyadicPhase 1 1 = -1 := by
  rw [dyadicPhase_eq, ← Complex.exp_pi_mul_I]
  congr 1
  push_cast
  ring

/-- Half turns are signs. -/
theorem dyadicPhase_one_left (a : Nat) : dyadicPhase 1 a = (-1) ^ a := by
  rw [← dyadicPhase_one, ← dyadicPhase_mul, one_mul]

theorem dyadicPhase_one_mod (a b : Nat) : dyadicPhase 1 (a * (b % 2)) = dyadicPhase 1 (a * b) := by
  rw [dyadicPhase_one_left, dyadicPhase_one_left, mul_comm, pow_mul, mul_comm a b, pow_mul,
    ← neg_one_pow_eq_pow_mod_two]

/-- The phase of a controlled gate. -/
theorem exp_halved_pow (k b : Nat) :
    Complex.exp ((Real.pi / 2 ^ k : ℝ) * Complex.I) ^ b = dyadicPhase (k + 1) b := by
  rw [dyadicPhase_eq, ← Complex.exp_nat_mul]
  congr 1
  push_cast
  rw [pow_succ]
  field_simp

end Turns

/-! ### Rows -/

section Rows

variable {n i m j x y : Nat}

/-- The indices agree in all bits from the bit `i` on. -/
def AgreeFrom (n i x y : Nat) : Prop :=
  ∀ q < n, i ≤ q → qubitBit n q x = qubitBit n q y

instance (n i x y : Nat) : Decidable (AgreeFrom n i x y) :=
  inferInstanceAs (Decidable (∀ q < n, i ≤ q → qubitBit n q x = qubitBit n q y))

/-- The number that the first bits spell in reverse. -/
def spelled (n i x : Nat) : Nat :=
  ∑ k ∈ range i, qubitBit n k x * 2 ^ k

/-- After `i` rows: the first bits have become phases, the other ones are what they were. -/
noncomputable def rowAmplitude (n i x y : Nat) : ℂ :=
  if AgreeFrom n i x y then rootHalf ^ i * dyadicPhase n (y * spelled n i x) else 0

/-- After `i` rows, and the first gates of the next one, down to the phase of the qubit
`i + m`. -/
noncomputable def phaseAmplitude (n i m x y : Nat) : ℂ :=
  if AgreeFrom n (i + 1) x y then
    rootHalf ^ (i + 1) * dyadicPhase n (y * spelled n i x) *
      dyadicPhase (m + 1) (qubitBit n i x * (y / 2 ^ (n - 1 - (i + m))))
  else 0

theorem rowAmplitude_zero (hx : x < dimension n) (hy : y < dimension n) :
    rowAmplitude n 0 x y = if x = y then 1 else 0 := by
  have hall : AgreeFrom n 0 x y ↔ x = y := by
    refine ⟨fun h => eq_of_qubitBit hx hy fun q hq => h q hq (Nat.zero_le q), ?_⟩
    rintro rfl q _ _
    rfl
  simp only [rowAmplitude, hall, spelled, range_zero, sum_empty, Nat.mul_zero,
    dyadicPhase_zero_right, pow_zero, one_mul]

theorem agreeFrom_setQubitBit (hi : i < n) (hj : j < 2) :
    AgreeFrom n i (setQubitBit n i x j) y ↔ j = qubitBit n i y ∧ AgreeFrom n (i + 1) x y := by
  constructor
  · intro h
    refine ⟨?_, fun q hq hle => ?_⟩
    · rw [← h i hi (Nat.le_refl i), qubitBit_setQubitBit hj]
    · rw [← h q hq (Nat.le_of_succ_le hle), qubitBit_setQubitBit_of_ne hj hi hq (by omega)]
  · rintro ⟨rfl, h⟩ q hq hle
    by_cases hqi : q = i
    · rw [hqi, qubitBit_setQubitBit hj]
    · rw [qubitBit_setQubitBit_of_ne hj hi hq hqi, h q hq (by omega)]

theorem spelled_setQubitBit (hi : i < n) (hj : j < 2) :
    spelled n i (setQubitBit n i x j) = spelled n i x := by
  refine sum_congr rfl fun k hk => ?_
  have hk : k < i := mem_range.1 hk
  rw [qubitBit_setQubitBit_of_ne hj hi (by omega) (by omega)]

/-- The Hadamard gate begins a row. -/
theorem sum_rowAmplitude (hi : i < n) :
    ∑ b ∈ range 2, rootHalf * (-1) ^ (qubitBit n i x * b) *
      rowAmplitude n i (setQubitBit n i x b) y = phaseAmplitude n i 0 x y := by
  have hbit : qubitBit n i y ∈ range 2 := mem_range.2 qubitBit_lt_two
  rw [sum_eq_single_of_mem _ hbit]
  · rw [rowAmplitude, phaseAmplitude, spelled_setQubitBit hi qubitBit_lt_two]
    by_cases hagree : AgreeFrom n (i + 1) x y
    · have hsign : (-1) ^ (qubitBit n i x * qubitBit n i y) =
          dyadicPhase (0 + 1) (qubitBit n i x * (y / 2 ^ (n - 1 - (i + 0)))) := by
        rw [← dyadicPhase_one_left]
        exact dyadicPhase_one_mod _ _
      rw [if_pos ((agreeFrom_setQubitBit hi qubitBit_lt_two).2 ⟨rfl, hagree⟩), if_pos hagree,
        hsign, pow_succ]
      ring
    · rw [if_neg fun h => hagree ((agreeFrom_setQubitBit hi qubitBit_lt_two).1 h).2,
        if_neg hagree, mul_zero]
  · intro b hb hne
    have hoff : ¬AgreeFrom n i (setQubitBit n i x b) y := fun h =>
      hne ((agreeFrom_setQubitBit hi (mem_range.1 hb)).1 h).1
    rw [rowAmplitude, if_neg hoff, mul_zero]

/-- Each controlled phase adds a digit. -/
theorem halved_mul_phaseAmplitude (hm : i + m + 1 < n) :
    Complex.exp ((Real.pi / 2 ^ (m + 1) : ℝ) * Complex.I) ^
        (qubitBit n (i + m + 1) x * qubitBit n i x) * phaseAmplitude n i m x y =
      phaseAmplitude n i (m + 1) x y := by
  rw [exp_halved_pow, phaseAmplitude, phaseAmplitude]
  by_cases hagree : AgreeFrom n (i + 1) x y
  · have hdigit : y / 2 ^ (n - 1 - (i + (m + 1))) =
        2 * (y / 2 ^ (n - 1 - (i + m))) + qubitBit n (i + m + 1) y := by
      have hplace : n - 1 - (i + m) = n - 1 - (i + (m + 1)) + 1 := by omega
      rw [hplace, pow_succ, ← Nat.div_div_eq_div_mul]
      exact (Nat.div_add_mod _ 2).symm
    have hsum : qubitBit n i x * (2 * (y / 2 ^ (n - 1 - (i + m))) + qubitBit n (i + m + 1) y) =
        2 ^ 1 * (qubitBit n i x * (y / 2 ^ (n - 1 - (i + m)))) +
          qubitBit n (i + m + 1) y * qubitBit n i x := by ring
    rw [if_pos hagree, if_pos hagree, hagree (i + m + 1) hm (by omega), hdigit, hsum,
      dyadicPhase_add, dyadicPhase_scale]
    ring
  · rw [if_neg hagree, if_neg hagree, mul_zero]

/-- The last phase ends the row. -/
theorem phaseAmplitude_last (hi : i < n) :
    phaseAmplitude n i (n - (i + 1)) x y = rowAmplitude n (i + 1) x y := by
  have hlast : n - 1 - (i + (n - (i + 1))) = 0 := by omega
  have hscale : dyadicPhase (n - (i + 1) + 1) (qubitBit n i x * y) =
      dyadicPhase n (y * (qubitBit n i x * 2 ^ i)) := by
    have hwhole : n = n - (i + 1) + 1 + i := by omega
    have hproduct : y * (qubitBit n i x * 2 ^ i) = 2 ^ i * (qubitBit n i x * y) := by ring
    rw [hproduct, ← dyadicPhase_scale _ i, ← hwhole]
  rw [phaseAmplitude, rowAmplitude, hlast, pow_zero, Nat.div_one, hscale, spelled, spelled,
    sum_range_succ, Nat.mul_add, dyadicPhase_add, mul_assoc]

end Rows

/-! ### Exchanges -/

section Exchanges

variable {n j k x y : Nat}

/-- Where the bit number `k` is found after `j` exchanges from the ends inwards. -/
def mirrored (n j k : Nat) : Nat :=
  if k < j ∨ n - 1 - k < j then n - 1 - k else k

/-- After `j` exchanges. -/
noncomputable def exchangedAmplitude (n j x y : Nat) : ℂ :=
  rootHalf ^ n *
    dyadicPhase n (y * ∑ k ∈ range n, qubitBit n (mirrored n j k) x * 2 ^ k)

theorem rowAmplitude_last : rowAmplitude n n x y = exchangedAmplitude n 0 x y := by
  have hagree : AgreeFrom n n x y := fun q hq hle => absurd hq (Nat.not_lt.2 hle)
  have hplace : ∀ k, mirrored n 0 k = k := fun k => if_neg (by omega)
  rw [rowAmplitude, if_pos hagree, exchangedAmplitude, spelled]
  simp only [hplace]

theorem qubitBit_exchangeBits {p q r : Nat} (hp : p < n) (hq : q < n) (hr : r < n) :
    qubitBit n r (exchangeBits n p q x) =
      if r = q then qubitBit n p x else if r = p then qubitBit n q x else qubitBit n r x := by
  rw [exchangeBits]
  by_cases hrq : r = q
  · rw [if_pos hrq, hrq, qubitBit_setQubitBit qubitBit_lt_two]
  · rw [if_neg hrq, qubitBit_setQubitBit_of_ne qubitBit_lt_two hq hr hrq]
    by_cases hrp : r = p
    · rw [if_pos hrp, hrp, qubitBit_setQubitBit qubitBit_lt_two]
    · rw [if_neg hrp, qubitBit_setQubitBit_of_ne qubitBit_lt_two hp hr hrp]

/-- One more exchange. -/
theorem exchangedAmplitude_exchangeBits (hj : j < n / 2) :
    exchangedAmplitude n j (exchangeBits n j (n - 1 - j) x) y =
      exchangedAmplitude n (j + 1) x y := by
  have hbits : ∀ k < n, qubitBit n (mirrored n j k) (exchangeBits n j (n - 1 - j) x) =
      qubitBit n (mirrored n (j + 1) k) x := by
    intro k hk
    have hplace : mirrored n j k < n := by unfold mirrored; split <;> omega
    rw [qubitBit_exchangeBits (by omega) (by omega) hplace]
    unfold mirrored
    split_ifs <;> first | omega | (congr 1; omega)
  rw [exchangedAmplitude, exchangedAmplitude,
    sum_congr rfl fun k hk => by rw [hbits k (mem_range.1 hk)]]

theorem sum_digits (n x : Nat) : ∑ k ∈ range n, x / 2 ^ k % 2 * 2 ^ k = x % 2 ^ n := by
  induction n with
  | zero => simp [Nat.mod_one]
  | succ n ih => rw [sum_range_succ, ih, Nat.mod_pow_succ, Nat.mul_comm]

/-- After all exchanges the bits are in order. -/
theorem exchangedAmplitude_last (hx : x < dimension n) :
    exchangedAmplitude n (n / 2) x y = rootHalf ^ n * dyadicPhase n (y * x) := by
  have hbits : ∀ k ∈ range n, qubitBit n (mirrored n (n / 2) k) x * 2 ^ k =
      x / 2 ^ k % 2 * 2 ^ k := by
    intro k hk
    have hk : k < n := mem_range.1 hk
    have hplace : n - 1 - mirrored n (n / 2) k = k := by unfold mirrored; split <;> omega
    rw [qubitBit, hplace]
    rfl
  have hx : x < 2 ^ n := hx
  rw [exchangedAmplitude, sum_congr rfl hbits, sum_digits, Nat.mod_eq_of_lt hx]

end Exchanges

/-! ### Angles -/

/-- The angles of the controlled phases are read without rounding. -/
def Reading.HalvesPi (reading : Reading) : Prop :=
  ∀ k, 0 < k → k < 64 → reading.angle (Circuit.halvedPi k) = .ok (Real.pi / (2 ^ k : Nat))

theorem Reading.HalvesPi.angle_halvedPi {reading : Reading} (hangles : reading.HalvesPi) {k : Nat}
    (hpos : 0 < k) (hk : k < 64) :
    reading.angle (Circuit.halvedPi k) = .ok (Real.pi / 2 ^ k) := by
  rw [hangles k hpos hk, Nat.cast_pow, Nat.cast_ofNat]

section HalfTurns

theorem real?_real (x : Float) : (Scalar.real x).real? = some x := by
  have hreal : (ComplexFloat.ofReal x).isReal = true := by
    change decide (Float.abs 0 < ComplexFloat.realTolerance) = true
    rfl
  exact if_pos hreal

/-- The number of a double in units of the double nearest to π. -/
noncomputable def halfTurns (x : Float) : ℝ :=
  ((Double.ofFloat x).value / (Double.ofFloat Scalar.piValue).value : ℚ)

/-- The double nearest to π stands for π, and all others for what they are to it. -/
noncomputable def angleInHalfTurns (s : Scalar) : Except CircuitError ℝ :=
  s.real?.elim (.error (.unbound s.text)) fun x => .ok (halfTurns x * Real.pi)

theorem angleInHalfTurns_real (x : Float) :
    angleInHalfTurns (.real x) = .ok (halfTurns x * Real.pi) := by
  rw [angleInHalfTurns, real?_real]
  rfl

theorem halfTurns_backQuarter : halfTurns (-(Scalar.piValue / 2)) = -(1 / 2) := by
  have hvalue : (Double.ofFloat (-(Scalar.piValue / 2))).value /
      (Double.ofFloat Scalar.piValue).value = -(1 / 2) := by decide +kernel
  rw [halfTurns, hvalue]
  norm_num

/-- Division of the double nearest to π by a power of two is exact. -/
theorem halfTurns_halved {k : Nat} (hk : k < 64) :
    halfTurns (Scalar.piValue / Float.ofNat (Nat.pow 2 k)) = 1 / 2 ^ k := by
  have hvalue : ∀ k < 64, (Double.ofFloat (Scalar.piValue / Float.ofNat (Nat.pow 2 k))).value /
      (Double.ofFloat Scalar.piValue).value = 1 / 2 ^ k := by decide +kernel
  rw [halfTurns, hvalue k hk]
  push_cast
  rfl

theorem angleInHalfTurns_backQuarter : angleInHalfTurns backQuarter = .ok (-(Real.pi / 2)) := by
  rw [backQuarter, angleInHalfTurns_real, halfTurns_backQuarter]
  congr 1
  ring

/-- Parameters in half turns, and no custom gates. -/
noncomputable def Reading.inHalfTurns : Reading :=
  { Reading.plain with
    angle := angleInHalfTurns
    angle_backQuarter := angleInHalfTurns_backQuarter }

theorem Reading.halvesPi_inHalfTurns : Reading.inHalfTurns.HalvesPi := by
  intro k _ hk
  change angleInHalfTurns (.real _) = _
  rw [angleInHalfTurns_real, halfTurns_halved hk, Nat.cast_pow, Nat.cast_ofNat]
  congr 1
  ring

end HalfTurns

/-! ### The circuit -/

namespace Circuit

variable {reading : Reading} {n i : Nat} {c : Circuit}

/-- A row of the circuit. -/
theorem exists_qftRow (hangles : reading.HalvesPi) (hn : n ≤ 64) (hi : i < n)
    (hc : c.HasAmplitudes (.exact reading) n (rowAmplitude n i)) :
    ∃ c', qftRow n c (i + 1) = .ok c' ∧
      c'.HasAmplitudes (.exact reading) n (rowAmplitude n (i + 1)) := by
  obtain ⟨begun, hbegun, hfirst⟩ := hc.h hi
  have hphases : ∀ m < n - (i + 1), ∀ c : Circuit,
      c.HasAmplitudes (.exact reading) n (phaseAmplitude n i m) →
        ∃ c', c.cp (halvedPi (m + 1)) (i + 1 + m + 1) (i + 1) = .ok c' ∧
          c'.HasAmplitudes (.exact reading) n (phaseAmplitude n i (m + 1)) := by
    intro m hm c hc
    obtain ⟨c', hadded, hc'⟩ := hc.cp (hangles.angle_halvedPi m.succ_pos (by omega))
      (p := i + m + 1) (q := i) (by omega) hi (by omega)
    have hindex : i + 1 + m + 1 = i + m + 1 + 1 := by omega
    rw [hindex]
    exact ⟨c', hadded, hc'.congr fun x y _ _ => halved_mul_phaseAmplitude (by omega)⟩
  obtain ⟨c', hrow, hlast⟩ := exists_foldlM_range
    (P := fun m (c : Circuit) => c.HasAmplitudes (.exact reading) n (phaseAmplitude n i m))
    (hfirst.congr fun x y _ _ => sum_rowAmplitude hi) hphases
  refine ⟨c', ?_, hlast.congr fun x y _ _ => phaseAmplitude_last hi⟩
  rw [qftRow, hbegun]
  exact hrow

/-- The whole circuit. -/
theorem exists_qft (hangles : reading.HalvesPi) (hn : n ≤ 64) :
    ∃ c, qft n = .ok c ∧ c.HasAmplitudes (.exact reading) n fun x y =>
      rootHalf ^ n * dyadicPhase n (y * x) := by
  obtain ⟨rows, hrows, hreversed⟩ := exists_foldlM_range
    (P := fun i (c : Circuit) => c.HasAmplitudes (.exact reading) n (rowAmplitude n i))
    (f := fun c i => qftRow n c (i + 1))
    ((hasAmplitudes_empty "qft").congr fun x y hx hy => (rowAmplitude_zero hx hy).symm)
    fun i hi c hc => exists_qftRow hangles hn hi hc
  have hswaps : ∀ j < n / 2, ∀ c : Circuit,
      c.HasAmplitudes (.exact reading) n (exchangedAmplitude n j) →
        ∃ c', c.swap (j + 1) (n - j) = .ok c' ∧
          c'.HasAmplitudes (.exact reading) n (exchangedAmplitude n (j + 1)) := by
    intro j hj c hc
    obtain ⟨c', hadded, hc'⟩ := hc.swap (p := j) (q := n - 1 - j) (by omega) (by omega) (by omega)
    have hindex : n - j = n - 1 - j + 1 := by omega
    rw [hindex]
    exact ⟨c', hadded, hc'.congr fun x y _ _ => exchangedAmplitude_exchangeBits hj⟩
  obtain ⟨c, hall, hordered⟩ := exists_foldlM_range
    (P := fun j (c : Circuit) => c.HasAmplitudes (.exact reading) n (exchangedAmplitude n j))
    (hreversed.congr fun x y _ _ => rowAmplitude_last) hswaps
  refine ⟨c, ?_, hordered.congr fun x y hx _ => exchangedAmplitude_last hx⟩
  rw [qft, hrows]
  exact hall

end Circuit

theorem rootHalf_pow_mul_dyadicPhase (n x y : Nat) :
    rootHalf ^ n * dyadicPhase n (y * x) =
      Complex.exp (2 * Real.pi * Complex.I * x * y / 2 ^ n) / (√(2 ^ n) : ℝ) := by
  have hroot : √((2 : ℝ) ^ n) = √2 ^ n := by
    rw [Real.sqrt_eq_iff_eq_sq (by positivity) (by positivity), ← pow_mul, mul_comm, pow_mul,
      Real.sq_sqrt two_pos.le]
  rw [hroot, dyadicPhase_eq, div_eq_inv_mul (Complex.exp _)]
  congr 1
  · rw [rootHalf, Nat.cast_ofNat, Complex.ofReal_inv, Complex.ofReal_pow, inv_pow]
  · push_cast
    ring_nf

/-- The circuit of the Fourier transform is there for every register up to 64 qubits, and with
angles that are read without rounding it has the matrix of the transform: no further phase, and
the bits in order. -/
theorem qft_is_the_fourier_transform (reading : Reading) (hangles : reading.HalvesPi) (n : Nat)
    (hn : n ≤ 64) :
    ∃ c u, Circuit.qft n = .ok c ∧ c.unitaryOver (.exact reading) n = .ok u ∧
      u.HasSide (2 ^ n) ∧ ∀ x y, x < 2 ^ n → y < 2 ^ n →
        u.entry x y =
          Complex.exp (2 * Real.pi * Complex.I * x * y / 2 ^ n) / (√(2 ^ n) : ℝ) := by
  obtain ⟨c, hc, hamplitudes⟩ := Circuit.exists_qft hangles hn
  obtain ⟨u, hrun, hside, hentry⟩ := hamplitudes.runs
  exact ⟨c, u, hc, hrun, hside, fun x y hx hy =>
    (hentry x y hx hy).trans (rootHalf_pow_mul_dyadicPhase n x y)⟩

/-- On 64 qubits the index 2 ^ 32 keeps its phase, since it makes a whole turn. -/
theorem qft_is_the_fourier_transform_largest :
    Reading.inHalfTurns.HalvesPi ∧ ∃ c u, Circuit.qft 64 = .ok c ∧
      c.unitaryOver (.exact .inHalfTurns) 64 = .ok u ∧ u.entry (2 ^ 32) (2 ^ 32) = 1 / 2 ^ 32 := by
  obtain ⟨c, u, hc, hrun, -, hentry⟩ := qft_is_the_fourier_transform .inHalfTurns
    Reading.halvesPi_inHalfTurns 64 (Nat.le_refl 64)
  refine ⟨Reading.halvesPi_inHalfTurns, c, u, hc, hrun, ?_⟩
  have hturn : 2 * (Real.pi : ℂ) * Complex.I * ((2 ^ 32 : Nat) : ℂ) * ((2 ^ 32 : Nat) : ℂ) /
      2 ^ 64 = 2 * Real.pi * Complex.I := by
    push_cast
    ring
  have hroot : √((2 : ℝ) ^ 64) = 2 ^ 32 := by
    rw [Real.sqrt_eq_iff_eq_sq (by positivity) (by positivity)]
    norm_num
  rw [hentry _ _ (by norm_num) (by norm_num), hturn, hroot, Complex.exp_two_pi_mul_I]
  push_cast
  rfl

end GateAlgebra
