import GateAlgebra.Proofs.Convergence
import GateAlgebra.Proofs.Valuation
/-!
Powers of rewrites.  A power of an operation that becomes one other instruction is lowered as the
power of that instruction.  Where this raises exponents or moves inside of other modifiers, it has
the power of the exact matrix as long as it stays on the principal branch.
-/

namespace GateAlgebra

section Lowering

variable {free qubits : List Nat} {w only : Operation} {e : Exponent} {emitted : List Instruction}

/-- What a power is lowered to, if what is under it becomes one other instruction. -/
theorem lowers_raise_of_powered (hnone : e.natural? = none)
    (hw : Lowers free (w.on qubits) [only.on qubits]) (hchanged : (only == w) = false)
    (h : Lowers free ((Operation.powered e w).on qubits) emitted) :
    Lowers free ((only.raise e).on qubits) emitted := by
  rcases h.of_powered rfl with ⟨hzero, -⟩ | ⟨n, _, htimes, -⟩ |
    ⟨-, ⟨root, hroot, -⟩ | ⟨-, -, lowered, hsub, hkept⟩⟩
  · cases hnone.symm.trans hzero
  · cases hnone.symm.trans htimes
  · have hone := Exponent.isOne_of_natural?_eq_none hnone
    cases w with
    | gate g =>
        rcases hw.of_gate rfl with ⟨-, hsingle⟩ | ⟨steps, lists, hsteps, hlists, hsingle⟩
        · obtain rfl : only = .gate g :=
            congrArg Instruction.operation (List.singleton_inj.1 hsingle)
          rwa [Operation.raise_eq_powered hone (by simp [Operation.kind])]
        · have hlong := Lowers.length_expansion hsteps hlists
          rw [← hsingle, List.length_singleton] at hlong
          omega
    | _ => cases hroot
  · obtain rfl := hsub.unique hw
    rcases hkept with ⟨hsame, -⟩ | ⟨other, powered, hsingle, -, hpowered, -, hagain⟩
    · have hunchanged := hsame _ rfl
      rw [Operation.qubits_on, isUnchanged_on, hchanged] at hunchanged
      cases hunchanged
    · obtain rfl := List.singleton_inj.1 hsingle
      obtain ⟨-, rfl⟩ := Operation.power_eq_ok_iff.1 hpowered
      exact hagain

/-- The one instruction has the operator of what is under the power, and so have their powers. -/
theorem ExactSemantics.run_powered_iff {R : Type*} [CommRing R] [StarRing R]
    (S : ExactSemantics R) (hfree : free.Nodup)
    (hinst : ((Operation.powered e w).on qubits).ApartFrom free) (hnone : e.natural? = none)
    (hw : Lowers free (w.on qubits) [only.on qubits]) (hchanged : (only == w) = false)
    (h : Lowers free ((Operation.powered e w).on qubits) emitted)
    (hinner : S.FaithfulFrom free (w.on qubits))
    (hagain : S.FaithfulFrom free ((only.raise e).on qubits)) :
    S.run emitted = S.operator (.powered e w) qubits ↔ S.RaisesMatrix only e := by
  have hlength : qubits.length = w.numQubits := hinst.valid.qubits_length
  have hnodup : qubits.Nodup := hinst.valid.qubits_nodup
  have hwhole := hinst.wrapped (Or.inr rfl)
  have hraised := (hinst.powerOf rfl hw).2
  have hwidth : qubits.length = only.numQubits :=
    (hw.yields hwhole.valid _ List.mem_cons_self).valid.qubits_length
  have honly : S.operator only qubits = S.operator w qubits :=
    (S.run_singleton (only.on qubits)).symm.trans (S.run_of_lowers hfree hwhole hinner hw)
  have hrun : S.run emitted = S.operator (only.raise e) qubits :=
    S.run_of_lowers hfree hraised hagain (lowers_raise_of_powered hnone hw hchanged h)
  rw [hrun, S.raisesMatrix_iff hwidth hnodup,
    S.operator_powered_congr hwidth hlength hnodup honly]

end Lowering

namespace Valuation

variable (v : Valuation) {free qubits : List Nat} {x y : Operation} {a b : DenseMatrix ℂ}
  {inst : Instruction}

/-- The exact matrix of an operation. -/
def HasMatrix (x : Operation) (m : DenseMatrix ℂ) : Prop :=
  x.matrixOver (.exact v.reading) = .ok m

variable {v} in
theorem HasMatrix.hasSide (ha : v.HasMatrix x a) (hx : x.isUnitary = true) :
    a.HasSide (dimension x.numQubits) := by
  have hsized := LeafMatrices.sized_exact v.reading
  have hrows := Operation.rows_matrixOver hsized hx ha
  exact ⟨hrows, (Operation.isSquare_of_matrixOver hsized.toSquare hx ha).symm.trans hrows⟩

variable {v} in
theorem HasMatrix.operator_eq (ha : v.HasMatrix x a) (hx : x.isUnitary = true)
    (hlength : qubits.length = x.numQubits) :
    v.semantics.operator x qubits = place qubits (a.bitMatrix qubits.length) :=
  calc v.semantics.operator x qubits
      = place qubits (a.bitMatrix x.numQubits) := congrArg (place qubits) (v.reads x a hx ha)
    _ = place qubits (a.bitMatrix qubits.length) :=
        congrArg (fun k => place qubits (a.bitMatrix k)) hlength.symm

variable {v} in
/-- On the same qubits operations are told apart by their matrices. -/
theorem HasMatrix.operator_eq_iff (ha : v.HasMatrix x a) (hb : v.HasMatrix y b)
    (hx : x.isUnitary = true) (hy : y.isUnitary = true) (hlength : qubits.length = x.numQubits)
    (hlength' : qubits.length = y.numQubits) (hnodup : qubits.Nodup) :
    v.semantics.operator x qubits = v.semantics.operator y qubits ↔ a = b := by
  rw [ha.operator_eq hx hlength, hb.operator_eq hy hlength']
  refine ⟨fun h => ?_, fun h => by rw [h]⟩
  have hsideA := hlength ▸ ha.hasSide hx
  have hsideB := hlength' ▸ hb.hasSide hy
  exact DenseMatrix.bitMatrix_injective hsideA hsideB (place_injective rfl hnodup h)

/-- Raising an operation to a power takes the power of its matrix. -/
def RaisesMatrix (x : Operation) (e : Exponent) : Prop :=
  ∃ m, v.HasMatrix x m ∧ v.HasMatrix (x.raise e) (m.exactPower e)

theorem raisesMatrix_iff {e : Exponent} (hx : x.isUnitary = true) :
    v.semantics.RaisesMatrix x e ↔ v.RaisesMatrix x e := by
  obtain ⟨m, hm : v.HasMatrix x m⟩ := v.exists_matrix hx
  have hraise : (x.raise e).isUnitary = true := (Operation.isUnitary_raise e x).trans hx
  obtain ⟨r, hr : v.HasMatrix (x.raise e) r⟩ := v.exists_matrix hraise
  have hpower : v.HasMatrix (.powered e x) (m.exactPower e) := Operation.matrixOver_powered hm
  have hlength : (List.range x.numQubits).length = x.numQubits := List.length_range
  have hiff := hr.operator_eq_iff hpower hraise hx
    (hlength.trans (Operation.numQubits_raise e x).symm) hlength List.nodup_range
  rw [v.semantics.raisesMatrix_iff hlength List.nodup_range, hiff]
  constructor
  · rintro rfl
    exact ⟨m, hm, hr⟩
  · rintro ⟨m', hm', hr'⟩
    obtain rfl := Except.ok.inj (hm.symm.trans hm')
    exact Except.ok.inj (hr.symm.trans hr')

/-- The second operation has a matrix that squares to that of the first one. -/
def SquaresTo (x y : Operation) : Prop :=
  ∃ m r, v.HasMatrix x m ∧ v.HasMatrix y r ∧ r * r = m

theorem qubitMatrix_mul_self_iff (hx : x.isUnitary = true) (hy : y.isUnitary = true)
    (hqubit : x.numQubits = 1) (hqubit' : y.numQubits = 1) :
    v.semantics.qubitMatrix y * v.semantics.qubitMatrix y = v.semantics.qubitMatrix x ↔
      v.SquaresTo x y := by
  let S := v.semantics
  obtain ⟨m, hm : v.HasMatrix x m⟩ := v.exists_matrix hx
  obtain ⟨r, hr : v.HasMatrix y r⟩ := v.exists_matrix hy
  have hside : r.HasSide (dimension 1) := hqubit' ▸ hr.hasSide hy
  have hnodup : [0].Nodup := List.nodup_singleton 0
  have hsquare : S.operator y [0] * S.operator y [0] = place [0] ((r * r).bitMatrix 1) := by
    have hoperator : S.operator y [0] = place [0] (r.bitMatrix 1) := hr.operator_eq hy hqubit'.symm
    rw [DenseMatrix.bitMatrix_mul hside hside, place_mul rfl hnodup, hoperator]
  have hoperator : S.operator x [0] = place [0] (m.bitMatrix 1) := hm.operator_eq hx hqubit.symm
  have hmatrix : S.operator y [0] * S.operator y [0] = S.operator x [0] ↔ r * r = m := by
    have hsideM : m.HasSide (dimension 1) := hqubit ▸ hm.hasSide hx
    have hsideR : (r * r).HasSide (dimension 1) := ⟨hside.rows, hside.cols⟩
    rw [hsquare, hoperator]
    refine ⟨fun h => ?_, fun h => by rw [h]⟩
    exact DenseMatrix.bitMatrix_injective hsideR hsideM (place_injective rfl hnodup h)
  have hselect : S.qubitMatrix y * S.qubitMatrix y = S.qubitMatrix x ↔
      S.operator y [0] * S.operator y [0] = S.operator x [0] := by
    refine ⟨fun h => ?_, S.qubitMatrix_mul_self hqubit' hqubit⟩
    rw [S.operator_qubit hqubit', S.operator_qubit hqubit, select_mul (fun _ _ => rfl), h]
  rw [hselect, hmatrix]
  constructor
  · exact fun h => ⟨m, r, hm, hr, h⟩
  · rintro ⟨m', r', hm', hr', h⟩
    obtain rfl := Except.ok.inj (hm.symm.trans hm')
    obtain rfl := Except.ok.inj (hr.symm.trans hr')
    exact h

/-- The powers and square roots that an instruction is lowered by are those of matrices. -/
structure FaithfulAt (free : List Nat) (inst : Instruction) : Prop where
  power : ∀ {e : Exponent} {w only : Operation}, inst.operation = .powered e w →
    e.natural? = none → Lowers free (w.on inst.qubits) [only.on inst.qubits] →
    (only == w) = false → v.RaisesMatrix only e
  roots : ∀ {n : Nat} {w : Operation} {lowered : List Instruction},
    inst.operation = .controlled n w → w.numQubits = 1 →
    Lowers free (w.on (inst.qubits.drop n)) lowered →
    isUnchanged lowered w (inst.qubits.drop n) = true →
    ∀ k < n - 1, v.SquaresTo (w.rootAt k) (w.rootAt (k + 1))
  /-- The angles of known roots are exact. -/
  known : inst.ScalesAt v.angle

/-- The same for all that is lowered on the way. -/
def FaithfulFrom (free : List Nat) (inst : Instruction) : Prop :=
  ∀ part, Relation.ReflTransGen (Calls free) inst part → v.FaithfulAt free part

theorem hasRoots_iff {n : Nat} (hx : x.isUnitary = true) (hqubit : x.numQubits = 1) :
    v.semantics.HasRoots x n ↔ ∀ k < n, v.SquaresTo (x.rootAt k) (x.rootAt (k + 1)) := by
  have hroot : ∀ k, (x.rootAt k).isUnitary = true := fun k => by rw [Operation.isUnitary_rootAt, hx]
  have hwidth : ∀ k, (x.rootAt k).numQubits = 1 := fun k => by
    rw [Operation.numQubits_rootAt, hqubit]
  refine forall₂_congr fun k _ => ?_
  rw [v.qubitMatrix_mul_self_iff (hroot k) (hroot (k + 1)) (hwidth k) (hwidth (k + 1)),
    and_iff_left (v.semantics.qubitMatrix_invert_mul (hroot (k + 1)) (hwidth (k + 1)))]

theorem faithfulAt_iff (hinst : inst.ApartFrom free) :
    v.semantics.FaithfulAt free inst ↔ v.FaithfulAt free inst := by
  have honly : ∀ {e : Exponent} {w only : Operation}, inst.operation = .powered e w →
      Lowers free (w.on inst.qubits) [only.on inst.qubits] → only.isUnitary = true := by
    intro e w only hop hlowers
    have hw := hinst.wrapped (Or.inr hop)
    exact (hlowers.yields hw.valid _ List.mem_cons_self).unitary hw.unitary
  constructor
  · intro h
    refine ⟨fun hop hnone hlowers hchanged => ?_, fun hop hqubit hlowers hsame => ?_, h.known⟩
    · exact (v.raisesMatrix_iff (honly hop hlowers)).1 (h.power hop hnone hlowers hchanged)
    · exact (v.hasRoots_iff (hinst.targets hop).unitary hqubit).1 (h.roots hop hqubit hlowers hsame)
  · intro h
    refine ⟨fun hop hnone hlowers hchanged => ?_, fun hop hqubit hlowers hsame => ?_, h.known⟩
    · exact (v.raisesMatrix_iff (honly hop hlowers)).2 (h.power hop hnone hlowers hchanged)
    · exact (v.hasRoots_iff (hinst.targets hop).unitary hqubit).2 (h.roots hop hqubit hlowers hsame)

theorem faithfulFrom_iff (hinst : inst.ApartFrom free) :
    v.semantics.FaithfulFrom free inst ↔ v.FaithfulFrom free inst :=
  forall₂_congr fun _ hreaches => v.faithfulAt_iff (hinst.reaches hreaches)

end Valuation

section Copy

/-- One copy of a power of Y.  A power of it, not simplified, is a power of a copy of a power. -/
def copiedPower (p : Exponent) : Operation :=
  .repeated 1 (.powered p (.gate .y))

variable {free : List Nat} {p e r : Exponent} {q : Nat}

/-- Powers of Y stay as they are. -/
theorem lowers_powered_y (hp : p.natural? = none) :
    Lowers free ((Operation.powered p (.gate .y)).on [q])
      [(Operation.powered p (.gate .y)).on [q]] := by
  have hsame : ∀ only, [(Operation.gate .y).on [q]] = [only] →
      isUnchanged [only] (.gate .y) [q] = true := by
    rintro only ⟨⟩
    exact isUnchanged_on _ _ _
  refine LowerStep.lowers (valid_on_qubit rfl rfl q) (.keep ?_ ?_ ?_)
  · simp [Operation.kind]
  · simp [Operation.kind]
  · exact .powered rfl hp rfl (valid_on_qubit rfl rfl q) (lowers_gate rfl) hsame

theorem lowers_copiedPower (hp : p.natural? = none) :
    Lowers free ((copiedPower p).on [q]) [(Operation.powered p (.gate .y)).on [q]] :=
  Lowers.copy Nat.one_pos (valid_on_qubit rfl rfl q) (valid_on_qubit rfl rfl q)
    (lowers_powered_y hp)

theorem raise_powered_y (he : e.natural? = none) (hpe : p * e = r) (hr : r.natural? = none) :
    (Operation.powered p (.gate .y)).raise e = .powered r (.gate .y) := by
  rw [Operation.raise_powered (Exponent.isOne_of_natural?_eq_none he), hpe,
    Operation.raise_eq_powered (Exponent.isOne_of_natural?_eq_none hr) (by simp [Operation.kind])]

/-- The exponents are multiplied, although the power is not of a power of Y but of a copy. -/
theorem lowers_powered_copiedPower (hp : p.natural? = none) (he : e.natural? = none)
    (hpe : p * e = r) (hr : r.natural? = none) :
    Lowers free ((Operation.powered e (copiedPower p)).on [q])
      [(Operation.powered r (.gate .y)).on [q]] := by
  have hpower : (Operation.powered p (.gate .y)).power e = .ok (.powered r (.gate .y)) := by
    rw [Operation.power_eq_ok rfl, raise_powered_y he hpe hr]
  exact LowerStep.lowers (valid_on_qubit rfl rfl q) (.powerOf rfl (valid_on_qubit rfl rfl q)
    (lowers_copiedPower hp) hpower (valid_on_qubit rfl rfl q) (lowers_powered_y hr) he rfl
    (isUnchanged_on _ _ _))

theorem lower_copiedPower (hp : p.natural? = none) :
    ((copiedPower p).on [0]).lower [] = .done [(Operation.powered p (.gate .y)).on [0]] :=
  LoweringConfig.lower_eq_done_of_lowers (valid_on_qubit rfl rfl 0) (lowers_copiedPower hp)

theorem lower_powered_copiedPower (hp : p.natural? = none) (he : e.natural? = none)
    (hpe : p * e = r) (hr : r.natural? = none) :
    ((Operation.powered e (copiedPower p)).on [0]).lower [] =
      .done [(Operation.powered r (.gate .y)).on [0]] :=
  LoweringConfig.lower_eq_done_of_lowers (valid_on_qubit rfl rfl 0)
    (lowers_powered_copiedPower hp he hpe hr)

theorem exact_powered_y (hp : p.natural? = none) : (Operation.powered p (.gate .y)).Exact 0 := by
  have hroots : ∀ e : Exponent, e.HalvesExactly 0 := fun e k hk => absurd hk (Nat.not_lt_zero _)
  have hone := Exponent.isOne_of_natural?_eq_none hp
  exact ⟨rfl, ⟨hone, by simp [Operation.kind], trivial⟩, fun _ => hroots p, hroots _⟩

theorem exact_copiedPower (hp : p.natural? = none) : (copiedPower p).Exact 0 := by
  have hw := exact_powered_y hp
  exact ⟨rfl, ⟨Nat.one_pos, by simp [Operation.kind], hw.canonical⟩, hw.roots⟩

/-- Without qubits to borrow an operation on one qubit may be lowered. -/
theorem lowerable_on_qubit {op : Operation} (hop : op.Exact 0) (hqubit : op.numQubits = 1) :
    (op.on [q]).Lowerable 0 [] :=
  ⟨valid_on_qubit hop.unitary hqubit q, hop, List.nodup_nil, by simp⟩

open Operation in
/-- Y, its power and a copy of this call nothing else. -/
theorem mem_of_calls_copiedPower (hp : p.natural? = none) {inst other : Instruction}
    (hinst : inst.operation ∈ [copiedPower p, powered p (.gate .y), .gate .y])
    (hcalls : Calls free inst other) :
    other.operation ∈ [copiedPower p, powered p (.gate .y), .gate .y] := by
  simp only [copiedPower, List.mem_cons, List.not_mem_nil, or_false] at hinst ⊢
  have hpower : ∀ {e : Exponent} {w : Operation}, inst.operation = .powered e w →
      e = p ∧ w = .gate .y := fun hop => by simpa [hop] using hinst
  cases hcalls with
  | @step g before after step hop hsteps =>
      obtain rfl : g = .y := by simpa [hop] using hinst
      cases hsteps
  | inverted hop => simp [hop] at hinst
  | @block n w before after block hop =>
      obtain ⟨-, rfl⟩ : n = 1 ∧ w = powered p (.gate .y) := by simpa [hop] using hinst
      exact Or.inr (Or.inl rfl)
  | times hop hn =>
      obtain ⟨rfl, rfl⟩ := hpower hop
      cases hp.symm.trans hn
  | root hop hnone hroot =>
      obtain ⟨rfl, rfl⟩ := hpower hop
      cases hroot
  | powered hop =>
      obtain ⟨rfl, rfl⟩ := hpower hop
      exact Or.inr (Or.inr rfl)
  | powerOf hop hnone hroot hvalid hlowers hchanged =>
      obtain ⟨rfl, rfl⟩ := hpower hop
      rw [hlowers.unique (lowers_gate rfl), isUnchanged_on] at hchanged
      cases hchanged
  | controlled hop => simp [hop] at hinst

/-- None of these has a known root. -/
theorem scalesFrom_copiedPower (angle : Scalar → ℝ) (hp : p.natural? = none) {inst : Instruction}
    (hinst : inst.operation ∈ [copiedPower p, .powered p (.gate .y), .gate .y]) :
    inst.ScalesFrom angle free := by
  intro part hreaches
  have hpart : part.operation ∈ [copiedPower p, .powered p (.gate .y), .gate .y] := by
    induction hreaches with
    | refl => exact hinst
    | tail _ hcalls ih => exact mem_of_calls_copiedPower hp ih hcalls
  intro e g root hop _ hroot
  obtain ⟨-, rfl⟩ : e = p ∧ g = .y := by simpa [hop, copiedPower] using hpart
  cases hroot

theorem Valuation.faithfulFrom_copiedPower (v : Valuation) {op : Operation} (hop : op.Exact 0)
    (hqubit : op.numQubits = 1) (hp : p.natural? = none)
    (hmem : op ∈ [copiedPower p, .powered p (.gate .y), .gate .y]) :
    v.FaithfulFrom [] (op.on [q]) := by
  have hlowerable : (op.on [q]).Lowerable 0 [] := lowerable_on_qubit hop hqubit
  exact (v.faithfulFrom_iff hlowerable.apart).1
    (v.semantics.faithfulFrom_of_lowerable hlowerable (scalesFrom_copiedPower _ hp hmem))

theorem rational_mul_half {a b : Rat} (h : (Exponent.rational a).MultipliesExactly .half)
    (hb : a / 2 = b) : Exponent.rational a * .half = .rational b := by
  have hproduct : Exponent.rational a * .half = .rational (a * mkRat 1 2) :=
    Exponent.MultipliesExactly.mul_eq h
  rw [hproduct, ← hb, Rat.mkRat_eq_div, Nat.cast_ofNat, Int.cast_one, mul_one_div]

end Copy

namespace Valuation

variable (v : Valuation) {ancillae qubits : List Nat} {w : Operation} {e : Exponent} {n : Nat}

/-- The gates that a gate is lowered to have matrices, and are on its qubits or borrowed ones. -/
theorem gateBelow_of_lowers {free : List Nat} {inst part : Instruction} {emitted : List Instruction}
    (hinst : inst.ApartFrom free) (h : Lowers free inst emitted)
    (hbelow : ∀ q ∈ inst.qubits ++ free, q < n) (hpart : part ∈ emitted) :
    part.GateBelow (.exact v.reading) n := by
  have hyields := h.yields hinst.valid part hpart
  have hunitary := hyields.unitary hinst.unitary
  exact ⟨hyields.valid, hunitary, v.exists_matrix hunitary,
    fun q hq => hbelow q (hyields.qubits_subset hq)⟩

/-- Where what is under a power becomes one other instruction, the power is lowered as the power
of that instruction.  What this emits has the power of the exact matrix, by the principal powers
of its eigenvalues, exactly if raising that instruction gives this matrix.  It does if the exponents
that are merged stay on the principal branch. -/
theorem lowered_power_is_matrix_power_iff (hancillae : ancillae.Nodup)
    (hunitary : w.isUnitary = true) (hvalid : ((Operation.powered e w).on qubits).Valid)
    (hnone : e.natural? = none) {only : Instruction} {emitted : List Instruction}
    (hw : (w.on qubits).lower ancillae = .done [only])
    (hchanged : isUnchanged [only] w qubits = false)
    (h : ((Operation.powered e w).on qubits).lower ancillae = .done emitted)
    (hinner : v.FaithfulFrom ((w.on qubits).free ancillae) (w.on qubits))
    (hagain : v.FaithfulFrom ((w.on qubits).free ancillae)
      ((only.operation.raise e).on qubits))
    (hbelow : ∀ q ∈ qubits ++ ancillae, q < n) (name : String) :
    only.operation.power e = .ok (only.operation.raise e) ∧
    ((only.operation.raise e).on qubits).lower ancillae = .done emitted ∧
    ∃ m r, w.matrixOver (.exact v.reading) = .ok m ∧
      only.operation.matrixOver (.exact v.reading) = .ok m ∧
      (Operation.powered e w).matrixOver (.exact v.reading) = .ok (m.exactPower e) ∧
      (only.operation.raise e).matrixOver (.exact v.reading) = .ok r ∧
      ((⟨name, emitted⟩ : Circuit).unitaryOver (.exact v.reading) n =
          (⟨name, [(Operation.powered e w).on qubits]⟩ : Circuit).unitaryOver
            (.exact v.reading) n ↔
        r = m.exactPower e) ∧
      (only.operation.StaysPrincipal e → r = m.exactPower e) := by
  let S := v.semantics
  have hfree := (w.on qubits).free_nodup hancillae
  have hinst : ((Operation.powered e w).on qubits).ApartFrom ((w.on qubits).free ancillae) :=
    ⟨hvalid, hunitary, hunitary, fun q hq => (Instruction.mem_free_iff.1 hq).2⟩
  have hlowersW := Instruction.lowers_of_lower hw
  have hlowers := Instruction.lowers_of_lower h
  have hwhole : (w.on qubits).ApartFrom _ := hinst.wrapped (Or.inr rfl)
  obtain ⟨other, rfl⟩ := hlowersW.only_on hwhole.valid
  rw [isUnchanged_on] at hchanged
  have hyields := hlowersW.yields hwhole.valid _ List.mem_cons_self
  have hother : other.isUnitary = true := hyields.unitary hunitary
  obtain ⟨hpower, hraised⟩ := hinst.powerOf rfl hlowersW
  have hinner' := (v.faithfulFrom_iff hwhole).2 hinner
  obtain ⟨m, hm : v.HasMatrix w m⟩ := v.exists_matrix hunitary
  obtain ⟨m', hm' : v.HasMatrix other m'⟩ := v.exists_matrix hother
  obtain ⟨r, hr : v.HasMatrix (other.raise e) r⟩ := v.exists_matrix hraised.unitary
  -- What is under the power and the one instruction that it becomes have the same matrix.
  obtain rfl : m' = m := by
    have hrun : S.run [other.on qubits] = S.operator w qubits :=
      S.run_of_lowers hfree hwhole hinner' hlowersW
    rw [S.run_singleton] at hrun
    exact (hm'.operator_eq_iff hm hother hunitary hyields.valid.qubits_length
      hwhole.valid.qubits_length hwhole.valid.qubits_nodup).1 hrun
  have hraises : v.RaisesMatrix other e ↔ r = m'.exactPower e := by
    constructor
    · rintro ⟨m, hm, hr'⟩
      obtain rfl := Except.ok.inj (hm'.symm.trans hm)
      exact Except.ok.inj (hr.symm.trans hr')
    · rintro rfl
      exact ⟨m', hm', hr⟩
  refine ⟨hpower, ?_, m', r, hm, hm', Operation.matrixOver_powered hm, hr, ?_, fun hstays => ?_⟩
  · exact LoweringConfig.lower_eq_done_of_lowers hraised.valid
      (lowers_raise_of_powered hnone hlowersW hchanged hlowers)
  · have hborrowed : ∀ q ∈ qubits ++ (w.on qubits).free ancillae, q < n := fun q hq =>
      hbelow q ((List.mem_append.1 hq).elim (List.mem_append_left _)
        fun hq => List.mem_append_right _ (Instruction.mem_free_iff.1 hq).1)
    have hself : ∀ part ∈ [(Operation.powered e w).on qubits],
        part.GateBelow (.exact v.reading) n := by
      refine List.forall_mem_singleton.2 ⟨hvalid, hunitary, v.exists_matrix hunitary, ?_⟩
      exact fun q hq => hbelow q (List.mem_append_left _ hq)
    rw [v.reads.unitary_eq_iff (LeafMatrices.sized_exact v.reading) name name
        (fun part => v.gateBelow_of_lowers hinst hlowers hborrowed) hself,
      ← hraises, ← v.raisesMatrix_iff hother, Semantics.run_singleton]
    exact S.run_powered_iff hfree hinst hnone hlowersW hchanged hlowers hinner'
      ((v.faithfulFrom_iff hraised).2 hagain)
  · exact hraises.1 ((v.raisesMatrix_iff hother).1
      (ExactSemantics.TakesPrincipalPowers.raisesMatrix v.takesPrincipalPowers hother hstays))

open Operation in
/-- Half of a copy of the power 3/4 of Y. -/
theorem lowered_power_is_matrix_power_iff_copy :
    let reading := Valuation.plain.reading
    let copied := copiedPower (.rational (3 / 4))
    let merged := (powered (.rational (3 / 8)) (.gate .y)).on [0]
    (copied.on [0]).lower [] = .done [(powered (.rational (3 / 4)) (.gate .y)).on [0]] ∧
    ((powered .half copied).on [0]).lower [] = .done [merged] ∧
    ∃ m r, copied.matrixOver (.exact reading) = .ok m ∧
      merged.operation.matrixOver (.exact reading) = .ok r ∧ r = m.exactPower .half ∧
      (⟨"", [merged]⟩ : Circuit).unitaryOver (.exact reading) 1 =
        (⟨"", [(powered .half copied).on [0]]⟩ : Circuit).unitaryOver (.exact reading) 1 := by
  intro reading copied merged
  have hp : (Exponent.rational (3 / 4)).natural? = none := by decide +kernel
  have he : Exponent.half.natural? = none := rfl
  have hr : (Exponent.rational (3 / 8)).natural? = none := by decide +kernel
  have hpe : Exponent.rational (3 / 4) * .half = .rational (3 / 8) :=
    rational_mul_half (by decide +kernel) (by norm_num)
  have hw := lower_copiedPower hp
  have h := lower_powered_copiedPower hp he hpe hr
  have hraise := raise_powered_y he hpe hr
  have hstays : (powered (.rational (3 / 4)) (.gate .y)).StaysPrincipal .half :=
    Or.inr ⟨by decide +kernel, Or.inr (by decide +kernel), trivial⟩
  have hagain : Valuation.plain.FaithfulFrom []
      (((powered (.rational (3 / 4)) (.gate .y)).raise .half).on [0]) := by
    rw [hraise]
    exact Valuation.plain.faithfulFrom_copiedPower (exact_powered_y hr) rfl hr (by simp)
  obtain ⟨-, -, m, r, hm, -, -, hmatrix, hiff, hprincipal⟩ :=
    Valuation.plain.lowered_power_is_matrix_power_iff List.nodup_nil rfl
      (valid_on_qubit rfl rfl 0) he hw (isUnchanged_on _ _ _) h
      (Valuation.plain.faithfulFrom_copiedPower (exact_copiedPower hp) rfl hp (by simp)) hagain
      (n := 1) (by simp) ""
  rw [Operation.operation_on, hraise] at hmatrix
  exact ⟨hw, h, m, r, hm, hmatrix, hprincipal hstays, hiff.2 (hprincipal hstays)⟩

end Valuation

open Operation in
/-- The power 3/2 takes the angle of the eigenvalue minus one past a half turn, and the principal
root starts from the other side. -/
theorem half_of_power_of_y_ne (v : Valuation) :
    v.semantics.operator (powered (.rational (3 / 4)) (.gate .y)) [0] ≠
      v.semantics.operator (powered .half (powered (.rational (3 / 2)) (.gate .y))) [0] := by
  intro hoperator
  have hplaces : place [0] (principalPower pauliY (Exponent.rational (3 / 4)).number) =
      place [0] (principalPower (principalPower pauliY (Exponent.rational (3 / 2)).number)
        Exponent.half.number) := hoperator
  have hmatrices := place_injective rfl (List.nodup_singleton 0) hplaces
  have hpast : ((Exponent.rational (3 / 2)).number : ℝ) ∈ Set.Ioc 1 3 := by
    norm_num [Exponent.number]
  rw [principalPower_principalPower pauliY_mem pauliY_mul_self hpast] at hmatrices
  have hnumbers := eq_of_principalPower_eq pauliY_mem pauliY_mul_self pauliY_ne_one
    (by norm_num [Exponent.number])
    (by norm_num [Exponent.number, Exponent.half, Rat.mkRat_eq_div]) hmatrices
  norm_num [Exponent.number, Exponent.half, Rat.mkRat_eq_div] at hnumbers

open Operation in
/-- Half of a copy of the power 3/2 of Y becomes the power 3/4 of Y, which is not the principal
root. -/
theorem half_of_copied_power_is_no_matrix_power :
    let reading := Valuation.plain.reading
    let copied := copiedPower (.rational (3 / 2))
    let merged := (powered (.rational (3 / 4)) (.gate .y)).on [0]
    copied.isUnitary = true ∧ Exponent.half.natural? = none ∧
    (copied.on [0]).lower [] = .done [(powered (.rational (3 / 2)) (.gate .y)).on [0]] ∧
    isUnchanged [(powered (.rational (3 / 2)) (.gate .y)).on [0]] copied [0] = false ∧
    ((powered .half copied).on [0]).lower [] = .done [merged] ∧
    (⟨"", [merged]⟩ : Circuit).unitaryOver (.exact reading) 1 ≠
      (⟨"", [(powered .half copied).on [0]]⟩ : Circuit).unitaryOver (.exact reading) 1 := by
  intro reading copied merged
  let v := Valuation.plain
  have hp : (Exponent.rational (3 / 2)).natural? = none := by decide +kernel
  have he : Exponent.half.natural? = none := rfl
  have hr : (Exponent.rational (3 / 4)).natural? = none := by decide +kernel
  have hpe : Exponent.rational (3 / 2) * .half = .rational (3 / 4) :=
    rational_mul_half (by decide +kernel) (by norm_num)
  have hnodup : [0].Nodup := List.nodup_singleton 0
  have hgate : ∀ {op : Operation}, op.isUnitary = true → op.numQubits = 1 →
      ∀ part ∈ [op.on [0]], part.GateBelow (.exact reading) 1 := fun hunitary hqubit =>
    List.forall_mem_singleton.2 ⟨valid_on_qubit hunitary hqubit 0, hunitary,
      v.exists_matrix hunitary, by simp⟩
  refine ⟨rfl, he, lower_copiedPower hp, isUnchanged_on _ _ _,
    lower_powered_copiedPower hp he hpe hr, fun hsame => ?_⟩
  have hrun := (v.reads.unitary_eq_iff (LeafMatrices.sized_exact reading) "" ""
    (hgate rfl rfl) (hgate rfl rfl)).1 hsame
  have hcopy : v.semantics.operator (.powered .half copied) [0] =
      v.semantics.operator (.powered .half (.powered (.rational (3 / 2)) (.gate .y))) [0] :=
    v.semantics.operator_powered_congr rfl rfl hnodup (v.semantics.operator_copy rfl hnodup)
  rw [Semantics.run_singleton, Semantics.run_singleton] at hrun
  exact half_of_power_of_y_ne v (hrun.trans hcopy)

end GateAlgebra
