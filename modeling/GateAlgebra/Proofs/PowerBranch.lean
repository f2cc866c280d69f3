import Mathlib.Algebra.Group.Pointwise.Set.Basic
import GateAlgebra.Proofs.Eigenvalues
import GateAlgebra.Proofs.ModifierLaws
/-!
The branch of a power.  Where exponents are multiplied or a power is taken inside copies, the
eigenvalues of the power need not be the principal powers of the eigenvalues.  The power of an
operation is the power of its matrix exactly if they are.
-/

namespace GateAlgebra

open scoped Pointwise

namespace DenseMatrix

variable {r r' m m' : DenseMatrix ℂ} {pairs pairs' : Set (ℂ × ℂ)}

/-- Two matrices have the eigenvectors in common, and these are the pairs of their
eigenvalues. -/
def Paired (r m : DenseMatrix ℂ) (pairs : Set (ℂ × ℂ)) : Prop :=
  ∃ (q : DenseMatrix ℂ) (f : Nat → ℂ × ℂ), q.IsUnitary ∧ 0 < q.rows ∧
    r = q.eigenform (fun i => (f i).1) ∧ m = q.eigenform (fun i => (f i).2) ∧
    pairs = f '' Set.Iio q.rows

theorem Paired.eq_exactPower_iff (h : r.Paired m pairs) (e : Exponent) :
    r = m.exactPower e ↔ ∀ pair ∈ pairs, pair.1 = e.principal pair.2 := by
  obtain ⟨q, f, hq, -, rfl, rfl, rfl⟩ := h
  rw [hq.exactPower_eigenform, hq.eigenform_eq_iff, Set.forall_mem_image]
  rfl

/-- A matrix beside the matrices that functions of its eigenvalues give. -/
theorem IsUnitary.paired (hm : m.IsUnitary) (hpos : 0 < m.rows) (p e : Exponent) :
    (m.exactPower p).Paired (m.exactPower e)
      ((fun z => (p.principal z, e.principal z)) '' m.eigenvalues) := by
  obtain ⟨q, z, hq, rfl⟩ := hm.exists_eq_eigenform
  refine ⟨q, fun i => (p.principal (z i), e.principal (z i)), hq, hpos,
    hq.exactPower_eigenform p, hq.exactPower_eigenform e, ?_⟩
  rw [hq.eigenvalues_eigenform, Set.image_image]

theorem IsUnitary.paired_self (hm : m.IsUnitary) (hpos : 0 < m.rows) (e : Exponent) :
    (m.exactPower e).Paired m ((fun z => (e.principal z, z)) '' m.eigenvalues) := by
  have hone : (Exponent.rational 1).isOne = true := rfl
  have hpaired := hm.paired hpos e (.rational 1)
  simp only [hm.exactPower_of_isOne hone, Exponent.principal_of_isOne hone] at hpaired
  exact hpaired

/-- Outside of the block both have the eigenvalue one. -/
theorem Paired.control (h : r.Paired m pairs) {n : Nat} (hn : 0 < n) :
    (r.control n).Paired (m.control n) (insert 1 pairs) := by
  obtain ⟨q, f, hq, hpos, rfl, rfl, rfl⟩ := h
  have hblock : q.rows < q.rows * dimension n :=
    lt_mul_of_one_lt_right hpos (Nat.one_lt_two_pow (Nat.ne_of_gt hn))
  let g : Nat → ℂ × ℂ := fun i =>
    if i < q.rows * dimension n - q.rows then 1 else f (i - (q.rows * dimension n - q.rows))
  have habove : ∀ i < q.rows * dimension n - q.rows, g i = 1 := fun i hi => if_pos hi
  have hwithin : ∀ i, g (q.rows * dimension n - q.rows + i) = f i := fun i => by
    refine (if_neg (Nat.not_lt.2 (Nat.le_add_right _ i))).trans ?_
    rw [Nat.add_sub_cancel_left]
  refine ⟨q.control n, g, hq.control n, hpos.trans hblock, ?_, ?_, Set.ext fun pair => ?_⟩
  · rw [hq.control_eigenform]
    exact congrArg _ (funext fun i => (apply_ite Prod.fst _ (1 : ℂ × ℂ) _).symm)
  · rw [hq.control_eigenform]
    exact congrArg _ (funext fun i => (apply_ite Prod.snd _ (1 : ℂ × ℂ) _).symm)
  · constructor
    · rintro (rfl | ⟨i, hi, rfl⟩)
      · exact ⟨0, hpos.trans hblock, habove 0 (Nat.sub_pos_of_lt hblock)⟩
      · refine ⟨_, Set.mem_Iio.2 ?_, hwithin i⟩
        have hi : i < q.rows := hi
        rw [rows_control]
        omega
    · rintro ⟨i, hi, rfl⟩
      rcases control_index_cases n hi with hi | ⟨k, hk, rfl⟩
      · exact Or.inl (habove i hi)
      · exact Or.inr ⟨k, hk, (hwithin k).symm⟩

/-- An eigenvector of a tensor product is a pair of eigenvectors. -/
theorem Paired.tensor (h : r.Paired m pairs) (h' : r'.Paired m' pairs') :
    (r.tensor r').Paired (m.tensor m') (pairs * pairs') := by
  obtain ⟨q, f, hq, hpos, rfl, rfl, rfl⟩ := h
  obtain ⟨q', f', hq', hpos', rfl, rfl, rfl⟩ := h'
  refine ⟨q.tensor q', fun i => f (i / q'.rows) * f' (i % q'.rows), hq.tensor hq',
    Nat.mul_pos hpos hpos', hq.tensor_eigenform hq', hq.tensor_eigenform hq', ?_⟩
  ext pair
  constructor
  · rintro ⟨_, ⟨i, hi, rfl⟩, _, ⟨j, hj, rfl⟩, rfl⟩
    refine ⟨i * q'.rows + j, index_lt hi hj, ?_⟩
    have hj : j < q'.rows := hj
    have hdiv : (i * q'.rows + j) / q'.rows = i := by
      rw [Nat.mul_comm, Nat.mul_add_div hpos', Nat.div_eq_of_lt hj, Nat.add_zero]
    have hmod : (i * q'.rows + j) % q'.rows = j := by
      rw [Nat.mul_comm, Nat.mul_add_mod, Nat.mod_eq_of_lt hj]
    change f _ * f' _ = _
    rw [hdiv, hmod]
  · rintro ⟨i, hi, rfl⟩
    obtain ⟨hdiv, hmod⟩ := div_mod_lt hi
    exact Set.mul_mem_mul ⟨_, hdiv, rfl⟩ ⟨_, hmod, rfl⟩

theorem Paired.tensorPower (h : r.Paired m pairs) (n : Nat) :
    (r.tensorPower n).Paired (m.tensorPower n) (pairs ^ n) := by
  induction n with
  | zero =>
      have hself : (identity 1 : DenseMatrix ℂ) * identity 1 = identity 1 :=
        identity_mul (identity 1)
      have hone : (identity 1).eigenform (fun _ => 1) = identity 1 := by
        rw [eigenform, adjoint_identity]
        change identity 1 * identity 1 * identity 1 = identity 1
        rw [hself, hself]
      refine ⟨identity 1, fun _ => 1, isUnitary_identity 1, Nat.one_pos, hone.symm, hone.symm, ?_⟩
      rw [pow_zero, ← Set.singleton_one]
      exact (Set.Nonempty.image_const ⟨0, Nat.one_pos⟩ 1).symm
  | succ n ih =>
      rw [pow_succ]
      exact ih.tensor h

end DenseMatrix

namespace Operation

/-- The eigenvalues of the matrix, if there is one. -/
def eigenvalues (leaves : LeafMatrices ℂ) (x : Operation) : Set ℂ :=
  {z | ∃ m, x.matrixOver leaves = .ok m ∧ z ∈ m.eigenvalues}

/-- The eigenvalues of an operation raised to a power, each beside the eigenvalue of the operation
itself. -/
def phases (leaves : LeafMatrices ℂ) (e : Exponent) : Operation → Set (ℂ × ℂ)
  | controlled _ w => insert 1 (w.phases leaves e)
  | repeated n w => w.phases leaves e ^ n
  | powered p w =>
      (fun z => ((if e.isOne then p else p * e).principal z, p.principal z)) ''
        w.eigenvalues leaves
  | x => (fun z => (e.principal z, z)) '' x.eigenvalues leaves

variable {reading : Reading} {x w : Operation} {m : DenseMatrix ℂ} {e p : Exponent}

theorem eigenvalues_of_matrixOver {leaves : LeafMatrices ℂ} (hm : x.matrixOver leaves = .ok m) :
    x.eigenvalues leaves = m.eigenvalues := by
  ext z
  constructor
  · rintro ⟨m', hm', hz⟩
    obtain rfl := Except.ok.inj (hm.symm.trans hm')
    exact hz
  · exact fun hz => ⟨m, hm, hz⟩

theorem isUnitary_matrix (hunitary : x.isUnitary = true)
    (hm : x.matrixOver (.exact reading) = .ok m) : m.IsUnitary ∧ 0 < m.rows := by
  refine ⟨isUnitary_matrixOver (LeafMatrices.unitary_exact reading) hunitary hm, ?_⟩
  rw [rows_matrixOver (LeafMatrices.sized_exact reading) hunitary hm]
  exact dimension_pos _

theorem matrixOver_powered (hm : x.matrixOver (.exact reading) = .ok m) :
    (powered e x).matrixOver (.exact reading) = .ok (m.exactPower e) := by
  rw [matrixOver, hm]
  rfl

/-- Where nothing is merged or taken inside, the power of the operation is that of its matrix. -/
theorem matrixOver_raise (hkind : x.kind ∉ [.powered, .controlled, .repeated])
    (hunitary : x.isUnitary = true) (hm : x.matrixOver (.exact reading) = .ok m) :
    (x.raise e).matrixOver (.exact reading) = .ok (m.exactPower e) := by
  cases he : e.isOne with
  | true => rw [raise_of_isOne he, hm, (isUnitary_matrix hunitary hm).1.exactPower_of_isOne he]
  | false => rw [raise_eq_powered he hkind, matrixOver_powered hm]

/-- The exponent one takes part in no product. -/
theorem matrixOver_raise_powered (hkind : w.kind ∉ [.powered, .controlled, .repeated])
    (hunitary : w.isUnitary = true) (hm : w.matrixOver (.exact reading) = .ok m) :
    ((powered p w).raise e).matrixOver (.exact reading) =
      .ok (m.exactPower (if e.isOne then p else p * e)) := by
  cases he : e.isOne with
  | true => rw [raise_of_isOne he, if_pos rfl, matrixOver_powered hm]
  | false =>
      rw [raise_powered he, matrixOver_raise hkind hunitary hm, if_neg Bool.false_ne_true]

/-- Raising an operation to a power keeps the eigenvectors of its matrix. -/
theorem paired_raise (hcanonical : x.Canonical) (hunitary : x.isUnitary = true)
    (hm : x.matrixOver (.exact reading) = .ok m) :
    ∃ r, (x.raise e).matrixOver (.exact reading) = .ok r ∧
      r.Paired m (x.phases (.exact reading) e) := by
  have hleaf : ∀ {y : Operation} {m : DenseMatrix ℂ},
      y.kind ∉ [.powered, .controlled, .repeated] → y.isUnitary = true →
      y.matrixOver (.exact reading) = .ok m →
      ∃ r, (y.raise e).matrixOver (.exact reading) = .ok r ∧
        r.Paired m ((fun z => (e.principal z, z)) '' y.eigenvalues (.exact reading)) := by
    intro y m hkind hunitary hm
    obtain ⟨hmatrix, hpos⟩ := isUnitary_matrix hunitary hm
    refine ⟨_, matrixOver_raise hkind hunitary hm, ?_⟩
    rw [eigenvalues_of_matrixOver hm]
    exact hmatrix.paired_self hpos e
  induction x generalizing m with
  | controlled n w ih =>
      rw [matrixOver_controlled] at hm
      obtain ⟨inner, hw, rfl⟩ := map_eq_ok_iff.1 hm
      obtain ⟨r, hr, hpaired⟩ := ih hcanonical.2.2 hunitary hw
      refine ⟨r.control n, ?_, hpaired.control hcanonical.1⟩
      rw [raise_inside_controlled, matrixOver_controlled, hr]
      rfl
  | repeated n w ih =>
      rw [matrixOver_repeated] at hm
      obtain ⟨inner, hw, rfl⟩ := map_eq_ok_iff.1 hm
      obtain ⟨r, hr, hpaired⟩ := ih hcanonical.2.2 hunitary hw
      refine ⟨r.tensorPower n, ?_, hpaired.tensorPower n⟩
      rw [raise_inside_repeated, matrixOver_repeated, hr]
      rfl
  | powered p w ih =>
      have hw : w.isUnitary = true := hunitary
      rw [matrixOver] at hm
      obtain ⟨inner, hinner, hpower⟩ := bind_eq_ok_iff.1 hm
      obtain rfl := Except.ok.inj hpower
      obtain ⟨hmatrix, hpos⟩ := isUnitary_matrix hw hinner
      refine ⟨_, matrixOver_raise_powered hcanonical.2.1 hw hinner, ?_⟩
      rw [phases, eigenvalues_of_matrixOver hinner]
      exact hmatrix.paired hpos _ p
  | gate g => exact hleaf (by simp [kind]) hunitary hm
  | custom g => exact hleaf (by simp [kind]) hunitary hm
  | inverted w => exact hleaf (by simp [kind]) hunitary hm
  | measure | reset | barrier | channel | observable | expectation => cases hunitary

/-- Raising to a power stays on the principal branch.  Exponents multiply exactly, and unless the
power is a whole one, no merged exponent is above one and there are no further copies. -/
def StaysPrincipal (e : Exponent) : Operation → Prop
  | controlled _ w => w.StaysPrincipal e
  | repeated n w => (e.Whole ∨ n = 1) ∧ w.StaysPrincipal e
  | powered p w =>
      e.isOne = true ∨ (p * e).number = p.number * e.number ∧ (e.Whole ∨ p.number ≤ 1) ∧
        w.StaysPrincipal (p * e)
  | _ => True

/-- Whole powers of products are products of powers. -/
theorem principal_of_mem_pow {pairs : Set (ℂ × ℂ)} (he : e.Whole)
    (h : ∀ pair ∈ pairs, pair.1 = e.principal pair.2) (n : Nat) :
    ∀ pair ∈ pairs ^ n, pair.1 = e.principal pair.2 := by
  obtain ⟨k, hk⟩ := he
  induction n with
  | zero =>
      intro pair hpair
      obtain rfl : pair = 1 := by rwa [pow_zero] at hpair
      exact (e.principal_one).symm
  | succ n ih =>
      intro pair hpair
      rw [pow_succ] at hpair
      obtain ⟨front, hfront, last, hlast, rfl⟩ := hpair
      have hboth := congrArg₂ (· * ·) (ih front hfront) (h last hlast)
      simp only [Exponent.principal_of_number hk, ← mul_pow] at hboth ⊢
      exact hboth

theorem StaysPrincipal.phases {leaves : LeafMatrices ℂ} (h : x.StaysPrincipal e) :
    ∀ pair ∈ x.phases leaves e, pair.1 = e.principal pair.2 := by
  induction x with
  | controlled n w ih =>
      rintro pair (rfl | hpair)
      · exact (e.principal_one).symm
      · exact ih h pair hpair
  | repeated n w ih =>
      obtain ⟨hwhole | rfl, hw⟩ := h
      · exact principal_of_mem_pow hwhole (ih hw) n
      · intro pair hpair
        have hpair : pair ∈ w.phases leaves e ^ 1 := hpair
        rw [pow_one] at hpair
        exact ih hw pair hpair
  | powered p w ih =>
      rintro _ ⟨z, -, rfl⟩
      cases he : e.isOne with
      | true => exact (Exponent.principal_of_isOne he _).symm
      | false =>
          obtain ⟨hexact, hbranch, -⟩ := h.resolve_left (by simp [he])
          exact Exponent.principal_of_mul hexact hbranch z
  | _ =>
      rintro _ ⟨z, -, rfl⟩
      rfl

/-- A power that is built has the eigenvectors of the operation, and it is the power of its matrix
exactly if every eigenvalue is the principal power.  On the principal branch it is. -/
theorem power_is_matrix_power_iff (reading : Reading) (hbuilt : Built x) {m : DenseMatrix ℂ}
    (hm : x.matrixOver (.exact reading) = .ok m) (e : Exponent) :
    ∃ y r, x.power e = .ok y ∧ y.matrixOver (.exact reading) = .ok r ∧
      (powered e x).matrixOver (.exact reading) = .ok (m.exactPower e) ∧
      r.Paired m (x.phases (.exact reading) e) ∧
      (r = m.exactPower e ↔
        ∀ pair ∈ x.phases (.exact reading) e, pair.1 = e.principal pair.2) ∧
      (x.StaysPrincipal e → r = m.exactPower e) := by
  have hunitary := isUnitary_of_built hbuilt
  obtain ⟨r, hr, hpaired⟩ := paired_raise (e := e) (canonical_of_built hbuilt) hunitary hm
  have hiff := hpaired.eq_exactPower_iff e
  exact ⟨_, r, power_eq_ok hunitary e, hr, matrixOver_powered hm, hpaired, hiff,
    fun hstays => hiff.2 hstays.phases⟩

theorem built_powered_x {e : Exponent} (he : e.isOne = false) : Built (powered e (.gate .x)) :=
  .power (.gate .x) (power_eq_ok_iff.2 ⟨rfl, (raise_eq_powered he (by simp [kind])).symm⟩)

theorem staysPrincipal_root_x : (powered .half (.gate .x)).StaysPrincipal .half :=
  Or.inr ⟨by decide +kernel, Or.inr rfl, trivial⟩

/-- The root of the root of X. -/
theorem power_is_matrix_power_iff_root_x :
    Built (powered .half (.gate .x)) ∧ ∃ m,
      (powered .half (.gate .x)).matrixOver (.exact .plain) = .ok m ∧
      (powered .half (.gate .x)).StaysPrincipal .half ∧
      ∃ y r, (powered .half (.gate .x)).power .half = .ok y ∧
        y.matrixOver (.exact .plain) = .ok r ∧ r = m.exactPower .half := by
  have hm : (powered .half (.gate .x)).matrixOver (.exact .plain) = .ok _ := rfl
  obtain ⟨y, r, hy, hr, -, -, -, hstays⟩ :=
    power_is_matrix_power_iff .plain (built_powered_x (by decide)) hm .half
  exact ⟨built_powered_x (by decide), _, hm, staysPrincipal_root_x, y, r, hy, hr,
    hstays staysPrincipal_root_x⟩

/-- The square of X is idle, but half of it is X. -/
theorem half_of_square_x_is_no_matrix_power :
    Built (powered (.ofNat 2) (.gate .x)) ∧
    (powered (.ofNat 2) (.gate .x)).power .half = .ok (.gate .x) ∧
    ∃ r m, (Operation.gate .x).matrixOver (.exact .plain) = .ok r ∧
      (powered (.ofNat 2) (.gate .x)).matrixOver (.exact .plain) = .ok m ∧
      r ≠ m.exactPower .half := by
  have hraise : (powered (.ofNat 2) (.gate .x)).raise .half = .gate .x := by
    rw [raise_powered (by decide), raise_of_isOne (by decide +kernel)]
  refine ⟨built_powered_x (by decide), ?_, _, _, rfl, rfl, ?_⟩
  · rw [power_eq_ok rfl, hraise]
  · rw [DenseMatrix.exactPower_pauliX_two, DenseMatrix.exactPower_identity]
    intro h
    have hentry : (0 : ℂ) = 1 := congrArg (·.entry 0 0) h
    exact zero_ne_one hentry

end Operation

end GateAlgebra
