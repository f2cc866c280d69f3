import GateAlgebra.Proofs.Checked
import GateAlgebra.Proofs.Comparable
import GateAlgebra.Proofs.ModifierLaws
import GateAlgebra.Proofs.Valuation
/-!
Powers of one operation.  The modifier algebra gives powers many forms: inside controls and
copies, with exponents multiplied, or without a power where the exponent becomes one.  All the
same they are one family, in which exponents add up when operators are multiplied.
-/

namespace GateAlgebra

/-- A meaning in which controls block, copies are tensor factors and powers with a rational
exponent are powers of matrices.  The laws of powers are asked for of what gates denote, and of
nothing else. -/
structure PowerSemantics (R : Type*) [CommRing R] where
  den : (op : Operation) → BitMatrix R op.numQubits
  /-- The power of a matrix. -/
  power : {k : Nat} → BitMatrix R k → Rat → BitMatrix R k
  den_controlled : ∀ n w, den (.controlled n w) = blockControl n (den w)
  den_repeated : ∀ n w, den (.repeated n w) = tensorPower n (den w)
  den_powered : ∀ r w, 0 ≤ r → den (.powered (.rational r) w) = power (den w) r
  power_zero : ∀ {w : Operation}, w.isUnitary = true → power (den w) 0 = 1
  power_one : ∀ {w : Operation}, w.isUnitary = true → power (den w) 1 = den w
  power_add : ∀ {w : Operation} {p q : Rat}, w.isUnitary = true → 0 ≤ p → 0 ≤ q →
    power (den w) p * power (den w) q = power (den w) (p + q)

/-- Every exact meaning is one. -/
def ExactSemantics.toPowerSemantics {R : Type*} [CommRing R] [StarRing R]
    (S : ExactSemantics R) : PowerSemantics R where
  den := S.den
  power := S.power
  den_controlled := S.den_controlled
  den_repeated := S.den_repeated
  den_powered r w hr := by
    rw [S.den_powered, Exponent.number, max_eq_left hr]
  power_zero hw := S.power_zero (S.den_mem hw)
  power_one hw := S.power_one (S.den_mem hw)
  power_add hw := S.power_add (S.den_mem hw)

namespace Operation

/-- All exponents are fractions of words that are not negative. -/
def RationalExponents (x : Operation) : Prop :=
  ∀ e ∈ x.exponents, ∃ r, e = .rational r ∧ (Exponent.rational r).Checked

/-- No product overflows that raising to this power forms. -/
def RaisesExactly (x : Operation) (r : Rat) : Prop :=
  ∀ pair ∈ x.products (.rational r), pair.1.MultipliesExactly pair.2

instance (x : Operation) (r : Rat) : Decidable (x.RaisesExactly r) :=
  inferInstanceAs (Decidable (∀ pair ∈ _, _))

open Exponent

variable {x w : Operation} {p r : Rat}

/-- What a power of a power multiplies: the two exponents first. -/
theorem RaisesExactly.of_powered (hone : r ≠ 1) (h : (powered (rational p) w).RaisesExactly r) :
    (rational p).MultipliesExactly (rational r) ∧ w.RaisesExactly (p * r) := by
  rw [RaisesExactly, products_powered (isOne_rational_eq_false.2 hone)] at h
  obtain ⟨hpair, hrest⟩ := List.forall_mem_cons.1 h
  rw [hpair.mul_eq] at hrest
  exact ⟨hpair, hrest⟩

/-- No product with zero overflows. -/
theorem RationalExponents.raisesExactly_zero (hx : x.RationalExponents) : x.RaisesExactly 0 := by
  induction x with
  | controlled n w ih =>
      rw [RaisesExactly, products_controlled]
      exact ih hx
  | repeated n w ih =>
      rw [RaisesExactly, products_repeated]
      exact ih hx
  | powered e w ih =>
      obtain ⟨p, rfl, hp⟩ := hx e List.mem_cons_self
      have hpair : (rational p).MultipliesExactly (rational 0) := by
        refine ⟨?_, ?_⟩
        · rw [Rat.num_zero, mul_zero]
          rfl
        · rw [Rat.den_zero, Nat.cast_one, mul_one]
          exact hp.2.2
      rw [RaisesExactly, products_powered (isOne_rational_eq_false.2 zero_ne_one), hpair.mul_eq,
        mul_zero]
      exact List.forall_mem_cons.2 ⟨hpair, ih fun e he => hx e (List.mem_cons_of_mem _ he)⟩
  | _ => simp [RaisesExactly, products]

end Operation

namespace PowerSemantics

open Operation Exponent

variable {R : Type*} [CommRing R] (S : PowerSemantics R)

/-- An operation on target qubits. -/
noncomputable def operator (op : Operation) (qubits : List Nat) : Operator R :=
  place qubits (S.den op)

/-- The powers of what an operation denotes, taken where its own power stands. -/
def family (t : Rat) : (op : Operation) → BitMatrix R op.numQubits
  | .controlled n w => blockControl n (family t w)
  | .repeated n w => tensorPower n (family t w)
  | .powered (.rational r) w => S.power (S.den w) (r * t)
  | op => S.power (S.den op) t

variable {x : Operation} {p q t : Rat}

theorem family_add (hunitary : x.isUnitary = true) (hx : x.RationalExponents) (hp : 0 ≤ p)
    (hq : 0 ≤ q) : S.family p x * S.family q x = S.family (p + q) x := by
  induction x with
  | controlled n w ih =>
      have hblock : blockControl n (S.family p w) * blockControl n (S.family q w) =
          blockControl n (S.family (p + q) w) := by
        rw [blockControl_mul, ih hunitary hx]
      exact hblock
  | repeated n w ih =>
      have hcopies : tensorPower n (S.family p w) * tensorPower n (S.family q w) =
          tensorPower n (S.family (p + q) w) := by
        rw [tensorPower_mul, ih hunitary hx]
      exact hcopies
  | powered e w ih =>
      obtain ⟨r, rfl, hr⟩ := hx e List.mem_cons_self
      have hw : w.isUnitary = true := hunitary
      have hnonneg : 0 ≤ r := Rat.num_nonneg.1 hr.1
      have hpower : S.power (S.den w) (r * p) * S.power (S.den w) (r * q) =
          S.power (S.den w) (r * (p + q)) := by
        rw [mul_add, S.power_add hw (mul_nonneg hnonneg hp) (mul_nonneg hnonneg hq)]
      exact hpower
  | _ => exact S.power_add hunitary hp hq

theorem family_zero (hunitary : x.isUnitary = true) (hx : x.RationalExponents) :
    S.family 0 x = 1 := by
  induction x with
  | controlled n w ih =>
      have hblock : blockControl n (S.family 0 w) = 1 := by
        rw [ih hunitary hx, blockControl_one]
      exact hblock
  | repeated n w ih =>
      have hcopies : tensorPower n (S.family 0 w) = 1 := by
        rw [ih hunitary hx, tensorPower_one]
      exact hcopies
  | powered e w ih =>
      obtain ⟨r, rfl, -⟩ := hx e List.mem_cons_self
      have hw : w.isUnitary = true := hunitary
      have hpower : S.power (S.den w) (r * 0) = 1 := by
        rw [mul_zero, S.power_zero hw]
      exact hpower
  | _ => exact S.power_zero hunitary

theorem family_one (hunitary : x.isUnitary = true) (hx : x.RationalExponents) :
    S.family 1 x = S.den x := by
  induction x with
  | controlled n w ih =>
      have hblock : blockControl n (S.family 1 w) = S.den (.controlled n w) := by
        rw [ih hunitary hx, S.den_controlled]
      exact hblock
  | repeated n w ih =>
      have hcopies : tensorPower n (S.family 1 w) = S.den (.repeated n w) := by
        rw [ih hunitary hx, S.den_repeated]
      exact hcopies
  | powered e w ih =>
      obtain ⟨r, rfl, hr⟩ := hx e List.mem_cons_self
      have hpower : S.power (S.den w) (r * 1) = S.den (.powered (.rational r) w) := by
        rw [mul_one, S.den_powered r w (Rat.num_nonneg.1 hr.1)]
      exact hpower
  | _ => exact S.power_one hunitary

variable {qubits : List Nat}

/-- A power of what takes a modifier for its powers. -/
theorem operator_raise_of_kind {w : Operation} (hw : w.isUnitary = true)
    (hkind : w.kind ∉ [.powered, .controlled, .repeated]) (ht : 0 ≤ t) :
    S.operator (w.raise (.rational t)) qubits = place qubits (S.power (S.den w) t) := by
  by_cases hone : t = 1
  · rw [raise_of_isOne (isOne_rational.2 hone), hone, S.power_one hw]
    rfl
  · rw [raise_eq_powered (isOne_rational_eq_false.2 hone) hkind, operator, S.den_powered t w ht]
    rfl

/-- Whatever form a power has, it denotes the member of the family. -/
theorem operator_raise {P : Nat → Prop} (hcanonical : x.CanonicalWith P)
    (hunitary : x.isUnitary = true) (hx : x.RationalExponents) (ht : 0 ≤ t)
    (hexact : x.RaisesExactly t)
    (hlength : qubits.length = x.numQubits) (hnodup : qubits.Nodup) :
    S.operator (x.raise (.rational t)) qubits = place qubits (S.family t x) := by
  induction x generalizing qubits with
  | controlled n w ih =>
      have hcount : qubits.length = n + w.numQubits := hlength
      have hcount' : qubits.length = n + (w.raise (.rational t)).numQubits := by
        rw [hcount, numQubits_raise]
      have hdrop : (qubits.drop n).length = w.numQubits := by
        rw [List.length_drop, hcount, Nat.add_sub_cancel_left]
      rw [RaisesExactly, products_controlled] at hexact
      have hw := ih hcanonical.2.2 hunitary hx hexact hdrop
        (hnodup.sublist (List.drop_sublist n qubits))
      rw [raise_inside_controlled, operator, S.den_controlled]
      calc place qubits (blockControl n (S.den (w.raise (.rational t))))
          = ctrl (qubits.take n) (S.operator (w.raise (.rational t)) (qubits.drop n)) :=
            place_blockControl hcount' hnodup _
        _ = ctrl (qubits.take n) (place (qubits.drop n) (S.family t w)) := by rw [hw]
        _ = place qubits (blockControl n (S.family t w)) :=
            (place_blockControl hcount hnodup _).symm
  | repeated n w ih =>
      have hwidth : (List.range (w.raise (.rational t)).numQubits).length = w.numQubits := by simp
      rw [RaisesExactly, products_repeated] at hexact
      have hw := ih hcanonical.2.2 hunitary hx hexact hwidth List.nodup_range
      rw [raise_inside_repeated, operator, S.den_repeated]
      exact place_tensorPower_congr (numQubits_raise _ w) hw
  | powered e w ih =>
      obtain ⟨r, rfl, hr⟩ := hx e List.mem_cons_self
      by_cases hone : t = 1
      · subst hone
        rw [raise_of_isOne (isOne_rational.2 rfl), S.family_one hunitary hx]
        rfl
      · -- The product of the exponents may be one, and then the power is gone altogether.
        rw [raise_powered (isOne_rational_eq_false.2 hone), (hexact.of_powered hone).1.mul_eq]
        exact S.operator_raise_of_kind hunitary hcanonical.2.1
          (mul_nonneg (Rat.num_nonneg.1 hr.1) ht)
  | _ => exact S.operator_raise_of_kind hunitary (by simp [kind]) ht

theorem family_pow (hunitary : x.isUnitary = true) (hx : x.RationalExponents) (ht : 0 ≤ t)
    (k : Nat) : S.family t x ^ k = S.family (k * t) x := by
  induction k with
  | zero => rw [pow_zero, Nat.cast_zero, zero_mul, S.family_zero hunitary hx]
  | succ k ih =>
      rw [pow_succ, ih, S.family_add hunitary hx (mul_nonneg k.cast_nonneg ht) ht, Nat.cast_succ,
        add_mul, one_mul]

/-- The laws of powers of one operation, on target qubits. -/
structure PowerLaws (x : Operation) (qubits : List Nat) : Prop where
  add : ∀ p q, 0 ≤ p → 0 ≤ q → x.RaisesExactly p → x.RaisesExactly q → x.RaisesExactly (p + q) →
    ∃ left right both, x.power (.rational p) = .ok left ∧ x.power (.rational q) = .ok right ∧
      x.power (.rational (p + q)) = .ok both ∧
      S.operator left qubits * S.operator right qubits = S.operator both qubits
  zero : ∃ y, x.power (.rational 0) = .ok y ∧ S.operator y qubits = 1
  one : x.power (.rational 1) = .ok x
  sqrt : x.RaisesExactly (mkRat 1 2) → ∃ y, x.sqrt = .ok y ∧
    S.operator y qubits * S.operator y qubits = S.operator x qubits
  root : ∀ k : Nat, 0 < k → x.RaisesExactly (1 / k) →
    ∃ y, x.power (.rational (1 / k)) = .ok y ∧ S.operator y qubits ^ k = S.operator x qubits

/-- Whatever forms the powers have, the family has their laws. -/
theorem powerLaws_of_canonical {P : Nat → Prop} (hcanonical : x.CanonicalWith P)
    (hunitary : x.isUnitary = true) (hx : x.RationalExponents)
    (hlength : qubits.length = x.numQubits)
    (hnodup : qubits.Nodup) : S.PowerLaws x qubits := by
  have hmember : ∀ t, 0 ≤ t → x.RaisesExactly t →
      S.operator (x.raise (.rational t)) qubits = place qubits (S.family t x) :=
    fun t ht hexact => S.operator_raise hcanonical hunitary hx ht hexact hlength hnodup
  have hroot : ∀ k : Nat, 0 < k → x.RaisesExactly (1 / k) →
      S.operator (x.raise (.rational (1 / k))) qubits ^ k = S.operator x qubits := by
    intro k hk hexact
    have hpos : (k : Rat) ≠ 0 := Nat.cast_ne_zero.2 hk.ne'
    rw [hmember _ (by positivity) hexact, ← place_pow hlength hnodup,
      S.family_pow hunitary hx (by positivity), mul_one_div_cancel hpos, S.family_one hunitary hx]
    rfl
  refine ⟨fun p q hp hq hleft hright hboth => ?_, ?_, ?_, fun hexact => ?_,
    fun k hk hexact => ⟨_, power_eq_ok hunitary _, hroot k hk hexact⟩⟩
  · refine ⟨_, _, _, power_eq_ok hunitary _, power_eq_ok hunitary _, power_eq_ok hunitary _, ?_⟩
    rw [hmember p hp hleft, hmember q hq hright, hmember _ (add_nonneg hp hq) hboth,
      ← place_mul hlength hnodup, S.family_add hunitary hx hp hq]
  · refine ⟨_, power_eq_ok hunitary _, ?_⟩
    rw [hmember 0 le_rfl hx.raisesExactly_zero, S.family_zero hunitary hx,
      place_one hlength hnodup]
  · rw [power_eq_ok hunitary, raise_of_isOne (isOne_rational.2 rfl)]
  · have hhalf : mkRat 1 2 = 1 / (2 : Nat) := by decide +kernel
    rw [hhalf] at hexact
    refine ⟨_, sqrt_eq_ok hunitary, ?_⟩
    rw [half, hhalf, ← pow_two]
    exact hroot 2 two_pos hexact

end PowerSemantics

open Operation Exponent

/-- The powers of a gate that is built with rational exponents are a family: operators multiply
as exponents add up, the power zero does nothing and the power one is the gate, as long as no
product of exponents overflows. -/
theorem powers_form_a_family {R : Type*} [CommRing R] (S : PowerSemantics R) {x : Operation}
    {counting : Counting} (hx : x.Constructed counting) (hunitary : x.isUnitary = true)
    (hexponents : x.RationalExponents)
    {qubits : List Nat} (hlength : qubits.length = x.numQubits) (hnodup : qubits.Nodup) :
    S.PowerLaws x qubits :=
  S.powerLaws_of_canonical (simplified_of_constructed hx).canonical hunitary hexponents hlength
    hnodup

/-- The power one third of the square root of Y under two controls is its power one sixth twice,
and its square root is half of it. -/
theorem powers_form_a_family_root_y :
    let S := Valuation.plain.semantics.toPowerSemantics
    (∃ left right both,
      controlledRootY.power (.rational (mkRat 1 6)) = .ok left ∧
      controlledRootY.power (.rational (mkRat 1 3)) = .ok right ∧
      controlledRootY.power (.rational (mkRat 1 6 + mkRat 1 3)) = .ok both ∧
      S.operator left [0, 1, 2] * S.operator right [0, 1, 2] = S.operator both [0, 1, 2]) ∧
    ∃ y, controlledRootY.sqrt = .ok y ∧
      S.operator y [0, 1, 2] * S.operator y [0, 1, 2] = S.operator controlledRootY [0, 1, 2] := by
  intro S
  have hx : controlledRootY.Constructed .stops := constructed_controlledRootY
  have hexponents : controlledRootY.RationalExponents := by
    intro e he
    obtain rfl := List.mem_singleton.1 he
    exact ⟨mkRat 1 2, rfl, checked_half⟩
  have hlaws : S.PowerLaws controlledRootY [0, 1, 2] :=
    powers_form_a_family S hx rfl hexponents rfl (by decide)
  refine ⟨hlaws.add _ _ ?_ ?_ ?_ ?_ ?_, hlaws.sqrt ?_⟩ <;> decide +kernel

end GateAlgebra
