import GateAlgebra.Proofs.Comparable
import GateAlgebra.Proofs.FloatRange
import GateAlgebra.Proofs.Issued
import GateAlgebra.Proofs.ModifierLaws
/-!
Which exponents their own constructor would take.  All that are made are fractions of words that
are not negative, or doubles that are not below zero; but a product of doubles may be infinite,
and what it is multiplied with later may even be no number.  That happens exactly where a product
overflows, so it is seen from the products that a sequence of calls forms.
-/

namespace GateAlgebra

section Doubles

open Float.Model UnpackedFloat

variable {x : Float}

theorem value_nonneg (h : ¬x < 0) : 0 ≤ (Double.ofFloat x).value := by
  rw [Double.ofFloat_eq_ofUnpacked]
  rcases not_lt_zero_iff.1 h with hplus | ⟨sign, hzero⟩
  · cases hx : x.toModel.unpack with
    | notANumber | infinity => exact le_rfl
    | zero sign => exact (value_ofUnpacked_zero sign).ge
    | finite sign m e hpos =>
        rw [hx] at hplus
        obtain rfl : sign = .positive := hplus
        change 0 ≤ 1 * (m : Rat) * 2 ^ e
        positivity
  · rw [hzero, value_ofUnpacked_zero]

theorem isFinite_of_value_ne_zero (h : (Double.ofFloat x).value ≠ 0) : x.isFinite = true := by
  change x.toModel.unpack.isFinite = true
  rw [Double.ofFloat_eq_ofUnpacked] at h
  cases hx : x.toModel.unpack with
  | notANumber | infinity =>
      rw [hx] at h
      exact absurd rfl h
  | zero | finite => rfl

end Doubles

namespace Exponent

variable {e a b : Exponent}

/-- The constructor for exponents of its kind gives the exponent again. -/
def Accepted : Exponent → Prop
  | rational ratio => ofFraction ratio.num ratio.den = .ok (rational ratio)
  | real value => ofFloat value = .ok (real value)

/-- The number that the double of an exponent stands for. -/
def size (e : Exponent) : Rat :=
  (Double.ofFloat e.toFloat).value

/-- The product is one of doubles, and too large for a double. -/
def Overflows (a b : Exponent) : Prop :=
  ¬a.MultipliesExactly b ∧ overflowBound ≤ a.size * b.size

/-- The double of a fraction is the quotient of two words. -/
theorem Checked.exists_quotient {ratio : Rat} (h : (rational ratio).Checked) :
    ∃ n d : Nat, n < 2 ^ 64 ∧ 0 < d ∧ d < 2 ^ 64 ∧
      ratioToFloat ratio = Float.ofNat n / Float.ofNat d := by
  obtain ⟨hnonneg, hnum, hden⟩ := h
  obtain ⟨n, hn⟩ := Int.eq_ofNat_of_zero_le hnonneg
  rw [hn, fitsWord_natCast] at hnum
  rw [fitsWord_natCast] at hden
  refine ⟨n, ratio.den, by omega, ratio.den_pos, by omega, ?_⟩
  rw [ratioToFloat, hn]
  rfl

theorem Checked.isFinite_ratioToFloat {ratio : Rat} (h : (rational ratio).Checked) :
    (ratioToFloat ratio).isFinite = true := by
  obtain ⟨n, d, hn, hd, hd', hquotient⟩ := h.exists_quotient
  rw [hquotient]
  exact isFinite_div_natCast hn hd hd'

theorem Checked.size_rational_lt {ratio : Rat} (h : (rational ratio).Checked) :
    (rational ratio).size < 2 ^ (68 : Int) := by
  obtain ⟨n, d, hn, hd, hd', hquotient⟩ := h.exists_quotient
  rw [size, toFloat, hquotient]
  exact (le_abs_self _).trans_lt (abs_value_div_natCast_lt hn hd hd')

theorem accepted_iff : e.Accepted ↔ e.Checked ∧ e.toFloat.isFinite = true := by
  cases e with
  | rational ratio =>
      refine ⟨fun h => ?_, fun ⟨h, _⟩ => ?_⟩
      · have hchecked := checked_of_ofFraction h
        exact ⟨hchecked, hchecked.isFinite_ratioToFloat⟩
      · obtain ⟨hnonneg, hfits⟩ := h
        change ofFraction ratio.num ratio.den = _
        simp [ofFraction, Int.not_lt.2 hnonneg, hfits]
  | real value =>
      change ofFloat value = _ ↔ ¬value < 0 ∧ value.isFinite = true
      cases hfinite : value.isFinite with
      | false => simp [ofFloat, hfinite]
      | true => simp [ofFloat, hfinite]

theorem accepted_of_checked_rational {ratio : Rat} (h : (rational ratio).Checked) :
    (rational ratio).Accepted :=
  accepted_iff.2 ⟨h, h.isFinite_ratioToFloat⟩

theorem Accepted.checked (h : e.Accepted) : e.Checked :=
  (accepted_iff.1 h).1

theorem accepted_of_isOne (he : e.Checked) (h : e.isOne = true) : e.Accepted := by
  refine accepted_iff.2 ⟨he, ?_⟩
  cases e with
  | rational ratio => exact he.isFinite_ratioToFloat
  | real value =>
      refine isFinite_of_value_ne_zero (x := value) ?_
      rw [Double.value_of_beq_one h]
      exact one_ne_zero

theorem accepted_of_ofFraction {numer denom : Int} (h : ofFraction numer denom = .ok e) :
    e.Accepted := by
  have hchecked := checked_of_ofFraction h
  cases e with
  | rational ratio => exact accepted_of_checked_rational hchecked
  | real value => grind [ofFraction]

theorem accepted_of_ofFloat {x : Float} (h : ofFloat x = .ok e) : e.Accepted := by
  have hreal : e = real x := by grind [ofFloat]
  rw [hreal] at h ⊢
  exact h

/-- The ways to an exponent that is not a product. -/
inductive Made : Exponent → Prop where
  | integer {n : Nat} (h : n ≤ maxRepetitions) : Made (ofNat n)
  | half : Made half
  | fraction {numer denom : Int} {e : Exponent} (h : ofFraction numer denom = .ok e) : Made e
  | float {x : Float} {e : Exponent} (h : ofFloat x = .ok e) : Made e
  | decoded {d : Document} {e : Exponent} (h : Exponent.decode d = .ok e) : Made e

theorem Made.accepted (h : e.Made) : e.Accepted := by
  cases h with
  | integer h => exact accepted_of_checked_rational (checked_ofNat h)
  | half => exact accepted_of_checked_rational checked_half
  | fraction h => exact accepted_of_ofFraction h
  | float h => exact accepted_of_ofFloat h
  | decoded h =>
      rcases cases_of_decode h with ⟨numer, denom, he⟩ | ⟨x, he⟩
      · exact accepted_of_ofFraction he
      · exact accepted_of_ofFloat he

/-- The decoder takes the document of an exponent exactly if the constructor takes it. -/
theorem decode_encode_iff : Exponent.decode e.encode = .ok e ↔ e.Accepted := by
  refine ⟨fun h => (Made.decoded h).accepted, fun h => ?_⟩
  obtain ⟨hchecked, hfinite⟩ := accepted_iff.1 h
  refine decode_encode ?_ hchecked
  cases e with
  | rational ratio => trivial
  | real value => exact hfinite

/-- A product that is not exact is one of doubles. -/
theorem mul_eq_real (h : ¬a.MultipliesExactly b) : a * b = real (a.toFloat * b.toFloat) := by
  change mul a b = _
  unfold mul
  split
  · rw [if_neg (by simpa [MultipliesExactly] using h)]
    rfl
  · rfl

theorem Checked.size_nonneg (h : e.Checked) : 0 ≤ e.size :=
  value_nonneg h.not_toFloat_lt_zero

/-- One multiplication: the product is accepted if both factors are and it does not overflow. -/
theorem accepted_mul_iff (ha : a.Checked) (hb : b.Checked) :
    (a * b).Accepted ↔ a.Accepted ∧ b.Accepted ∧ ¬a.Overflows b := by
  by_cases hexact : a.MultipliesExactly b
  · obtain ⟨p, q, rfl, rfl⟩ := hexact.exists_rational
    have hproduct := ha.mul hb
    rw [hexact.mul_eq] at hproduct ⊢
    exact iff_of_true (accepted_of_checked_rational hproduct)
      ⟨accepted_of_checked_rational ha, accepted_of_checked_rational hb, fun h => h.1 hexact⟩
  · have hproduct := ha.mul hb
    have hsize : |a.size * b.size| = a.size * b.size :=
      abs_of_nonneg (mul_nonneg ha.size_nonneg hb.size_nonneg)
    rw [mul_eq_real hexact] at hproduct ⊢
    simp only [accepted_iff, hproduct, ha, hb, true_and, Overflows, hexact, not_false_eq_true,
      not_le]
    refine ⟨fun h => ?_, fun ⟨hx, hy, hbelow⟩ => ?_⟩
    · obtain ⟨hx, hy⟩ := isFinite_of_mul h
      exact ⟨hx, hy, hsize ▸ (isFinite_mul_iff hx hy).1 h⟩
    · exact (isFinite_mul_iff hx hy).2 (hsize.symm ▸ hbelow)

/-- Two fractions never overflow: where their product is one of doubles, it is far from the
bound. -/
theorem not_overflows_rational {p q : Rat} (hp : (rational p).Checked) (hq : (rational q).Checked) :
    ¬(rational p).Overflows (rational q) := by
  rintro ⟨-, hlarge⟩
  have hproduct : (rational p).size * (rational q).size < 2 ^ (68 : Int) * 2 ^ (68 : Int) :=
    mul_lt_mul'' hp.size_rational_lt hq.size_rational_lt hp.size_nonneg hq.size_nonneg
  have hbound : (2 : Rat) ^ (68 : Int) * 2 ^ (68 : Int) ≤ 2 ^ (1023 : Int) := by
    rw [← zpow_add₀ two_ne_zero]
    exact zpow_le_zpow_right₀ one_le_two (by decide)
  exact absurd (hproduct.trans_le hbound) (not_lt.2 (two_pow_lt_overflowBound.le.trans hlarge))

section Chains

/-- Exponents multiplied in any order. -/
inductive Chain where
  | factor (e : Exponent)
  | mul (left right : Chain)

namespace Chain

def value : Chain → Exponent
  | factor e => e
  | mul left right => left.value * right.value

def factors : Chain → List Exponent
  | factor e => [e]
  | mul left right => left.factors ++ right.factors

/-- The pairs of exponents that are multiplied. -/
def products : Chain → List (Exponent × Exponent)
  | factor _ => []
  | mul left right => (left.value, right.value) :: (left.products ++ right.products)

/-- No factor is a product itself. -/
def Made (chain : Chain) : Prop :=
  ∀ e ∈ chain.factors, e.Made

theorem checked_value {chain : Chain} (h : chain.Made) : chain.value.Checked := by
  induction chain with
  | factor e => exact (h e List.mem_cons_self).accepted.checked
  | mul left right ihleft ihright =>
      obtain ⟨hleft, hright⟩ := List.forall_mem_append.1 h
      exact (ihleft hleft).mul (ihright hright)

/-- A chain of multiplications gives an accepted exponent exactly if none of them overflows. -/
theorem accepted_value_iff {chain : Chain} (h : chain.Made) :
    chain.value.Accepted ↔ ∀ pair ∈ chain.products, ¬pair.1.Overflows pair.2 := by
  induction chain with
  | factor e => exact iff_of_true (h e List.mem_cons_self).accepted nofun
  | mul left right ihleft ihright =>
      obtain ⟨hleft, hright⟩ := List.forall_mem_append.1 h
      rw [value, products, accepted_mul_iff (checked_value hleft) (checked_value hright),
        ihleft hleft, ihright hright, List.forall_mem_cons, List.forall_mem_append]
      tauto

end Chain

end Chains

end Exponent

namespace Operation

open Exponent

variable {op op' : Operation} {e : Exponent}

/-- Every exponent inside is accepted again. -/
def ExponentsAccepted (op : Operation) : Prop :=
  ∀ e ∈ op.exponents, e.Accepted

theorem PartsChecked.exponent (h : op.PartsChecked) (he : e ∈ op.exponents) : e.Checked := by
  induction op with
  | powered p w ih =>
      rcases List.mem_cons.1 he with rfl | he
      · exact h.1
      · exact ih h.2 he
  | controlled n w ih | repeated n w ih => exact ih h he
  | inverted w ih => exact ih h he
  | _ => cases he

theorem exponents_addRepeats (n : Nat) (op : Operation) :
    (op.addRepeats n).exponents = op.exponents := by
  cases op <;> rfl

theorem products_of_isOne (h : e.isOne = true) (op : Operation) : op.products e = [] := by
  unfold products
  rw [if_pos h]

/-- Raising to a power gives accepted exponents only exactly if the exponents were accepted
before and no product that it forms overflows. -/
theorem exponentsAccepted_raise_iff (hop : op.PartsChecked) (he : e.Checked) :
    (op.raise e).ExponentsAccepted ↔ op.ExponentsAccepted ∧ e.Accepted ∧
      ∀ pair ∈ op.products e, ¬pair.1.Overflows pair.2 := by
  -- A power hands a product of exponents on to what it wraps, so the exponent varies.
  induction op generalizing e with
  | controlled n w ih =>
      rw [raise_inside_controlled, products_controlled]
      exact ih hop he
  | repeated n w ih =>
      rw [raise_inside_repeated, products_repeated]
      exact ih hop he
  | powered p w ih =>
      cases hone : e.isOne with
      | true =>
          rw [raise_of_isOne hone, products_of_isOne hone]
          exact (and_iff_left ⟨accepted_of_isOne he hone, nofun⟩).symm
      | false =>
          have hsplit : (powered p w).ExponentsAccepted ↔ p.Accepted ∧ w.ExponentsAccepted :=
            List.forall_mem_cons
          rw [raise_powered hone, ih hop.2 (hop.1.mul he), products_powered hone,
            List.forall_mem_cons, accepted_mul_iff hop.1 he, hsplit]
          tauto
  | _ =>
      cases hone : e.isOne with
      | true =>
          rw [raise_of_isOne hone, products_of_isOne hone]
          exact (and_iff_left ⟨accepted_of_isOne he hone, nofun⟩).symm
      | false =>
          rw [raise_eq_powered hone (by simp [kind])]
          simp [ExponentsAccepted, products, hone, exponents, and_comm]

/-- A call of the modifier algebra, with the exponents that its exponent is the product of. -/
inductive ModifierCall where
  | control (n : Nat)
  | power (exponent : Chain)
  | sqrt
  | inverse
  | parallel (n : Nat)

namespace ModifierCall

def apply (op : Operation) : ModifierCall → Except CircuitError Operation
  | control n => op.control n
  | power exponent => op.power exponent.value
  | sqrt => op.sqrt
  | inverse => op.inverse
  | parallel n => op.parallel n

/-- The exponent that the call raises to, if any. -/
def exponents : ModifierCall → List Chain
  | power exponent => [exponent]
  | sqrt => [.factor half]
  | _ => []

/-- The pairs of exponents that are multiplied for the call, and by it. -/
def products (op : Operation) (call : ModifierCall) : List (Exponent × Exponent) :=
  call.exponents.flatMap fun exponent => exponent.products ++ op.products exponent.value

/-- Calls one after the other. -/
def applyAll : List ModifierCall → Operation → Except CircuitError Operation
  | [], op => .ok op
  | call :: calls, op => call.apply op >>= applyAll calls

/-- The pairs of exponents that are multiplied for all calls, and by them. -/
def allProducts : List ModifierCall → Operation → List (Exponent × Exponent)
  | [], _ => []
  | call :: calls, op =>
      call.products op ++
        match call.apply op with
        | .ok op' => allProducts calls op'
        | .error _ => []

variable {call : ModifierCall} {calls : List ModifierCall}

theorem partsChecked_apply (hop : op.PartsChecked) (hcall : ∀ exponent ∈ call.exponents,
    exponent.Made) (h : call.apply op = .ok op') : op'.PartsChecked := by
  cases call with
  | control n =>
      obtain ⟨-, -, rfl⟩ := control_eq_ok_iff.1 h
      exact hop.addControls n
  | power exponent =>
      obtain ⟨-, rfl⟩ := power_eq_ok_iff.1 h
      exact hop.raise (Chain.checked_value (hcall exponent List.mem_cons_self))
  | sqrt =>
      obtain ⟨-, rfl⟩ := power_eq_ok_iff.1 h
      exact hop.raise checked_half
  | inverse =>
      rcases inverse_eq_ok_iff.1 h with ⟨-, rfl⟩ | ⟨-, rfl⟩
      · exact hop
      · exact hop.invert
  | parallel n =>
      obtain ⟨-, -, rfl⟩ := parallel_eq_ok_iff.1 h
      exact hop.addRepeats n

theorem exponentsAccepted_raise_value_iff {exponent : Chain} (hop : op.PartsChecked)
    (hmade : exponent.Made) :
    (op.raise exponent.value).ExponentsAccepted ↔ op.ExponentsAccepted ∧
      ∀ pair ∈ [exponent].flatMap fun exponent => exponent.products ++ op.products exponent.value,
        ¬pair.1.Overflows pair.2 := by
  rw [exponentsAccepted_raise_iff hop (Chain.checked_value hmade),
    Chain.accepted_value_iff hmade, List.flatMap_singleton, List.forall_mem_append]

/-- One call keeps all exponents accepted if no product overflows that is formed for it, and no
call makes up for an exponent that is not accepted. -/
theorem exponentsAccepted_apply_iff (hop : op.PartsChecked) (hcall : ∀ exponent ∈ call.exponents,
    exponent.Made) (h : call.apply op = .ok op') :
    op'.ExponentsAccepted ↔
      op.ExponentsAccepted ∧ ∀ pair ∈ call.products op, ¬pair.1.Overflows pair.2 := by
  cases call with
  | control n =>
      obtain ⟨-, -, rfl⟩ := control_eq_ok_iff.1 h
      rw [ExponentsAccepted, exponents_addControls]
      exact (and_iff_left nofun).symm
  | power exponent =>
      obtain ⟨-, rfl⟩ := power_eq_ok_iff.1 h
      exact exponentsAccepted_raise_value_iff hop (hcall exponent List.mem_cons_self)
  | sqrt =>
      obtain ⟨-, rfl⟩ := power_eq_ok_iff.1 h
      exact exponentsAccepted_raise_value_iff hop (hcall (.factor half) List.mem_cons_self)
  | inverse =>
      rcases inverse_eq_ok_iff.1 h with ⟨-, rfl⟩ | ⟨-, rfl⟩
      · exact (and_iff_left nofun).symm
      · rw [ExponentsAccepted, exponents_invert]
        exact (and_iff_left nofun).symm
  | parallel n =>
      obtain ⟨-, -, rfl⟩ := parallel_eq_ok_iff.1 h
      rw [ExponentsAccepted, exponents_addRepeats]
      exact (and_iff_left nofun).symm

/-- What any number of calls leaves is checked, and it is accepted exactly if no product
overflows. -/
theorem exponentsAccepted_applyAll_iff (hop : op.PartsChecked)
    (hcalls : ∀ call ∈ calls, ∀ exponent ∈ call.exponents, exponent.Made)
    (h : applyAll calls op = .ok op') :
    op'.PartsChecked ∧ (op'.ExponentsAccepted ↔
      op.ExponentsAccepted ∧ ∀ pair ∈ allProducts calls op, ¬pair.1.Overflows pair.2) := by
  induction calls generalizing op with
  | nil =>
      obtain rfl := Except.ok.inj h
      exact ⟨hop, (and_iff_left nofun).symm⟩
  | cons call calls ih =>
      obtain ⟨hcall, hcalls⟩ := List.forall_mem_cons.1 hcalls
      obtain ⟨next, hnext, hrest⟩ := bind_eq_ok_iff.1 h
      obtain ⟨hchecked, haccepted⟩ := ih (partsChecked_apply hop hcall hnext) hcalls hrest
      refine ⟨hchecked, ?_⟩
      rw [haccepted, exponentsAccepted_apply_iff hop hcall hnext, allProducts, hnext,
        List.forall_mem_append, and_assoc]

end ModifierCall

end Operation

open Exponent Operation

/-- An exponent that is made, multiplied or left in an operation by any calls is a fraction of
words in lowest terms that is not negative, or a double that is not below zero.  Its own
constructor, and the decoder, take it again unless it is infinite or no number.  That comes of
multiplication alone: products of exponents, and all that calls leave in an operation, are
accepted exactly if no product on the way overflows. -/
theorem exponents_accepted_iff_no_product_overflows {calls : List ModifierCall}
    {counting : Counting} {op op' : Operation} (hop : Issued counting (.operation op))
    (haccepted : op.ExponentsAccepted)
    (hcalls : ∀ call ∈ calls, ∀ exponent ∈ call.exponents, exponent.Made)
    (h : ModifierCall.applyAll calls op = .ok op') :
    (∀ call ∈ calls, ∀ exponent ∈ call.exponents, exponent.value.Checked ∧
      (exponent.value.Accepted ↔ ∀ pair ∈ exponent.products, ¬pair.1.Overflows pair.2)) ∧
    (∀ e ∈ op'.exponents, e.Checked) ∧
    (op'.ExponentsAccepted ↔
      ∀ pair ∈ ModifierCall.allProducts calls op, ¬pair.1.Overflows pair.2) ∧
    ∀ e : Exponent, e.Checked → (e.Accepted ↔ e.toFloat.isFinite = true) ∧
      (Exponent.decode e.encode = .ok e ↔ e.Accepted) := by
  obtain ⟨hchecked, hiff⟩ :=
    ModifierCall.exponentsAccepted_applyAll_iff hop.checkedWith.parts hcalls h
  refine ⟨fun call hcall exponent hexponent => ?_, fun e he => hchecked.exponent he, ?_,
    fun e he => ⟨accepted_iff.trans (and_iff_right he), decode_encode_iff⟩⟩
  · have hmade := hcalls call hcall exponent hexponent
    exact ⟨Chain.checked_value hmade, Chain.accepted_value_iff hmade⟩
  · rw [hiff]
    exact and_iff_right haccepted

section Samples

/-- A power whose exponent is among the largest doubles. -/
def greatPower : ModifierCall :=
  .power (.factor (.real 1e308))

theorem ofFloat_great : ofFloat 1e308 = .ok (.real 1e308) := by
  have hchecked : ¬(1e308 : Float) < 0 := by decide +kernel
  have hfinite : (1e308 : Float).isFinite = true := by decide +kernel
  have haccepted : (Exponent.real 1e308).Accepted := accepted_iff.2 ⟨hchecked, hfinite⟩
  exact haccepted

theorem apply_greatPower_twice :
    ModifierCall.applyAll [greatPower, greatPower] (.gate .x) =
      .ok (.powered (.real 1e308 * .real 1e308) (.gate .x)) := by
  have hone : (Exponent.real 1e308).isOne = false := by decide +kernel
  have hproduct : (Exponent.real 1e308 * Exponent.real 1e308).isOne = false := by decide +kernel
  have hfirst : (Operation.gate .x).raise (.real 1e308) = .powered (.real 1e308) (.gate .x) :=
    raise_eq_powered hone (by simp [kind])
  have hsecond : (Operation.powered (.real 1e308) (.gate .x)).raise (.real 1e308) =
      .powered (.real 1e308 * .real 1e308) (.gate .x) := by
    rw [raise_powered hone]
    exact raise_eq_powered hproduct (by simp [kind])
  have hcall : greatPower.apply (.gate .x) = .ok (.powered (.real 1e308) (.gate .x)) :=
    power_eq_ok_iff.2 ⟨rfl, hfirst.symm⟩
  have hcall' : greatPower.apply (.powered (.real 1e308) (.gate .x)) =
      .ok (.powered (.real 1e308 * .real 1e308) (.gate .x)) :=
    power_eq_ok_iff.2 ⟨rfl, hsecond.symm⟩
  simp only [ModifierCall.applyAll, hcall, hcall', ok_bind]

/-- A power whose exponent is one half times three times one half. -/
def halvesPower : ModifierCall :=
  .power (.mul (.factor .half) (.mul (.factor (.ofNat 3)) (.factor .half)))

/-- The first power leaves an exponent that is accepted, as its products are exact, and the great
ones form a product that overflows. -/
theorem exponents_accepted_iff_no_product_overflows_samples :
    (∃ op, ModifierCall.applyAll [halvesPower] (.gate .x) = .ok op ∧ op.ExponentsAccepted) ∧
      ∃ pair ∈ ModifierCall.allProducts [greatPower, greatPower] (.gate .x),
        pair.1.Overflows pair.2 := by
  have hgate : Issued .stops (.operation (.gate .x)) := .gateOperation (.gate .x)
  constructor
  · have hmade : ∀ call ∈ [halvesPower], ∀ exponent ∈ call.exponents, exponent.Made := by
      have hthree : (Exponent.ofNat 3).Made := .integer (by decide)
      simp [halvesPower, ModifierCall.exponents, Chain.Made, Chain.factors, Made.half, hthree]
    have hexact : ∀ pair ∈ ModifierCall.allProducts [halvesPower] (.gate .x),
        pair.1.MultipliesExactly pair.2 := by decide +kernel
    refine ⟨_, rfl, ?_⟩
    obtain ⟨-, -, hiff, -⟩ := exponents_accepted_iff_no_product_overflows hgate nofun hmade rfl
    exact hiff.2 fun pair hpair hoverflows => hoverflows.1 (hexact pair hpair)
  · have hmade : ∀ call ∈ [greatPower, greatPower], ∀ exponent ∈ call.exponents,
        exponent.Made := by
      have hgreat : (Exponent.real 1e308).Made := .float ofFloat_great
      simp [greatPower, ModifierCall.exponents, Chain.Made, Chain.factors, hgreat]
    obtain ⟨-, -, hiff, -⟩ :=
      exponents_accepted_iff_no_product_overflows hgate nofun hmade apply_greatPower_twice
    by_contra hnone
    have hinfinite := hiff.2 fun pair hpair hoverflows => hnone ⟨pair, hpair, hoverflows⟩
    exact absurd (accepted_iff.1 (hinfinite _ List.mem_cons_self)).2 (by decide +kernel)

/-- Two powers, each with an exponent that the constructor takes, leave an infinite exponent,
which neither the constructor nor the decoder takes; a third power, with the exponent zero,
leaves one that is no number. -/
theorem great_powers_leave_the_range :
    ofFloat 1e308 = .ok (.real 1e308) ∧
    ModifierCall.applyAll [greatPower, greatPower] (.gate .x) =
      .ok (.powered (.real 1e308 * .real 1e308) (.gate .x)) ∧
    ¬(Exponent.real 1e308 * Exponent.real 1e308).Accepted ∧
    Exponent.decode (Exponent.real 1e308 * Exponent.real 1e308).encode ≠
      .ok (.real 1e308 * .real 1e308) ∧
    (Exponent.real 1e308 * Exponent.real 1e308 * Exponent.ofNat 0).toFloat.isNaN = true := by
  have hinfinite : ¬(Exponent.real 1e308 * Exponent.real 1e308).Accepted := fun h =>
    absurd (accepted_iff.1 h).2 (by decide +kernel)
  exact ⟨ofFloat_great, apply_greatPower_twice, hinfinite, decode_encode_iff.not.2 hinfinite,
    by decide +kernel⟩

end Samples

end GateAlgebra
