import GateAlgebra.Proofs.Double
import GateAlgebra.Proofs.Stable
/-!
Numbers that are equal to themselves.  All are but NaN, and finite numbers make no NaN when
they are multiplied.  So an operation without NaN is equal to itself, and so are the gates
that its finite powers are.
-/

namespace GateAlgebra

section Doubles

open Float.Model

variable {x y a b : Float}

theorem dite_ne_nan {p : Prop} [Decidable p] {first : p → UnpackedFloat}
    {second : ¬p → UnpackedFloat} (hfirst : ∀ h, first h ≠ .notANumber)
    (hsecond : ∀ h, second h ≠ .notANumber) : dite p first second ≠ .notANumber := by
  by_cases h : p
  · rw [dif_pos h]
    exact hfirst h
  · rw [dif_neg h]
    exact hsecond h

theorem roundWithAccuracy_ne_nan (format : Format) (sign : UnpackedFloat.Sign) (mantissa : Nat)
    (exponent : Int) (accuracy : UnpackedFloat.Accuracy) :
    UnpackedFloat.roundWithAccuracy format sign mantissa exponent accuracy ≠ .notANumber :=
  dite_ne_nan (fun _ => UnpackedFloat.noConfusion) (fun _ => UnpackedFloat.noConfusion)

theorem unpack_packComponents_ne_nan {format : Format} {sign : UnpackedFloat.Sign}
    {exponent : BitVec format.exponentBits}
    {mantissa : BitVec format.mantissaBitsWithoutImplicit}
    (h : exponent = -1#_ → mantissa = 0#_) :
    UnpackedFloat.unpack format (UnpackedFloat.packComponents format sign exponent mantissa) ≠
      .notANumber := by
  refine dite_ne_nan (fun hones => ?_) fun _ => dite_ne_nan (fun _ => ?_) fun _ => ?_
  · rw [UnpackedFloat.unpackExponent_packComponents] at hones
    rw [UnpackedFloat.unpackMantissa_packComponents, if_pos (h hones)]
    exact UnpackedFloat.noConfusion
  · exact dite_ne_nan (fun _ => UnpackedFloat.noConfusion) (fun _ => UnpackedFloat.noConfusion)
  · exact UnpackedFloat.noConfusion

/-- Packing makes no NaN: a number that is too large becomes infinite. -/
theorem unpack_pack_ne_nan {unpacked : UnpackedFloat} (h : unpacked ≠ .notANumber) :
    (pack unpacked).unpack ≠ .notANumber := by
  change UnpackedFloat.unpack Format.binary64 (UnpackedFloat.pack Format.binary64 unpacked) ≠ _
  cases unpacked with
  | notANumber => exact absurd rfl h
  | infinity sign => exact unpack_packComponents_ne_nan fun _ => rfl
  | zero sign => exact unpack_packComponents_ne_nan fun _ => rfl
  | finite sign mantissa exponent hpos =>
      unfold UnpackedFloat.pack
      dsimp only
      split
      · exact unpack_packComponents_ne_nan fun _ => rfl
      · rename_i hlarge
        split
        · refine unpack_packComponents_ne_nan fun hones => ?_
          have hfull : (-1#_ : BitVec Format.binary64.exponentBits).toNat = 2047 := rfl
          have hcount : 2 ^ Format.binary64.exponentBits = 2048 := rfl
          have hsame := congrArg BitVec.toNat hones
          rw [hcount] at hlarge
          rw [BitVec.toNat_ofNat, hcount, Nat.mod_eq_of_lt (by omega), hfull] at hsame
          omega
        · exact unpack_packComponents_ne_nan fun hones => absurd hones (by decide)

/-- A double is equal to itself unless it is NaN. -/
theorem beq_self_iff_unpack : (x == x) = true ↔ x.toModel.unpack ≠ .notANumber := by
  change (x.toModel.unpack.compare x.toModel.unpack == some .eq) = true ↔ _
  cases x.toModel.unpack with
  | notANumber => exact ⟨fun h => absurd h Bool.false_ne_true, fun h => absurd rfl h⟩
  | infinity sign => cases sign <;> exact ⟨fun _ => UnpackedFloat.noConfusion, fun _ => rfl⟩
  | zero sign => exact ⟨fun _ => UnpackedFloat.noConfusion, fun _ => rfl⟩
  | finite sign mantissa exponent hpos =>
      have hsame : (compare exponent exponent).then (compare mantissa mantissa) = .eq :=
        Ordering.then_eq_eq.2 ⟨compare_eq_iff_eq.2 rfl, compare_eq_iff_eq.2 rfl⟩
      refine ⟨fun _ => UnpackedFloat.noConfusion, fun _ => beq_iff_eq.2 ?_⟩
      cases sign with
      | positive => exact congrArg some hsame
      | negative =>
          change some ((compare exponent exponent).then (compare mantissa mantissa)).swap = _
          rw [hsame]
          rfl

theorem isFinite_eq_unpack : x.isFinite = x.toModel.unpack.isFinite := rfl

theorem beq_self_of_isFinite (h : x.isFinite = true) : (x == x) = true := by
  rw [beq_self_iff_unpack]
  rw [isFinite_eq_unpack] at h
  rintro hnan
  rw [hnan] at h
  cases h

/-- A product of finite numbers may be infinite, but is not NaN. -/
theorem beq_self_mul (hx : x.isFinite = true) (hy : y.isFinite = true) :
    (x * y == x * y) = true := by
  rw [isFinite_eq_unpack] at hx hy
  rw [beq_self_iff_unpack]
  change (pack (UnpackedFloat.mul Format.binary64 x.toModel.unpack y.toModel.unpack)).unpack ≠ _
  refine unpack_pack_ne_nan ?_
  generalize x.toModel.unpack = first at hx ⊢
  generalize y.toModel.unpack = second at hy ⊢
  cases first <;> cases second <;>
    first
    | exact absurd hx Bool.false_ne_true
    | exact absurd hy Bool.false_ne_true
    | exact UnpackedFloat.noConfusion
    | exact roundWithAccuracy_ne_nan _ _ _ _ _

theorem compare_of_lt (h : x < y) : x.toModel.unpack.compare y.toModel.unpack = some .lt :=
  eq_of_beq (of_decide_eq_true h)

theorem compare_of_le (h : x ≤ y) :
    (x.toModel.unpack.compare y.toModel.unpack).any (·.isLE) = true :=
  of_decide_eq_true h

theorem le_of_lt_double (h : x < y) : x ≤ y := by
  refine decide_eq_true (p := x.toModel ≤ y.toModel) ?_
  change (x.toModel.unpack.compare y.toModel.unpack).any (·.isLE) = true
  rw [compare_of_lt h]
  rfl

/-- A number above another and not above a finite one is finite. -/
theorem isFinite_of_lt_of_le (hax : a < x) (hxb : x ≤ b) (hb : b.isFinite = true) :
    x.isFinite = true := by
  have hbelow := compare_of_lt hax
  have habove := compare_of_le hxb
  rw [isFinite_eq_unpack] at hb ⊢
  generalize x.toModel.unpack = middle at hbelow habove ⊢
  generalize a.toModel.unpack = lower at hbelow
  generalize b.toModel.unpack = upper at habove hb
  cases middle with
  | notANumber => cases upper <;> cases habove
  | infinity sign =>
      cases sign with
      | negative => rcases lower with ⟨⟨⟩⟩ | _ | _ | ⟨⟨⟩, _⟩ <;> cases hbelow
      | positive =>
          cases upper <;> first | exact absurd hb Bool.false_ne_true | cases habove
  | zero sign => rfl
  | finite sign mantissa exponent hpos => rfl

end Doubles

namespace Operation

/-- The exponents of the powers around an operation, from the outside in. -/
def exponents : Operation → List Exponent
  | powered e w => e :: w.exponents
  | controlled _ w | inverted w | repeated _ w => w.exponents
  | _ => []

/-- Every exponent is a finite number. -/
def FiniteExponents (op : Operation) : Prop :=
  ∀ e ∈ op.exponents, e.toFloat.isFinite = true

@[simp] theorem exponents_invert (op : Operation) : op.invert.exponents = op.exponents := by
  induction op with
  | controlled n w ih => exact ih
  | repeated n w ih => exact ih
  | _ => rfl

@[simp] theorem exponents_addControls (n : Nat) (op : Operation) :
    (op.addControls n).exponents = op.exponents := by
  cases op <;> rfl

theorem exponent_beq_self {e : Exponent} (h : e.toFloat.isFinite = true) : (e == e) = true := by
  cases e with
  | rational ratio => exact beq_self_eq_true ratio
  | real value => exact beq_self_of_isFinite h

/-- An operation is equal to itself exactly if no exponent and no number of what the modifiers
are around is NaN. -/
theorem beq_self_iff {op : Operation} :
    (op == op) = true ↔
      (∀ e ∈ op.exponents, (e == e) = true) ∧ (op.innermost == op.innermost) = true := by
  induction op with
  | controlled n w ih =>
      rw [controlled_beq, beq_self_eq_true, Bool.true_and]
      exact ih
  | repeated n w ih =>
      rw [repeated_beq, beq_self_eq_true, Bool.true_and]
      exact ih
  | inverted w ih =>
      rw [inverted_beq]
      exact ih
  | powered e w ih =>
      rw [powered_beq, Bool.and_eq_true, ih, exponents, List.forall_mem_cons, innermost, and_assoc]
  | _ => simp [exponents, innermost]

theorem beq_self_congr {op other : Operation} (hexponents : op.exponents = other.exponents)
    (hinnermost : op.innermost = other.innermost) :
    (op == op) = true ↔ (other == other) = true := by
  rw [@beq_self_iff op, @beq_self_iff other, hexponents, hinnermost]

theorem beq_self_invert {op : Operation} :
    (op.invert == op.invert) = true ↔ (op == op) = true :=
  beq_self_congr (exponents_invert op) (innermost_invert op)

theorem beq_self_addControls {op : Operation} {n : Nat} :
    (op.addControls n == op.addControls n) = true ↔ (op == op) = true :=
  beq_self_congr (exponents_addControls n op) (innermost_addControls n op)

theorem beq_self_of_controlled {n : Nat} {w : Operation}
    (h : (controlled n w == controlled n w) = true) : (w == w) = true := by
  rw [controlled_beq, Bool.and_eq_true] at h
  exact h.2

theorem beq_self_of_finiteExponents {op : Operation} (h : op.FiniteExponents)
    (hinnermost : (op.innermost == op.innermost) = true) : (op == op) = true :=
  beq_self_iff.2 ⟨fun e he => exponent_beq_self (h e he), hinnermost⟩

end Operation

section Gates

theorem isFinite_of_admitsRotation {x : Float}
    (h : BranchCut.double.admitsRotation x = true) : x.isFinite = true := by
  unfold BranchCut.admitsRotation at h
  rw [Bool.and_eq_true, decide_eq_true_eq, decide_eq_true_eq] at h
  exact isFinite_of_lt_of_le h.1 (le_of_lt_double h.2) rfl

theorem isFinite_of_admitsPhase {x : Float}
    (h : BranchCut.double.admitsPhase x = true) : x.isFinite = true := by
  unfold BranchCut.admitsPhase at h
  rw [Bool.and_eq_true, decide_eq_true_eq, decide_eq_true_eq] at h
  exact isFinite_of_lt_of_le h.1 h.2 rfl

/-- The gate that a finite power is is equal to itself. -/
theorem Gate.root?_beq_self {g root : Gate} {e : Exponent} (he : e.toFloat.isFinite = true)
    (h : g.root? e = some root) : (root == root) = true := by
  rcases eq_of_root? h with hplain | ⟨family, hfamily, angle, v, -, -, rfl, hadmits⟩
  · simp only [List.mem_cons, Prod.mk.injEq, List.not_mem_nil, or_false] at hplain
    rcases hplain with ⟨-, rfl⟩ | ⟨-, rfl⟩ | ⟨-, rfl⟩ | ⟨-, rfl⟩ | ⟨-, rfl⟩ <;> rfl
  · have hfinite : v.isFinite = true :=
      hadmits.elim isFinite_of_admitsRotation isFinite_of_admitsPhase
    have hsame : ((Scalar.real (e.toFloat * v)) == .real (e.toFloat * v)) = true := by
      change (e.toFloat * v == e.toFloat * v && (0 : Float) == 0) = true
      rw [beq_self_mul he hfinite]
      rfl
    simp only [families, List.mem_cons, List.not_mem_nil, or_false] at hfamily
    rcases hfamily with rfl | rfl | rfl | rfl | rfl | rfl | rfl <;> exact hsame

end Gates

end GateAlgebra
