import Mathlib.Order.Compare
import GateAlgebra.Proofs.FloatRange
/-!
Comparisons of finite doubles are comparisons of the numbers they stand for.
-/

namespace GateAlgebra

open Float.Model UnpackedFloat

variable {x y : Float}

/-- Sizes in normal form are ordered by their exponents first. -/
theorem size_lt_size {m n : Nat} {e f : Int} (hm : m < 2 ^ 53) (he : -1074 ≤ e)
    (hn : f = -1074 ∨ 2 ^ 52 ≤ n) (h : e < f ∨ e = f ∧ m < n) :
    (m : Rat) * 2 ^ e < n * 2 ^ f := by
  rcases h with hlt | ⟨rfl, hlt⟩
  · have hn : 2 ^ 52 ≤ n := hn.resolve_left (by omega)
    calc (m : Rat) * 2 ^ e < 2 ^ 53 * 2 ^ e := by
          have hm : (m : Rat) < 2 ^ 53 := by exact_mod_cast hm
          gcongr
      _ = 2 ^ 52 * 2 ^ (e + 1) := by
          rw [zpow_add_one₀ two_ne_zero]
          ring
      _ ≤ n * 2 ^ f := by
          have hn : (2 : Rat) ^ 52 ≤ n := by exact_mod_cast hn
          have hf : e + 1 ≤ f := hlt
          gcongr
          norm_num
  · have hlt : (m : Rat) < n := by exact_mod_cast hlt
    gcongr

theorem compares_size {m n : Nat} {e f : Int} (hm : m < 2 ^ 53) (hn : n < 2 ^ 53)
    (he : -1074 ≤ e) (hf : -1074 ≤ f) (hnormal : e = -1074 ∨ 2 ^ 52 ≤ m)
    (hnormal' : f = -1074 ∨ 2 ^ 52 ≤ n) :
    ((compare e f).then (compare m n)).Compares ((m : Rat) * 2 ^ e) (n * 2 ^ f) := by
  rcases lt_trichotomy e f with hlt | rfl | hgt
  · rw [compare_lt_iff_lt.2 hlt]
    exact size_lt_size hm he hnormal' (Or.inl hlt)
  · rw [compare_eq_iff_eq.2 rfl, Ordering.eq_then]
    rcases lt_trichotomy m n with hlt | rfl | hgt
    · rw [compare_lt_iff_lt.2 hlt]
      exact size_lt_size hm he hnormal' (Or.inr ⟨rfl, hlt⟩)
    · rw [compare_eq_iff_eq.2 rfl]
      exact rfl
    · rw [compare_gt_iff_gt.2 hgt]
      exact size_lt_size hn hf hnormal (Or.inr ⟨rfl, hgt⟩)
  · rw [compare_gt_iff_gt.2 hgt]
    exact size_lt_size hn hf hnormal (Or.inl hgt)

theorem compares_neg {o : Ordering} {a b : Rat} (h : o.Compares a b) :
    o.swap.Compares (-a) (-b) := by
  rw [Ordering.compares_swap]
  cases o with
  | lt => exact neg_lt_neg h
  | eq => exact (congrArg Neg.neg h).symm
  | gt => exact neg_lt_neg h

theorem exponent_bounds_of_ofFloat {negative : Bool} {significand : Nat} {exponent : Int}
    (h : Double.ofFloat x = .finite negative significand exponent) :
    -1074 ≤ exponent ∧ exponent ≤ 971 := by
  unfold Double.ofFloat Double.ofBits at h
  dsimp only at h
  split at h
  · split at h <;> cases h
  · split at h
    · cases h
      decide
    · cases h
      omega

/-- The number of a finite double that is no zero, with what bounds its fields. -/
theorem fields_of_unpack {sign : Sign} {m : Nat} {e : Int} {hpos : 0 < m}
    (h : x.toModel.unpack = .finite sign m e hpos) :
    m < 2 ^ 53 ∧ (-1074 ≤ e ∧ e ≤ 971) ∧ (e = -1074 ∨ 2 ^ 52 ≤ m) ∧
      (Double.ofFloat x).value =
        match sign with
        | .positive => (m : Rat) * 2 ^ e
        | .negative => -((m : Rat) * 2 ^ e) := by
  have hread : Double.ofFloat x = .finite (sign == .negative) m e := by
    rw [Double.ofFloat_eq_ofUnpacked, h]
    rfl
  obtain ⟨hm, hnormal⟩ := Double.normal_of_ofFloat hread
  refine ⟨hm, exponent_bounds_of_ofFloat hread, hnormal, ?_⟩
  rw [hread]
  cases sign with
  | positive => exact (congrArg (· * (2 : Rat) ^ e) (one_mul (m : Rat)))
  | negative => exact (congrArg (· * (2 : Rat) ^ e) (neg_one_mul (m : Rat))).trans (neg_mul _ _)

theorem value_of_unpack_zero {sign : Sign} (h : x.toModel.unpack = .zero sign) :
    (Double.ofFloat x).value = 0 := by
  rw [Double.ofFloat_eq_ofUnpacked, h, value_ofUnpacked_zero]

/-- Finite doubles compare like their numbers. -/
theorem compares_unpack (hx : x.isFinite = true) (hy : y.isFinite = true) :
    ∃ o : Ordering, x.toModel.unpack.compare y.toModel.unpack = some o ∧
      o.Compares (Double.ofFloat x).value (Double.ofFloat y).value := by
  have hx : x.toModel.unpack.isFinite = true := hx
  have hy : y.toModel.unpack.isFinite = true := hy
  cases hu : x.toModel.unpack with
  | notANumber => rw [hu] at hx; cases hx
  | infinity => rw [hu] at hx; cases hx
  | zero s =>
      rw [value_of_unpack_zero hu]
      cases hv : y.toModel.unpack with
      | notANumber => rw [hv] at hy; cases hy
      | infinity => rw [hv] at hy; cases hy
      | zero t =>
          rw [value_of_unpack_zero hv]
          exact ⟨.eq, rfl, rfl⟩
      | finite t n f hn =>
          obtain ⟨-, -, -, hvalue⟩ := fields_of_unpack hv
          rw [hvalue]
          have hsize : (0 : Rat) < n * 2 ^ f := by positivity
          cases t with
          | positive => exact ⟨.lt, rfl, hsize⟩
          | negative => exact ⟨.gt, rfl, neg_neg_of_pos hsize⟩
  | finite s m e hm =>
      obtain ⟨hlt, ⟨he, -⟩, hnormal, hvalue⟩ := fields_of_unpack hu
      rw [hvalue]
      have hsize : (0 : Rat) < m * 2 ^ e := by positivity
      cases hv : y.toModel.unpack with
      | notANumber => rw [hv] at hy; cases hy
      | infinity => rw [hv] at hy; cases hy
      | zero t =>
          rw [value_of_unpack_zero hv]
          cases s with
          | positive => exact ⟨.gt, rfl, hsize⟩
          | negative => exact ⟨.lt, rfl, neg_neg_of_pos hsize⟩
      | finite t n f hn =>
          obtain ⟨hlt', ⟨hf, -⟩, hnormal', hvalue'⟩ := fields_of_unpack hv
          rw [hvalue']
          have hsize' : (0 : Rat) < n * 2 ^ f := by positivity
          have hsizes := compares_size hlt hlt' he hf hnormal hnormal'
          cases s with
          | positive =>
              cases t with
              | positive => exact ⟨_, rfl, hsizes⟩
              | negative => exact ⟨.gt, rfl, (neg_neg_of_pos hsize').trans hsize⟩
          | negative =>
              cases t with
              | positive => exact ⟨.lt, rfl, (neg_neg_of_pos hsize).trans hsize'⟩
              | negative => exact ⟨_, rfl, compares_neg hsizes⟩

theorem lt_iff_value_lt (hx : x.isFinite = true) (hy : y.isFinite = true) :
    x < y ↔ (Double.ofFloat x).value < (Double.ofFloat y).value := by
  obtain ⟨o, hcompare, ho⟩ := compares_unpack hx hy
  rw [← ho.eq_lt]
  have hlt : x < y ↔ x.toModel.unpack.compare y.toModel.unpack = some .lt :=
    ⟨fun h => eq_of_beq (of_decide_eq_true h), fun h => decide_eq_true (beq_iff_eq.2 h)⟩
  rw [hlt, hcompare, Option.some.injEq]

theorem le_iff_value_le (hx : x.isFinite = true) (hy : y.isFinite = true) :
    x ≤ y ↔ (Double.ofFloat x).value ≤ (Double.ofFloat y).value := by
  obtain ⟨o, hcompare, ho⟩ := compares_unpack hx hy
  rw [← ho.ne_gt]
  have hle : x ≤ y ↔ (x.toModel.unpack.compare y.toModel.unpack).any (·.isLE) = true :=
    ⟨of_decide_eq_true, decide_eq_true⟩
  rw [hle, hcompare]
  cases o <;> simp [Ordering.isLE]

end GateAlgebra
