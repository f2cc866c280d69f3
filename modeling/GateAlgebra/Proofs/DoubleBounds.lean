import GateAlgebra.Proofs.RoundingBounds
/-!
Bounds of what comes of arithmetic with doubles.  Products, sums and differences of finite doubles
are what their exact values are rounded to, and so keep all bounds of these that are sizes of
doubles; quotients and roots keep theirs.
-/

namespace GateAlgebra

open Float.Model UnpackedFloat

variable {x y : Float} {a b c : Rat} {s s' : Sign} {m m' : Nat} {e e' : Int}

/-! ### Finite doubles -/

section Finite

theorem cases_of_isFinite (h : x.isFinite = true) :
    (∃ sign, x.toModel.unpack = .zero sign) ∨
      ∃ sign m e hpos, x.toModel.unpack = .finite sign m e hpos := by
  change x.toModel.unpack.isFinite = true at h
  cases hx : x.toModel.unpack with
  | notANumber => rw [hx] at h; cases h
  | infinity => rw [hx] at h; cases h
  | zero sign => exact Or.inl ⟨sign, rfl⟩
  | finite sign m e hpos => exact Or.inr ⟨sign, m, e, hpos, rfl⟩

theorem AtMost.mono (h : AtMost a x) (hab : a ≤ b) : AtMost b x :=
  ⟨h.isFinite, h.size_le.trans hab⟩

theorem AtMost.nonneg (h : AtMost b x) : 0 ≤ b :=
  (abs_nonneg _).trans h.size_le

theorem AtLeast.le_along (h : AtLeast s a x) (hfinite : x.isFinite = true) :
    a ≤ along s (Double.ofFloat x).value :=
  (h.resolve_left fun hinfinite => not_isFinite_of_infinity hinfinite hfinite).2

theorem AtLeast.ne_nan (h : AtLeast s a x) : x.toModel.unpack ≠ .notANumber := by
  rcases h with hinfinite | ⟨hfinite, -⟩
  · rw [hinfinite]
    exact UnpackedFloat.noConfusion
  · intro hnan
    have hsame : UnpackedFloat.isFinite .notANumber = true :=
      (congrArg UnpackedFloat.isFinite hnan).symm.trans hfinite
    cases hsame

end Finite

/-! ### Signs -/

section Signs

theorem along_le_abs (s : Sign) (v : Rat) : along s v ≤ |v| :=
  (le_abs_self _).trans (abs_along s v).le

theorem along_mul (s s' : Sign) (v w : Rat) : along (s * s') (v * w) = along s v * along s' w := by
  cases s <;> cases s'
  · exact (neg_mul_neg v w).symm
  · exact (neg_mul v w).symm
  · exact (mul_neg v w).symm
  · rfl

theorem along_neg_neg (s : Sign) (v : Rat) : along (-s) (-v) = along s v := by
  cases s with
  | negative => rfl
  | positive => exact neg_neg v

theorem unpack_neg (x : Float) : (-x).toModel.unpack = UnpackedFloat.neg x.toModel.unpack := by
  refine unpack_pack ?_
  have hx := isCanonical_unpack x
  change IsCanonical (UnpackedFloat.neg x.toModel.unpack)
  cases h : x.toModel.unpack with
  | notANumber | infinity | zero => trivial
  | finite sign m e hpos =>
      rw [h] at hx
      exact hx

theorem unpack_abs (x : Float) : x.abs.toModel.unpack = UnpackedFloat.abs x.toModel.unpack := by
  refine unpack_pack ?_
  have hx := isCanonical_unpack x
  change IsCanonical (UnpackedFloat.abs x.toModel.unpack)
  cases h : x.toModel.unpack with
  | notANumber | infinity | zero => trivial
  | finite sign m e hpos =>
      rw [h] at hx
      exact hx

theorem isFinite_neg (x : Float) : (-x).isFinite = x.isFinite := by
  change (-x).toModel.unpack.isFinite = x.toModel.unpack.isFinite
  rw [unpack_neg]
  cases x.toModel.unpack <;> rfl

theorem isFinite_abs (x : Float) : x.abs.isFinite = x.isFinite := by
  change x.abs.toModel.unpack.isFinite = x.toModel.unpack.isFinite
  rw [unpack_abs]
  cases x.toModel.unpack <;> rfl

theorem value_neg (x : Float) : (Double.ofFloat (-x)).value = -(Double.ofFloat x).value := by
  have hneg := unpack_neg x
  cases h : x.toModel.unpack with
  | notANumber | infinity =>
      rw [h] at hneg
      rw [Double.ofFloat_eq_ofUnpacked, Double.ofFloat_eq_ofUnpacked, h, hneg]
      exact neg_zero.symm
  | zero sign =>
      rw [h] at hneg
      rw [value_of_unpack_zero h, value_of_unpack_zero hneg, neg_zero]
  | finite sign m e hpos =>
      rw [h] at hneg
      rw [value_of_finite h, value_of_finite hneg]
      cases sign
      · exact (neg_neg _).symm
      · rfl

theorem value_abs (x : Float) : (Double.ofFloat x.abs).value = |(Double.ofFloat x).value| := by
  have habs := unpack_abs x
  cases h : x.toModel.unpack with
  | notANumber | infinity =>
      rw [h] at habs
      rw [Double.ofFloat_eq_ofUnpacked, Double.ofFloat_eq_ofUnpacked, h, habs]
      exact abs_zero.symm
  | zero sign =>
      rw [h] at habs
      rw [value_of_unpack_zero h, value_of_unpack_zero habs, abs_zero]
  | finite sign m e hpos =>
      rw [h] at habs
      have hsize : (0 : Rat) ≤ m * 2 ^ e := by positivity
      rw [value_of_finite h, value_of_finite habs, abs_along, abs_of_nonneg hsize]
      rfl

theorem value_abs_nonneg (x : Float) : 0 ≤ (Double.ofFloat x.abs).value := by
  rw [value_abs]
  exact abs_nonneg _

theorem AtMost.neg (h : AtMost b x) : AtMost b (-x) where
  isFinite := (isFinite_neg x).trans h.isFinite
  size_le := by
    rw [value_neg, abs_neg]
    exact h.size_le

theorem AtLeast.neg (h : AtLeast s b x) : AtLeast (-s) b (-x) := by
  rcases h with hinfinite | ⟨hfinite, hle⟩
  · left
    rw [unpack_neg, hinfinite]
    rfl
  · refine Or.inr ⟨(isFinite_neg x).trans hfinite, ?_⟩
    rw [value_neg, along_neg_neg]
    exact hle

theorem AtMost.abs (h : AtMost b x) : AtMost b x.abs where
  isFinite := (isFinite_abs x).trans h.isFinite
  size_le := by
    rw [value_abs, abs_abs]
    exact h.size_le

end Signs

/-! ### Products -/

section Products

theorem full_mul {hpos : 0 < m} {hpos' : 0 < m'} (hx : x.toModel.unpack = .finite s m e hpos)
    (hy : y.toModel.unpack = .finite s' m' e' hpos') : e + e' ≤ -1074 ∨ 2 ^ 52 ≤ m * m' := by
  rcases normal_of_unpack hx with he | hm
  · rcases normal_of_unpack hy with he' | hm'
    · left
      omega
    · exact Or.inr (hm'.trans (Nat.le_mul_of_pos_left m' hpos))
  · exact Or.inr (hm.trans (Nat.le_mul_of_pos_right m hpos'))

theorem mul_size : (m : Rat) * 2 ^ e * (m' * 2 ^ e') = (m * m' : Nat) * 2 ^ (e + e') := by
  rw [zpow_add₀ two_ne_zero, Nat.cast_mul, mul_mul_mul_comm]

theorem rounds_mul (hx : x.isFinite = true) (hy : y.isFinite = true) :
    Rounds ((Double.ofFloat x).value * (Double.ofFloat y).value) (x * y) := by
  have hproduct : x * y = .ofModel (pack (UnpackedFloat.mul Format.binary64 x.toModel.unpack
    y.toModel.unpack)) := rfl
  rcases cases_of_isFinite hx with ⟨sign, hu⟩ | ⟨sign, m, e, hpos, hu⟩
  · rw [value_of_unpack_zero hu, zero_mul]
    rcases cases_of_isFinite hy with ⟨sign', hv⟩ | ⟨sign', m', e', hpos', hv⟩
    all_goals
      rw [hproduct, hu, hv]
      exact rounds_zero (unpack_pack_zero (sign * sign'))
  · rcases cases_of_isFinite hy with ⟨sign', hv⟩ | ⟨sign', m', e', hpos', hv⟩
    · rw [value_of_unpack_zero hv, mul_zero, hproduct, hu, hv]
      exact rounds_zero (unpack_pack_zero (sign * sign'))
    · rw [value_of_finite hu, value_of_finite hv, ← along_along (sign * sign') (_ * _), along_mul,
        along_along, along_along, mul_size, hproduct, hu, hv]
      exact rounds_round (full_mul hu hv) (Nat.mul_pos hpos hpos')

theorem AtMost.mul (hx : AtMost a x) (hy : AtMost b y) (hc : IsSize c) (hle : a * b ≤ c) :
    AtMost c (x * y) := by
  refine (rounds_mul hx.isFinite hy.isFinite).atMost hc ?_
  rw [abs_mul]
  exact (mul_le_mul hx.size_le hy.size_le (abs_nonneg _) hx.nonneg).trans hle

theorem unpack_mul_infinity (hx : x.toModel.unpack = .infinity s)
    (hy : y.toModel.unpack = .infinity s') : (x * y).toModel.unpack = .infinity (s * s') := by
  rw [unpack_mul, hx, hy]
  cases s <;> cases s' <;> rfl

/-- Products of finite numbers or of infinite ones. -/
theorem AtLeast.mul (hx : AtLeast s a x) (hy : AtLeast s' b y) (hsame : x.isFinite = y.isFinite)
    (ha : 0 ≤ a) (hb : 0 ≤ b) (hc : IsSize c) (hle : c ≤ a * b) : AtLeast (s * s') c (x * y) := by
  rcases hx with hx | ⟨hx, hax⟩
  · rcases hy with hy | ⟨hy, -⟩
    · exact Or.inl (unpack_mul_infinity hx hy)
    · exact absurd (hsame.trans hy) (not_isFinite_of_infinity hx)
  · rcases hy with hy | ⟨hy, hby⟩
    · exact absurd (hsame.symm.trans hx) (not_isFinite_of_infinity hy)
    · refine (rounds_mul hx hy).atLeast hc ?_
      rw [along_mul]
      exact hle.trans (mul_le_mul hax hby hb (ha.trans hax))

end Products

/-! ### Sums -/

section Sums

/-- Numbers with few bits are filled up with zeros before they are rounded. -/
theorem round_eq (sign : Sign) (hpos : 0 < m) (e : Int) :
    ∃ j : Nat, UnpackedFloat.round Format.binary64 sign m e =
        roundWithAccuracy Format.binary64 sign (m * 2 ^ j) (e - j) .exact ∧
      (e - j ≤ -1074 ∨ 2 ^ 52 ≤ m * 2 ^ j) := by
  have htarget : Format.binary64.targetExponent (totalExponent m e) =
      max ((m.log2 : Int) + 1 + e - 53) (-1074) := rfl
  refine ⟨(e - Format.binary64.targetExponent (totalExponent m e)).toNat, ?_, ?_⟩
  · simp only [UnpackedFloat.round, decreaseExponent, Nat.shiftLeft_eq]
  · rw [htarget]
    generalize hj : (e - max ((m.log2 : Int) + 1 + e - 53) (-1074)).toNat = j
    by_cases he : e - j ≤ -1074
    · exact Or.inl he
    · have hlog : 52 ≤ (m * 2 ^ j).log2 := by
        rw [log2_mul_two_pow hpos]
        omega
      exact Or.inr ((Nat.le_log2 (Nat.mul_pos hpos (Nat.two_pow_pos j)).ne').1 hlog)

theorem rounds_normalize (M : Int) (e : Int) :
    Rounds (M * 2 ^ e)
      (.ofModel (pack (UnpackedFloat.normalize Format.binary64 M e .positive))) := by
  have hround : ∀ sign (m : Nat), 0 < m → Rounds (along sign (m * 2 ^ e))
      (.ofModel (pack (UnpackedFloat.round Format.binary64 sign m e))) := by
    intro sign m hpos
    obtain ⟨j, hj, hfull⟩ := round_eq sign hpos e
    have hsize : (m : Rat) * 2 ^ e = (m * 2 ^ j : Nat) * 2 ^ (e - j) := by
      rw [zpow_sub₀ two_ne_zero, zpow_natCast]
      push_cast
      field_simp
    rw [hj, hsize]
    exact rounds_round hfull (Nat.mul_pos hpos (Nat.two_pow_pos j))
  rcases lt_trichotomy M 0 with hneg | rfl | hpos
  · have hnormalize : UnpackedFloat.normalize Format.binary64 M e .positive =
        UnpackedFloat.round Format.binary64 .negative (-M).toNat e := by
      rw [UnpackedFloat.normalize, compare_lt_iff_lt.2 hneg]
    have hvalue : (M : Rat) * 2 ^ e = along .negative ((-M).toNat * 2 ^ e) := by
      have hcast : ((-M).toNat : Rat) = -M := by exact_mod_cast Int.toNat_of_nonneg (by omega)
      rw [hcast]
      exact (neg_eq_iff_eq_neg.2 (neg_mul _ _)).symm
    rw [hnormalize, hvalue]
    exact hround .negative _ (by omega)
  · rw [Int.cast_zero, zero_mul]
    exact rounds_zero (unpack_pack_zero .positive)
  · have hnormalize : UnpackedFloat.normalize Format.binary64 M e .positive =
        UnpackedFloat.round Format.binary64 .positive M.toNat e := by
      rw [UnpackedFloat.normalize, compare_gt_iff_gt.2 hpos]
    have hvalue : (M : Rat) * 2 ^ e = along .positive (M.toNat * 2 ^ e) := by
      have hcast : (M.toNat : Rat) = M := by exact_mod_cast Int.toNat_of_nonneg hpos.le
      rw [hcast]
      rfl
    rw [hnormalize, hvalue]
    exact hround .positive _ (by omega)

theorem unpack_add (x y : Float) : (x + y).toModel.unpack =
    (pack (UnpackedFloat.add Format.binary64 x.toModel.unpack y.toModel.unpack)).unpack := rfl

theorem rounds_of_unpack_eq (h : x.toModel.unpack = y.toModel.unpack) (hy : y.isFinite = true) :
    Rounds (Double.ofFloat y).value x := by
  have hvalue : (Double.ofFloat y).value = (Double.ofFloat x).value := by
    rw [Double.ofFloat_eq_ofUnpacked, Double.ofFloat_eq_ofUnpacked, h]
  rw [hvalue]
  exact rounds_self ((congrArg UnpackedFloat.isFinite h).trans hy)

/-- Bringing a significand to a lower exponent. -/
theorem apply_size {low : Int} (h : low ≤ e) :
    ((s.apply (m <<< (e - low).toNat : Nat) : Int) : Rat) * 2 ^ low = along s (m * 2 ^ e) := by
  rw [Nat.shiftLeft_eq, size_eq_of_le h]
  cases s with
  | positive => exact congrArg (· * (2 : Rat) ^ low) (Int.cast_natCast _)
  | negative =>
      change ((-((m * 2 ^ (e - low).toNat : Nat) : Int) : Int) : Rat) * 2 ^ low = -_
      rw [Int.cast_neg, Int.cast_natCast, neg_mul]

theorem rounds_add (hx : x.isFinite = true) (hy : y.isFinite = true) :
    Rounds ((Double.ofFloat x).value + (Double.ofFloat y).value) (x + y) := by
  have hsum := unpack_add x y
  have hcanonical := isCanonical_unpack x
  have hcanonical' := isCanonical_unpack y
  rcases cases_of_isFinite hx with ⟨sign, hu⟩ | ⟨sign, m, e, hpos, hu⟩
  · rw [value_of_unpack_zero hu, zero_add]
    rcases cases_of_isFinite hy with ⟨sign', hv⟩ | ⟨sign', m', e', hpos', hv⟩
    · rw [value_of_unpack_zero hv]
      rw [hu, hv] at hsum
      cases sign <;> cases sign' <;> exact rounds_zero hsum
    · refine rounds_of_unpack_eq (hsum.trans ?_) hy
      rw [hu, hv]
      rw [hv] at hcanonical'
      exact unpack_pack hcanonical'
  · rcases cases_of_isFinite hy with ⟨sign', hv⟩ | ⟨sign', m', e', hpos', hv⟩
    · rw [value_of_unpack_zero hv, add_zero]
      refine rounds_of_unpack_eq (hsum.trans ?_) hx
      rw [hu, hv]
      rw [hu] at hcanonical
      exact unpack_pack hcanonical
    · have hnormalize : x + y = .ofModel (pack (UnpackedFloat.normalize Format.binary64
          (sign.apply (m <<< (e - min e e').toNat : Nat) +
            sign'.apply (m' <<< (e' - min e e').toNat : Nat)) (min e e') .positive)) := by
        change Float.ofModel (pack (UnpackedFloat.add Format.binary64 _ _)) = _
        rw [hu, hv]
        rfl
      rw [hnormalize, value_of_finite hu, value_of_finite hv, ← apply_size (min_le_left e e'),
        ← apply_size (min_le_right e e'), ← add_mul, ← Int.cast_add]
      exact rounds_normalize _ _

theorem sub_unpacked (u v : UnpackedFloat) : UnpackedFloat.sub Format.binary64 u v =
    UnpackedFloat.add Format.binary64 u (UnpackedFloat.neg v) := by
  cases u with
  | notANumber => rfl
  | infinity s => cases v <;> rfl
  | zero s => cases v <;> rfl
  | finite s m e hpos =>
      cases v with
      | finite s' m' e' hpos' =>
          have hsign : ∀ n : Int, (-s').apply n = -s'.apply n := fun n => by
            cases s'
            · exact (neg_neg n).symm
            · rfl
          simp only [UnpackedFloat.sub, UnpackedFloat.add, UnpackedFloat.neg, hsign, sub_eq_add_neg]
      | _ => rfl

theorem sub_eq_add (x y : Float) : x - y = x + -y := by
  change Float.ofModel (pack (UnpackedFloat.sub Format.binary64 _ _)) =
    Float.ofModel (pack (UnpackedFloat.add Format.binary64 _ (-y).toModel.unpack))
  rw [unpack_neg, sub_unpacked]

theorem AtMost.add (hx : AtMost a x) (hy : AtMost b y) (hc : IsSize c) (hle : a + b ≤ c) :
    AtMost c (x + y) :=
  (rounds_add hx.isFinite hy.isFinite).atMost hc
    ((abs_add_le _ _).trans ((add_le_add hx.size_le hy.size_le).trans hle))

theorem AtMost.sub (hx : AtMost a x) (hy : AtMost b y) (hc : IsSize c) (hle : a + b ≤ c) :
    AtMost c (x - y) := by
  rw [sub_eq_add]
  exact hx.add hy.neg hc hle

theorem along_add (s : Sign) (v w : Rat) : along s (v + w) = along s v + along s w := by
  cases s with
  | positive => rfl
  | negative => exact neg_add v w

theorem infinity_add (s : Sign) {u : UnpackedFloat} (hu : u.isFinite = true) :
    UnpackedFloat.add Format.binary64 (.infinity s) u = .infinity s := by
  cases u with
  | notANumber | infinity => cases hu
  | zero | finite => rfl

theorem add_infinity (s : Sign) {u : UnpackedFloat} (hu : u.isFinite = true) :
    UnpackedFloat.add Format.binary64 u (.infinity s) = .infinity s := by
  cases u with
  | notANumber | infinity => cases hu
  | zero | finite => rfl

theorem infinity_add_infinity (s : Sign) :
    UnpackedFloat.add Format.binary64 (.infinity s) (.infinity s) = .infinity s := by
  cases s <;> rfl

/-- Sums of numbers in one direction, finite or infinite. -/
theorem AtLeast.add (hx : AtLeast s a x) (hy : AtLeast s b y) (hc : IsSize c)
    (hle : c ≤ a + b) : AtLeast s c (x + y) := by
  have hsum := unpack_add x y
  rcases hx with hx | ⟨hx, hax⟩
  · left
    rw [hsum, hx]
    rcases hy with hy | ⟨hy, -⟩
    · rw [hy, infinity_add_infinity, unpack_pack_infinity]
    · rw [infinity_add s hy, unpack_pack_infinity]
  · rcases hy with hy | ⟨hy, hby⟩
    · left
      rw [hsum, hy, add_infinity s hx, unpack_pack_infinity]
    · refine (rounds_add hx hy).atLeast hc ?_
      rw [along_add]
      exact hle.trans (add_le_add hax hby)

theorem AtLeast.sub (hx : AtLeast s a x) (hy : AtLeast (-s) b y) (hc : IsSize c)
    (hle : c ≤ a + b) : AtLeast s c (x - y) := by
  have hy := hy.neg
  have hsign : - -s = s := by cases s <;> rfl
  rw [hsign] at hy
  rw [sub_eq_add]
  exact hx.add hy hc hle

end Sums

/-! ### Quotients -/

section Quotients

variable {q : Nat} {t : Int} {accuracy : Accuracy}

/-- A double below a number is not above what is left of the number without its last digits. -/
theorem le_floor (hfull : t ≤ -1074 ∨ 2 ^ 52 ≤ q) (hc : IsSize c) (hlt : c < (q + 1) * 2 ^ t) :
    c ≤ q * 2 ^ t := by
  obtain ⟨n, k, hn, hk, -, rfl⟩ := hc
  rcases le_or_gt t k with hle | hgt
  · rw [size_eq_of_le hle] at hlt ⊢
    have hlt : ((n * 2 ^ (k - t).toNat : Nat) : Rat) < (q + 1 : Nat) := by
      rw [← mul_lt_mul_iff_left₀ (zpow_pos (two_pos : (0 : Rat) < 2) t)]
      exact_mod_cast hlt
    exact size_le_size_iff.2 (Nat.le_of_lt_succ (by exact_mod_cast hlt))
  · have hq : 2 ^ 52 ≤ q := hfull.resolve_left (by omega)
    exact (size_lt_of_lt hn le_rfl).le.trans (le_size_of_le hq (by omega))

/-- What is rounded to a quotient. -/
theorem div_eq_round {hpos : 0 < m} {hpos' : 0 < m'} (hx : x.toModel.unpack = .finite s m e hpos)
    (hy : y.toModel.unpack = .finite s' m' e' hpos') :
    ∃ (q : Nat) (t : Int) (accuracy : Accuracy),
      x / y = .ofModel (pack (roundWithAccuracy Format.binary64 (s / s') q t accuracy)) ∧
      (t ≤ -1074 ∨ 2 ^ 52 ≤ q) ∧
      (q : Rat) * 2 ^ t * (m' * 2 ^ e') ≤ m * 2 ^ e ∧
      (m : Rat) * 2 ^ e < (q + 1) * 2 ^ t * (m' * 2 ^ e') ∧
      (accuracy = .exact ∨ (q : Rat) * 2 ^ t * (m' * 2 ^ e') < m * 2 ^ e) := by
  have hquotient : x / y = .ofModel (pack (UnpackedFloat.div Format.binary64 x.toModel.unpack
    y.toModel.unpack)) := rfl
  have htarget : Format.binary64.targetExponent (totalExponent m e - totalExponent m' e') =
      max ((m.log2 : Int) + 1 + e - (m'.log2 + 1 + e') - 53) (-1074) := rfl
  generalize ht : min (e - e') (max ((m.log2 : Int) + 1 + e - (m'.log2 + 1 + e') - 53) (-1074)) = t
  generalize hd : (e - e' - t).toNat = d
  have hlow : e = d + t + e' := by omega
  have hsize : (m : Rat) * 2 ^ e = (m * 2 ^ d : Nat) * 2 ^ t * 2 ^ e' := by
    rw [hlow, zpow_add₀ two_ne_zero, zpow_add₀ two_ne_zero, zpow_natCast]
    push_cast
    ring
  have hunit : (0 : Rat) < 2 ^ t * 2 ^ e' := by positivity
  refine ⟨m * 2 ^ d / m', t, accuracyOfFraction (m * 2 ^ d % m') m', ?_, ?_, ?_, ?_, ?_⟩
  · rw [hquotient, hx, hy]
    simp only [UnpackedFloat.div, divCore, htarget, ht, hd, Nat.shiftLeft_eq]
  · by_cases hmin : t ≤ -1074
    · exact Or.inl hmin
    · right
      rw [Nat.le_div_iff_mul_le hpos']
      calc 2 ^ 52 * m' ≤ 2 ^ 52 * 2 ^ (m'.log2 + 1) :=
            Nat.mul_le_mul_left _ Nat.lt_log2_self.le
        _ = 2 ^ (m'.log2 + 53) := by rw [← pow_add]; congr 1; omega
        _ ≤ 2 ^ (m.log2 + d) := Nat.pow_le_pow_right Nat.two_pos (by omega)
        _ = 2 ^ m.log2 * 2 ^ d := pow_add _ _ _
        _ ≤ m * 2 ^ d := Nat.mul_le_mul_right _ (Nat.log2_self_le hpos.ne')
  all_goals generalize m * 2 ^ d = M at *
  · have hle : ((M / m' * m' : Nat) : Rat) ≤ M := by exact_mod_cast Nat.div_mul_le_self M m'
    calc ((M / m' : Nat) : Rat) * 2 ^ t * (m' * 2 ^ e')
        = (M / m' * m' : Nat) * (2 ^ t * 2 ^ e') := by push_cast; ring
      _ ≤ M * (2 ^ t * 2 ^ e') := mul_le_mul_of_nonneg_right hle hunit.le
      _ = m * 2 ^ e := by rw [hsize]; ring
  · have hlt : (M : Rat) < ((M / m' + 1) * m' : Nat) := by
      exact_mod_cast Nat.lt_mul_of_div_lt (Nat.lt_succ_self _) hpos'
    calc (m : Rat) * 2 ^ e = M * (2 ^ t * 2 ^ e') := by rw [hsize]; ring
      _ < ((M / m' + 1) * m' : Nat) * (2 ^ t * 2 ^ e') := mul_lt_mul_of_pos_right hlt hunit
      _ = ((M / m' : Nat) + 1) * 2 ^ t * (m' * 2 ^ e') := by push_cast; ring
  · rcases Nat.eq_zero_or_pos (M % m') with hzero | hrest
    · exact Or.inl (if_pos hzero)
    · right
      have hlt : ((M / m' * m' : Nat) : Rat) < M := by
        have hsplit := Nat.div_add_mod' M m'
        exact_mod_cast (by omega : M / m' * m' < M)
      calc ((M / m' : Nat) : Rat) * 2 ^ t * (m' * 2 ^ e')
          = (M / m' * m' : Nat) * (2 ^ t * 2 ^ e') := by push_cast; ring
        _ < M * (2 ^ t * 2 ^ e') := mul_lt_mul_of_pos_right hlt hunit
        _ = m * 2 ^ e := by rw [hsize]; ring

theorem unpack_zero_div {hpos : 0 < m} (hx : x.toModel.unpack = .zero s)
    (hy : y.toModel.unpack = .finite s' m e hpos) : (x / y).toModel.unpack = .zero (s / s') := by
  change (pack (UnpackedFloat.div Format.binary64 _ _)).unpack = _
  rw [hx, hy]
  exact unpack_pack_zero (s / s')

theorem finite_of_value_ne_zero (h : x.isFinite = true) (hne : (Double.ofFloat x).value ≠ 0) :
    ∃ sign m e hpos, x.toModel.unpack = .finite sign m e hpos :=
  (cases_of_isFinite h).resolve_left fun ⟨_, hzero⟩ => hne (value_of_unpack_zero hzero)

theorem abs_value_of_finite {hpos : 0 < m} (h : x.toModel.unpack = .finite s m e hpos) :
    |(Double.ofFloat x).value| = m * 2 ^ e := by
  have hsize : (0 : Rat) ≤ m * 2 ^ e := by positivity
  rw [value_of_finite h, abs_along, abs_of_nonneg hsize]

theorem sign_of_pos {hpos : 0 < m} (h : x.toModel.unpack = .finite s m e hpos)
    (hs : 0 < along s' (Double.ofFloat x).value) : s' = s := by
  by_contra hne
  have hsize : (0 : Rat) < m * 2 ^ e := by positivity
  rw [value_of_finite h, along_of_ne hne, along_along] at hs
  linarith

theorem AtMost.div (hx : AtMost a x) (hy : y.isFinite = true) (hb : 0 < b)
    (hby : b ≤ |(Double.ofFloat y).value|) (hc : IsSize c) (hle : a ≤ c * b) :
    AtMost c (x / y) := by
  obtain ⟨s', m', e', hpos', hv⟩ := finite_of_value_ne_zero hy
    (abs_pos.1 (hb.trans_le hby))
  rcases cases_of_isFinite hx.isFinite with ⟨s, hu⟩ | ⟨s, m, e, hpos, hu⟩
  · exact (rounds_zero (unpack_zero_div hu hv)).atMost hc (abs_zero.trans_le hc.nonneg)
  · obtain ⟨q, t, accuracy, hq, hfull, hbelow, -, hexact⟩ := div_eq_round hu hv
    have hunit : (0 : Rat) < m' * 2 ^ e' := by positivity
    have hsize : (m : Rat) * 2 ^ e ≤ c * (m' * 2 ^ e') := by
      calc (m : Rat) * 2 ^ e ≤ a := (abs_value_of_finite hu).ge.trans hx.size_le
        _ ≤ c * b := hle
        _ ≤ c * (m' * 2 ^ e') :=
          mul_le_mul_of_nonneg_left (hby.trans (abs_value_of_finite hv).le) hc.nonneg
    rw [hq]
    refine atMost_round hfull hc (le_of_mul_le_mul_right (hbelow.trans hsize) hunit) ?_
    exact hexact.imp_right fun hlt => lt_of_mul_lt_mul_right (hlt.trans_le hsize) hunit.le

theorem AtLeast.div (hx : x.isFinite = true) (hax : a ≤ along s (Double.ofFloat x).value)
    (ha : 0 < a) (hy : AtMost b y) (hs : 0 < along s' (Double.ofFloat y).value) (hc : IsSize c)
    (hle : c * b ≤ a) : AtLeast (s / s') c (x / y) := by
  have hne : (Double.ofFloat y).value ≠ 0 := fun hzero => by
    rw [hzero, along_zero] at hs
    exact lt_irrefl _ hs
  have hne' : (Double.ofFloat x).value ≠ 0 := fun hzero => by
    rw [hzero, along_zero] at hax
    exact absurd hax (not_le.2 ha)
  obtain ⟨sign', m', e', hpos', hv⟩ := finite_of_value_ne_zero hy.isFinite hne
  obtain ⟨sign, m, e, hpos, hu⟩ := finite_of_value_ne_zero hx hne'
  obtain rfl := sign_of_pos hv hs
  obtain rfl := sign_of_pos hu (ha.trans_le hax)
  obtain ⟨q, t, accuracy, hq, hfull, -, habove, -⟩ := div_eq_round hu hv
  have hunit : (0 : Rat) < m' * 2 ^ e' := by positivity
  rw [hq]
  refine atLeast_round hfull hc (le_floor hfull hc (lt_of_mul_lt_mul_right ?_ hunit.le))
  calc c * (m' * 2 ^ e') ≤ c * b :=
        mul_le_mul_of_nonneg_left ((abs_value_of_finite hv).ge.trans hy.size_le) hc.nonneg
    _ ≤ a := hle
    _ ≤ m * 2 ^ e := hax.trans ((along_le_abs _ _).trans (abs_value_of_finite hu).le)
    _ < (q + 1) * 2 ^ t * (m' * 2 ^ e') := habove

end Quotients

/-! ### Roots -/

section Roots

/-- What is rounded to a root. -/
theorem sqrt_eq_round {hpos : 0 < m} (hx : x.toModel.unpack = .finite .positive m e hpos) :
    ∃ (root : Nat) (t : Int) (accuracy : Accuracy),
      x.sqrt = .ofModel (pack (roundWithAccuracy Format.binary64 .positive root t accuracy)) ∧
      (t ≤ -1074 ∨ 2 ^ 52 ≤ root) ∧
      ((root : Rat) * 2 ^ t) ^ 2 ≤ m * 2 ^ e ∧
      (m : Rat) * 2 ^ e < ((root + 1) * 2 ^ t) ^ 2 ∧
      (accuracy = .exact ∨ ((root : Rat) * 2 ^ t) ^ 2 < m * 2 ^ e) := by
  have hroot : x.sqrt = .ofModel (pack (UnpackedFloat.sqrt Format.binary64 x.toModel.unpack)) := rfl
  have htarget : Format.binary64.targetExponent ((totalExponent m e + 1).ediv 2) =
      max (((m.log2 : Int) + 1 + e + 1) / 2 - 53) (-1074) := rfl
  have hhalf : e.ediv 2 = e / 2 := rfl
  generalize ht : min (e / 2) (max (((m.log2 : Int) + 1 + e + 1) / 2 - 53) (-1074)) = t
  generalize hd : (e - 2 * t).toNat = d
  have hlow : e = d + 2 * t := by omega
  have hunit : (0 : Rat) < 2 ^ (2 * t) := by positivity
  have hsquare : ((2 : Rat) ^ t) ^ 2 = 2 ^ (2 * t) := by
    rw [← zpow_natCast, ← zpow_mul, mul_comm]
    rfl
  have hsize : (m : Rat) * 2 ^ e = (m * 2 ^ d : Nat) * 2 ^ (2 * t) := by
    rw [hlow, zpow_add₀ two_ne_zero, zpow_natCast]
    push_cast
    ring
  refine ⟨(m * 2 ^ d).sqrt, t, if m * 2 ^ d - (m * 2 ^ d).sqrt * (m * 2 ^ d).sqrt = 0 then .exact
    else .inexact (if m * 2 ^ d - (m * 2 ^ d).sqrt * (m * 2 ^ d).sqrt ≤ (m * 2 ^ d).sqrt then .lt
      else .gt), ?_, ?_, ?_, ?_, ?_⟩
  · rw [hroot, hx]
    simp only [UnpackedFloat.sqrt, sqrtCore, htarget, hhalf, ht, hd, Nat.shiftLeft_eq]
  · by_cases hmin : t ≤ -1074
    · exact Or.inl hmin
    · right
      rw [Nat.le_sqrt]
      calc 2 ^ 52 * 2 ^ 52 = 2 ^ 104 := by norm_num
        _ ≤ 2 ^ (m.log2 + d) := Nat.pow_le_pow_right Nat.two_pos (by omega)
        _ = 2 ^ m.log2 * 2 ^ d := pow_add _ _ _
        _ ≤ m * 2 ^ d := Nat.mul_le_mul_right _ (Nat.log2_self_le hpos.ne')
  all_goals
    rw [hsize]
    generalize m * 2 ^ d = M
  · rw [mul_pow, hsquare, mul_le_mul_iff_left₀ hunit]
    exact_mod_cast (pow_two _).trans_le (Nat.sqrt_le M)
  · rw [mul_pow, hsquare, mul_lt_mul_iff_left₀ hunit]
    exact_mod_cast (Nat.lt_succ_sqrt M).trans_eq (pow_two _).symm
  · by_cases hrest : M - M.sqrt * M.sqrt = 0
    · exact Or.inl (if_pos hrest)
    · right
      rw [mul_pow, hsquare, mul_lt_mul_iff_left₀ hunit]
      exact_mod_cast (pow_two _).trans_lt (by omega : M.sqrt * M.sqrt < M)

theorem finite_of_pos (h : x.isFinite = true) (hpos : 0 < (Double.ofFloat x).value) :
    ∃ m e hpos, x.toModel.unpack = .finite .positive m e hpos := by
  obtain ⟨s, m, e, hm, hu⟩ := finite_of_value_ne_zero h hpos.ne'
  obtain rfl : Sign.positive = s := sign_of_pos hu hpos
  exact ⟨m, e, hm, hu⟩

theorem AtMost.sqrt (hx : AtMost (c ^ 2) x) (hpos : 0 < (Double.ofFloat x).value) (hc : IsSize c) :
    AtMost c x.sqrt := by
  obtain ⟨m, e, hm, hu⟩ := finite_of_pos hx.isFinite hpos
  obtain ⟨root, t, accuracy, hroot, hfull, hbelow, -, hexact⟩ := sqrt_eq_round hu
  have hsize : (m : Rat) * 2 ^ e ≤ c ^ 2 := (abs_value_of_finite hu).ge.trans hx.size_le
  rw [hroot]
  refine atMost_round hfull hc ?_ ?_
  · exact (pow_le_pow_iff_left₀ (by positivity) hc.nonneg two_ne_zero).1 (hbelow.trans hsize)
  · exact hexact.imp_right fun hlt => lt_of_pow_lt_pow_left₀ 2 hc.nonneg (hlt.trans_le hsize)

theorem AtLeast.sqrt (hx : x.isFinite = true) (hpos : 0 < (Double.ofFloat x).value)
    (hc : IsSize c) (hle : c ^ 2 ≤ (Double.ofFloat x).value) : AtLeast .positive c x.sqrt := by
  obtain ⟨m, e, hm, hu⟩ := finite_of_pos hx hpos
  obtain ⟨root, t, accuracy, hroot, hfull, -, habove, -⟩ := sqrt_eq_round hu
  have hsize : c ^ 2 < ((root + 1) * 2 ^ t) ^ 2 :=
    hle.trans_lt ((value_of_finite hu).trans_lt habove)
  rw [hroot]
  exact atLeast_round hfull hc (le_floor hfull hc
    (lt_of_pow_lt_pow_left₀ 2 (by positivity) hsize))

end Roots

/-! ### NaN -/

section NaN

theorem Rounds.ne_nan {v : Rat} (h : Rounds v x) : x.toModel.unpack ≠ .notANumber := by
  rcases le_total 0 v with hv | hv
  · exact (h.atLeast (s := .positive) isSize_zero hv).ne_nan
  · exact (h.atLeast (s := .negative) isSize_zero (neg_nonneg.2 hv)).ne_nan

/-- What is not NaN is finite or infinite. -/
theorem finite_or_infinity (h : x.toModel.unpack ≠ .notANumber) :
    x.isFinite = true ∨ ∃ s, x.toModel.unpack = .infinity s := by
  change x.toModel.unpack.isFinite = true ∨ _
  cases hx : x.toModel.unpack with
  | notANumber => exact absurd hx h
  | infinity s => exact Or.inr ⟨s, rfl⟩
  | zero | finite => exact Or.inl rfl

theorem add_ne_nan (hx : x.isFinite = true) (hy : y.toModel.unpack ≠ .notANumber) :
    (x + y).toModel.unpack ≠ .notANumber := by
  rcases finite_or_infinity hy with hfinite | ⟨s, hinfinite⟩
  · exact (rounds_add hx hfinite).ne_nan
  · rw [unpack_add, hinfinite, add_infinity s hx, unpack_pack_infinity]
    exact UnpackedFloat.noConfusion

theorem sub_ne_nan (hx : x.isFinite = true) (hy : y.toModel.unpack ≠ .notANumber) :
    (x - y).toModel.unpack ≠ .notANumber := by
  rw [sub_eq_add]
  refine add_ne_nan hx ?_
  rw [unpack_neg]
  cases h : y.toModel.unpack with
  | notANumber => exact absurd h hy
  | infinity | zero | finite => exact UnpackedFloat.noConfusion

theorem mul_ne_nan (hx : x.toModel.unpack ≠ .notANumber) (hy : y.isFinite = true)
    (hne : (Double.ofFloat y).value ≠ 0) : (x * y).toModel.unpack ≠ .notANumber := by
  rcases finite_or_infinity hx with hfinite | ⟨s, hinfinite⟩
  · exact (rounds_mul hfinite hy).ne_nan
  · obtain ⟨s', m, e, hpos, hv⟩ := finite_of_value_ne_zero hy hne
    rw [unpack_mul, hinfinite, hv]
    change (pack (.infinity (s * s'))).unpack ≠ _
    rw [unpack_pack_infinity]
    exact UnpackedFloat.noConfusion

theorem div_ne_nan (hx : x.isFinite = true) (hy : y.isFinite = true)
    (hne : (Double.ofFloat y).value ≠ 0) : (x / y).toModel.unpack ≠ .notANumber := by
  obtain ⟨s', m', e', hpos', hv⟩ := finite_of_value_ne_zero hy hne
  rcases cases_of_isFinite hx with ⟨s, hu⟩ | ⟨s, m, e, hpos, hu⟩
  · exact (rounds_zero (unpack_zero_div hu hv)).ne_nan
  · obtain ⟨q, t, accuracy, hq, hfull, -⟩ := div_eq_round hu hv
    have hrounded : AtLeast (s / s') 0 (x / y) := by
      rw [hq]
      exact atLeast_round hfull isSize_zero (by positivity)
    exact hrounded.ne_nan

end NaN

end GateAlgebra
