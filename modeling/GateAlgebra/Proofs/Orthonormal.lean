import GateAlgebra.Proofs.Comparable
import GateAlgebra.Proofs.Length
import GateAlgebra.Proofs.MatrixOutcome
/-!
Rows that are orthonormal within the tolerance.  Unless an entry is NaN, a matrix that is accepted
has small entries: the overlap of a row with itself is not less than the square of any of its parts,
and it has no imaginary part.  So no sum overflows, no distance is NaN, and one that is not above
the tolerance is at most the tolerance.
-/

namespace GateAlgebra

open Float.Model UnpackedFloat

/-! ### Terms -/

section Terms

variable {x y : Float} {a b c : Rat} {s : Sign}

theorem exists_along_eq_abs (v : Rat) : ∃ s, along s v = |v| := by
  rcases le_total 0 v with hv | hv
  · exact ⟨.positive, (abs_of_nonneg hv).symm⟩
  · exact ⟨.negative, (abs_of_nonpos hv).symm⟩

/-- A number that is not of at most a size has at least that size in some direction. -/
theorem exists_atLeast (h : x.toModel.unpack ≠ .notANumber) (hlarge : x.isFinite = true →
    b ≤ |(Double.ofFloat x).value|) : ∃ s, AtLeast s b x := by
  rcases finite_or_infinity h with hfinite | ⟨s, hinfinite⟩
  · obtain ⟨s, hs⟩ := exists_along_eq_abs (Double.ofFloat x).value
    exact ⟨s, Or.inr ⟨hfinite, (hlarge hfinite).trans hs.ge⟩⟩
  · exact ⟨s, Or.inl hinfinite⟩

theorem AtLeast.mul_self (h : AtLeast s b x) (hb : 0 ≤ b) (hc : IsSize c) (hle : c ≤ b * b) :
    AtLeast .positive c (x * x) := by
  have hsign : s * s = .positive := by cases s <;> rfl
  rw [← hsign]
  exact h.mul h rfl hb hb hc hle

theorem AtLeast.mul_neg_self (h : AtLeast s b x) (hb : 0 ≤ b) (hc : IsSize c) (hle : c ≤ b * b) :
    AtLeast .negative c (x * -x) := by
  have hsign : s * -s = .negative := by cases s <;> rfl
  rw [← hsign]
  exact h.mul h.neg (isFinite_neg x).symm hb hb hc hle

/-- The first part of the product of a number with its conjugate. -/
theorem atLeast_term {z : ComplexFloat} {s' : Sign} (hre : AtLeast s a z.re)
    (him : AtLeast s' b z.im) (ha : 0 ≤ a) (hb : 0 ≤ b) (haa : IsSize (a * a))
    (hbb : IsSize (b * b)) (hc : IsSize c) (hle : c ≤ a * a + b * b) :
    AtLeast .positive c (z * Conj.conj z).re :=
  (hre.mul_self ha haa le_rfl).sub (him.mul_neg_self hb hbb le_rfl) hc hle

end Terms

/-! ### Sums of terms -/

section Sums

variable {f : Nat → ComplexFloat} {n k : Nat} {x y : Float} {b c : Rat} {s : Sign}

theorem re_sumBelow (f : Nat → ComplexFloat) (n : Nat) :
    (sumBelow f n).re = sumBelow (fun k => (f k).re) n := by
  induction n with
  | zero => rfl
  | succ n ih => exact congrArg (· + (f n).re) ih

theorem im_sumBelow (f : Nat → ComplexFloat) (n : Nat) :
    (sumBelow f n).im = sumBelow (fun k => (f k).im) n := by
  induction n with
  | zero => rfl
  | succ n ih => exact congrArg (· + (f n).im) ih

variable {g : Nat → Float}

theorem AtMost.value_eq_zero (h : AtMost 0 x) : (Double.ofFloat x).value = 0 :=
  abs_nonpos_iff.1 h.size_le

theorem atMost_zero : AtMost 0 (0 : Float) where
  isFinite := rfl
  size_le := (abs_eq_zero.2 (value_of_unpack_zero rfl)).le

theorem atLeast_zero_sumBelow (h : ∀ k < n, AtLeast .positive 0 (g k)) :
    AtLeast .positive 0 (sumBelow g n) := by
  induction n with
  | zero =>
      have hzero : AtLeast .positive 0 (0 : Float) :=
        Or.inr ⟨atMost_zero.isFinite, atMost_zero.value_eq_zero.ge⟩
      exact hzero
  | succ n ih =>
      exact (ih fun k hk => h k (hk.trans n.lt_succ_self)).add (h n n.lt_succ_self) isSize_zero
        (add_zero 0).ge

/-- A sum of terms that are not negative is at least each of them. -/
theorem atLeast_sumBelow (hb : IsSize b) (h : ∀ k < n, AtLeast .positive 0 (g k)) (hk : k < n)
    (hlarge : AtLeast .positive b (g k)) : AtLeast .positive b (sumBelow g n) := by
  induction n with
  | zero => exact absurd hk (Nat.not_lt_zero k)
  | succ n ih =>
      have hinit : ∀ k < n, AtLeast .positive 0 (g k) := fun k hk => h k (hk.trans n.lt_succ_self)
      rcases Nat.lt_succ_iff_lt_or_eq.1 hk with hlt | rfl
      · exact (ih hinit hlt).add (h n n.lt_succ_self) hb (add_zero b).ge
      · exact (atLeast_zero_sumBelow hinit).add hlarge hb (zero_add b).ge

/-- A sum in one direction is finite only if both terms are. -/
theorem isFinite_of_add (hx : AtLeast s 0 x) (hy : AtLeast s 0 y) (h : (x + y).isFinite = true) :
    x.isFinite = true ∧ y.isFinite = true := by
  have hsum := unpack_add x y
  rcases hx with hx | ⟨hx, -⟩
  · refine absurd h (not_isFinite_of_infinity (s := s) ?_)
    rcases hy with hy | ⟨hy, -⟩
    · rw [hsum, hx, hy, infinity_add_infinity, unpack_pack_infinity]
    · rw [hsum, hx, infinity_add s hy, unpack_pack_infinity]
  · rcases hy with hy | ⟨hy, -⟩
    · refine absurd h (not_isFinite_of_infinity (s := s) ?_)
      rw [hsum, hy, add_infinity s hx, unpack_pack_infinity]
    · exact ⟨hx, hy⟩

theorem isFinite_of_sumBelow (h : ∀ k < n, AtLeast .positive 0 (g k))
    (hfinite : (sumBelow g n).isFinite = true) (hk : k < n) : (g k).isFinite = true := by
  induction n with
  | zero => exact absurd hk (Nat.not_lt_zero k)
  | succ n ih =>
      have hinit : ∀ k < n, AtLeast .positive 0 (g k) := fun k hk => h k (hk.trans n.lt_succ_self)
      obtain ⟨hfirst, hlast⟩ := isFinite_of_add (atLeast_zero_sumBelow hinit)
        (h n n.lt_succ_self) hfinite
      rcases Nat.lt_succ_iff_lt_or_eq.1 hk with hlt | rfl
      · exact ih hinit hfirst hlt
      · exact hlast

theorem atMost_zero_sumBelow (h : ∀ k < n, AtMost 0 (g k)) : AtMost 0 (sumBelow g n) := by
  induction n with
  | zero => exact atMost_zero
  | succ n ih =>
      exact (ih fun k hk => h k (hk.trans n.lt_succ_self)).add (h n n.lt_succ_self) isSize_zero
        (add_zero 0).le

/-- Sums of small terms. -/
theorem atMost_sumBelow {size : Nat} (h : ∀ k < n, AtMost size (g k))
    (hn : n * size < 2 ^ 53) : AtMost (n * size : Nat) (sumBelow g n) := by
  induction n with
  | zero => exact atMost_zero.mono (Nat.cast_nonneg _)
  | succ n ih =>
      have hsplit : (n + 1) * size = n * size + size := Nat.succ_mul n size
      refine (ih (fun k hk => h k (hk.trans n.lt_succ_self)) (by omega)).add (h n n.lt_succ_self)
        (isSize_natCast hn) ?_
      rw [hsplit, Nat.cast_add]

end Sums

/-! ### Products with conjugates -/

section Conjugates

variable {x y : Float}

theorem along_injective {s : Sign} {v w : Rat} (h : along s v = along s w) : v = w := by
  rw [← along_along s v, h, along_along]

/-- The opposite factor makes the opposite product. -/
theorem value_mul_neg (hx : x.isFinite = true) (hy : y.isFinite = true)
    (h : (x * y).isFinite = true) :
    (x * -y).isFinite = true ∧
      (Double.ofFloat (x * -y)).value = -(Double.ofFloat (x * y)).value := by
  have hneg := unpack_neg y
  have hy' : (-y).isFinite = true := (isFinite_neg y).trans hy
  have hproduct : ∀ z : Float, x * z = .ofModel (pack (UnpackedFloat.mul Format.binary64
    x.toModel.unpack z.toModel.unpack)) := fun _ => rfl
  by_cases hzero : (Double.ofFloat x).value * (Double.ofFloat y).value = 0
  · have hsize : AtMost 0 (x * y) :=
      (rounds_mul hx hy).atMost isSize_zero (by rw [hzero, abs_zero])
    have hsize' : AtMost 0 (x * -y) :=
      (rounds_mul hx hy').atMost isSize_zero (by rw [value_neg, mul_neg, hzero, neg_zero, abs_zero])
    exact ⟨hsize'.isFinite, by rw [hsize.value_eq_zero, hsize'.value_eq_zero, neg_zero]⟩
  · obtain ⟨s, m, e, hpos, hu⟩ := finite_of_value_ne_zero hx (left_ne_zero_of_mul hzero)
    obtain ⟨s', m', e', hpos', hv⟩ := finite_of_value_ne_zero hy (right_ne_zero_of_mul hzero)
    have hfull := full_mul hu hv
    have hround : x * y = .ofModel (pack (roundWithAccuracy Format.binary64 (s * s') (m * m')
        (e + e') .exact)) := by
      rw [hproduct, hu, hv]
      rfl
    have hround' : x * -y = .ofModel (pack (roundWithAccuracy Format.binary64 (-(s * s')) (m * m')
        (e + e') .exact)) := by
      have hsign : s * -s' = -(s * s') := by cases s <;> cases s' <;> rfl
      rw [hproduct, hneg, hu, hv, ← hsign]
      rfl
    rw [hround] at h
    have hfinite : (x * -y).isFinite = true := by
      rw [hround']
      exact isFinite_roundWithAccuracy_iff.2 (isFinite_roundWithAccuracy_iff.1 h)
    have hvalue := (@unpack_round (s * s') _ _ .exact hfull).resolve_left
      fun hinfinite => not_isFinite_of_infinity hinfinite h
    have hvalue' := (@unpack_round (-(s * s')) _ _ .exact hfull).resolve_left
      fun hinfinite => not_isFinite_of_infinity hinfinite (hround' ▸ hfinite)
    rw [← hround] at hvalue
    rw [← hround'] at hvalue'
    refine ⟨hfinite, along_injective (s := -(s * s')) ?_⟩
    rw [hvalue'.2, along_neg_neg, hvalue.2]

/-- A number times its conjugate has no second part, as long as the first one is finite. -/
theorem atMost_zero_term {z : ComplexFloat} {s s' : Sign} (hre : AtLeast s 0 z.re)
    (him : AtLeast s' 0 z.im) (h : (z * Conj.conj z).re.isFinite = true) :
    AtMost 0 (z * Conj.conj z).im := by
  have hsum : (z.re * z.re + -(z.im * -z.im)).isFinite = true := by
    rw [← sub_eq_add]
    exact h
  obtain ⟨hsquare, hsquare'⟩ := isFinite_of_add
    (hre.mul_self le_rfl isSize_zero (mul_zero 0).ge)
    (him.mul_neg_self le_rfl isSize_zero (mul_zero 0).ge).neg hsum
  rw [isFinite_neg] at hsquare'
  have hx := (isFinite_of_mul hsquare).1
  have hy := (isFinite_of_mul hsquare').1
  have hxBound := (isFinite_mul_iff hx hx).1 hsquare
  have hyBound := (isFinite_mul_iff hy ((isFinite_neg _).trans hy)).1 hsquare'
  rw [value_neg, mul_neg, abs_neg, abs_mul] at hyBound
  rw [abs_mul] at hxBound
  have hproduct : (z.re * z.im).isFinite = true := by
    rw [isFinite_mul_iff hx hy, abs_mul]
    rcases le_total |(Double.ofFloat z.re).value| |(Double.ofFloat z.im).value| with hle | hle
    · exact (mul_le_mul_of_nonneg_right hle (abs_nonneg _)).trans_lt hyBound
    · exact (mul_le_mul_of_nonneg_left hle (abs_nonneg _)).trans_lt hxBound
  obtain ⟨hfinite, hvalue⟩ := value_mul_neg hx hy hproduct
  change AtMost 0 (z.re * -z.im + z.im * z.re)
  rw [mul_comm_double z.im]
  refine (rounds_add hfinite hproduct).atMost isSize_zero ?_
  rw [hvalue, neg_add_cancel, abs_zero]

end Conjugates

/-! ### Small entries -/

section Entries

variable {x y : Float} {a b c : Rat} {n k : Nat}

theorem lt_of_atLeast (hx : x.isFinite = true) (hlt : (Double.ofFloat x).value < b)
    (hy : AtLeast .positive b y) : x < y := by
  rcases hy with hinfinite | ⟨hfinite, hle⟩
  · have hcompare : x.toModel.unpack.compare y.toModel.unpack = some .lt := by
      rcases cases_of_isFinite hx with ⟨s, hu⟩ | ⟨s, m, e, hpos, hu⟩
      all_goals
        rw [hu, hinfinite]
        rfl
    exact decide_eq_true (beq_iff_eq.2 hcompare)
  · exact (lt_iff_value_lt hx hfinite).2 (hlt.trans_le hle)

/-- Two numbers of which one is not below the other. -/
theorem le_of_not_lt_double (hx : x.isFinite = true) (hy : y.toModel.unpack ≠ .notANumber)
    (h : ¬x < y) : y ≤ x := by
  rcases finite_or_infinity hy with hfinite | ⟨s, hinfinite⟩
  · rw [le_iff_value_le hfinite hx, ← not_lt, ← lt_iff_value_lt hx hfinite]
    exact h
  · cases s with
    | positive =>
        have hlarge : AtLeast .positive ((Double.ofFloat x).value + 1) y := Or.inl hinfinite
        exact absurd (lt_of_atLeast hx (lt_add_one _) hlarge) h
    | negative =>
        have hcompare : y.toModel.unpack.compare x.toModel.unpack = some .lt := by
          rcases cases_of_isFinite hx with ⟨s, hu⟩ | ⟨s, m, e, hpos, hu⟩
          all_goals
            rw [hu, hinfinite]
            rfl
        have hle : (y.toModel.unpack.compare x.toModel.unpack).any (·.isLE) = true := by
          rw [hcompare]
          rfl
        exact decide_eq_true hle

theorem unpack_overlapTolerance : overlapTolerance.toModel.unpack =
    .finite .positive 6044629098073146 (-79) (by decide) := rfl

theorem isFinite_overlapTolerance : overlapTolerance.isFinite = true := rfl

theorem value_overlapTolerance_lt : (Double.ofFloat overlapTolerance).value < 3 := by
  rw [value_of_finite unpack_overlapTolerance, along]
  norm_num

/-- A number that is not NaN and whose parts are not both small has a large square. -/
theorem atLeast_four_term {z : ComplexFloat} (hre : z.re.toModel.unpack ≠ .notANumber)
    (him : z.im.toModel.unpack ≠ .notANumber) (hlarge : ¬(AtMost 2 z.re ∧ AtMost 2 z.im)) :
    AtLeast .positive 4 (z * Conj.conj z).re := by
  have hfour : IsSize 4 := by exact_mod_cast isSize_natCast (n := 4) (by norm_num)
  have hsquare : IsSize ((2 : Rat) * 2) := by norm_num [hfour]
  have hnone : IsSize ((0 : Rat) * 0) := by
    rw [mul_zero]
    exact isSize_zero
  obtain ⟨s, hzeroRe⟩ := exists_atLeast hre fun _ => abs_nonneg _
  obtain ⟨s', hzeroIm⟩ := exists_atLeast him fun _ => abs_nonneg _
  have hside : ∀ {x : Float}, ¬AtMost 2 x → x.isFinite = true →
      2 ≤ |(Double.ofFloat x).value| := fun hx hfinite =>
    (not_le.1 fun hle => hx ⟨hfinite, hle⟩).le
  rcases not_and_or.1 hlarge with hre' | him'
  · obtain ⟨t, ht⟩ := exists_atLeast hre (hside hre')
    exact atLeast_term ht hzeroIm (by norm_num) le_rfl hsquare hnone hfour (by norm_num)
  · obtain ⟨t, ht⟩ := exists_atLeast him (hside him')
    exact atLeast_term hzeroRe ht le_rfl (by norm_num) hnone hsquare hfour (by norm_num)

theorem atLeast_zero_term {z : ComplexFloat} (hre : z.re.toModel.unpack ≠ .notANumber)
    (him : z.im.toModel.unpack ≠ .notANumber) : AtLeast .positive 0 (z * Conj.conj z).re := by
  have hnone : IsSize ((0 : Rat) * 0) := by
    rw [mul_zero]
    exact isSize_zero
  obtain ⟨s, hzeroRe⟩ := exists_atLeast hre fun _ => abs_nonneg _
  obtain ⟨s', hzeroIm⟩ := exists_atLeast him fun _ => abs_nonneg _
  exact atLeast_term hzeroRe hzeroIm le_rfl le_rfl hnone hnone isSize_zero (by norm_num)

/-- A number far above one, and nothing beside it, is far from one. -/
theorem far_of_atLeast_four (hx : AtLeast .positive 4 x)
    (hy : x.isFinite = true → AtMost 0 y) : overlapTolerance < hypotenuse (x - 1) y := by
  have hthree : IsSize 3 := by exact_mod_cast isSize_natCast (n := 3) (by norm_num)
  refine lt_of_atLeast isFinite_overlapTolerance value_overlapTolerance_lt ?_
  rcases hx with hinfinite | ⟨hfinite, hle⟩
  · have hone : (-(1 : Float)).toModel.unpack.isFinite = true :=
      (isFinite_neg 1).trans isPower_one.isFinite
    refine Or.inl (unpack_hypotenuse_infinity (s := .positive) ?_)
    rw [sub_eq_add, unpack_add, hinfinite, infinity_add _ hone, unpack_pack_infinity]
  · change (4 : Rat) ≤ (Double.ofFloat x).value at hle
    have hrounds := rounds_add hfinite ((isFinite_neg 1).trans isPower_one.isFinite)
    rw [value_neg, isPower_one.value_eq, zpow_zero, ← sub_eq_add] at hrounds
    have hsize : AtMost |(Double.ofFloat x).value| (x - 1) := by
      refine hrounds.atMost (isSize_abs_value hfinite) ?_
      rw [abs_of_nonneg (by linarith), abs_of_nonneg (by linarith)]
      linarith
    have hfar : (3 : Rat) ≤ (Double.ofFloat x).value + -1 := by linarith
    have hthree' : 3 ≤ (Double.ofFloat (x - 1)).value :=
      (hrounds.atLeast (s := .positive) hthree hfar).le_along hsize.isFinite
    exact (rounds_hypotenuse_axis hsize.isFinite (hy hfinite)).atLeast (s := .positive) hthree
      (hthree'.trans (le_abs_self _))

/-- The entries of a row that overlaps with itself as it should. -/
theorem atMost_two_of_close {f : Nat → ComplexFloat}
    (hnumbers : ∀ k < n, (f k).re.toModel.unpack ≠ .notANumber ∧
      (f k).im.toModel.unpack ≠ .notANumber)
    (hclose : ¬overlapTolerance < (sumBelow (fun k => f k * Conj.conj (f k)) n - 1).norm)
    (hk : k < n) : AtMost 2 (f k).re ∧ AtMost 2 (f k).im := by
  by_contra hlarge
  have hfour : IsSize 4 := by exact_mod_cast isSize_natCast (n := 4) (by norm_num)
  set overlap := sumBelow (fun k => f k * Conj.conj (f k)) n with hoverlap
  have hterms : ∀ k < n, AtLeast .positive 0 (f k * Conj.conj (f k)).re := fun k hk =>
    atLeast_zero_term (hnumbers k hk).1 (hnumbers k hk).2
  have hre : AtLeast .positive 4 overlap.re := by
    rw [hoverlap, re_sumBelow]
    exact atLeast_sumBelow hfour hterms hk
      (atLeast_four_term (hnumbers k hk).1 (hnumbers k hk).2 hlarge)
  have him : overlap.re.isFinite = true → AtMost 0 (overlap.im - 0) := by
    intro hfinite
    rw [hoverlap, re_sumBelow] at hfinite
    have hzero : AtMost 0 overlap.im := by
      rw [hoverlap, im_sumBelow]
      refine atMost_zero_sumBelow fun k hk => ?_
      have hfiniteTerm : (f k * Conj.conj (f k)).re.isFinite = true :=
        isFinite_of_sumBelow (g := fun k => (f k * Conj.conj (f k)).re) hterms hfinite hk
      obtain ⟨s, hzeroRe⟩ := exists_atLeast (hnumbers k hk).1 fun _ => abs_nonneg _
      obtain ⟨s', hzeroIm⟩ := exists_atLeast (hnumbers k hk).2 fun _ => abs_nonneg _
      exact atMost_zero_term hzeroRe hzeroIm hfiniteTerm
    exact hzero.sub atMost_zero isSize_zero (add_zero 0).le
  exact hclose (far_of_atLeast_four hre him)

/-- Small entries have overlaps whose distances are numbers. -/
theorem distance_ne_nan {f f' : Nat → ComplexFloat} {ideal : ComplexFloat}
    (hf : ∀ k < n, AtMost 2 (f k).re ∧ AtMost 2 (f k).im)
    (hf' : ∀ k < n, AtMost 2 (f' k).re ∧ AtMost 2 (f' k).im) (hn : n ≤ 2 ^ 31)
    (hideal : AtMost 1 ideal.re ∧ AtMost 1 ideal.im) :
    (sumBelow (fun k => f k * Conj.conj (f' k)) n - ideal).norm.toModel.unpack ≠ .notANumber := by
  have hsize : ∀ m : Nat, m < 2 ^ 53 → IsSize m := fun _ => isSize_natCast
  have hfour : IsSize 4 := by exact_mod_cast hsize 4 (by norm_num)
  have height : IsSize (8 : Nat) := hsize 8 (by norm_num)
  have hproduct : ∀ {x y : Float}, AtMost 2 x → AtMost 2 y → AtMost 4 (x * y) := fun hx hy =>
    hx.mul hy hfour (by norm_num)
  have hre : ∀ k < n, AtMost (8 : Nat) (f k * Conj.conj (f' k)).re := fun k hk =>
    (hproduct (hf k hk).1 (hf' k hk).1).sub (hproduct (hf k hk).2 (hf' k hk).2.neg) height
      (by norm_num)
  have him : ∀ k < n, AtMost (8 : Nat) (f k * Conj.conj (f' k)).im := fun k hk =>
    (hproduct (hf k hk).1 (hf' k hk).2.neg).add (hproduct (hf k hk).2 (hf' k hk).1) height
      (by norm_num)
  have hbound : n * 8 + 1 < 2 ^ 53 := by omega
  have hlarge : ∀ {g : Nat → Float} {x : Float}, (∀ k < n, AtMost (8 : Nat) (g k)) → AtMost 1 x →
      AtMost (2 ^ (400 : Int)) (sumBelow g n - x) := by
    intro g x hg hx
    have hsub : AtMost (n * 8 + 1 : Nat) (sumBelow g n - x) := by
      refine (atMost_sumBelow hg (by omega)).sub hx (hsize _ hbound) ?_
      push_cast
      exact le_rfl
    refine hsub.mono ?_
    calc ((n * 8 + 1 : Nat) : Rat) ≤ (2 ^ 53 : Nat) := by exact_mod_cast hbound.le
      _ = 2 ^ (53 : Int) := by norm_num
      _ ≤ 2 ^ (400 : Int) := two_zpow_le (by decide)
  refine hypotenuse_ne_nan ?_ ?_
  · have h := hlarge hre hideal.1
    rw [← re_sumBelow fun k => f k * Conj.conj (f' k)] at h
    exact h
  · have h := hlarge him hideal.2
    rw [← im_sumBelow fun k => f k * Conj.conj (f' k)] at h
    exact h

end Entries

/-! ### NaN entries -/

section NaN

variable {x y : Float} {n k : Nat}

theorem unpack_pack_nan : (pack .notANumber).unpack = .notANumber := rfl

theorem nan_add (u : UnpackedFloat) :
    UnpackedFloat.add Format.binary64 .notANumber u = .notANumber := by
  cases u <;> rfl

theorem add_nan (u : UnpackedFloat) :
    UnpackedFloat.add Format.binary64 u .notANumber = .notANumber := by
  cases u <;> rfl

theorem nan_mul (u : UnpackedFloat) :
    UnpackedFloat.mul Format.binary64 .notANumber u = .notANumber := by
  cases u <;> rfl

theorem unpack_add_nan (h : x.toModel.unpack = .notANumber ∨ y.toModel.unpack = .notANumber) :
    (x + y).toModel.unpack = .notANumber := by
  rcases h with h | h
  · rw [unpack_add, h, nan_add, unpack_pack_nan]
  · rw [unpack_add, h, add_nan, unpack_pack_nan]

theorem unpack_sub_nan (h : x.toModel.unpack = .notANumber ∨ y.toModel.unpack = .notANumber) :
    (x - y).toModel.unpack = .notANumber := by
  rw [sub_eq_add]
  refine unpack_add_nan (h.imp_right fun hy => ?_)
  rw [unpack_neg, hy]
  rfl

theorem unpack_nan_mul (h : x.toModel.unpack = .notANumber) :
    (x * y).toModel.unpack = .notANumber := by
  rw [unpack_mul, h, nan_mul, unpack_pack_nan]

theorem unpack_sumBelow_nan {g : Nat → Float} (hk : k < n)
    (h : (g k).toModel.unpack = .notANumber) : (sumBelow g n).toModel.unpack = .notANumber := by
  induction n with
  | zero => exact absurd hk (Nat.not_lt_zero k)
  | succ n ih =>
      rcases Nat.lt_succ_iff_lt_or_eq.1 hk with hlt | rfl
      · exact unpack_add_nan (Or.inl (ih hlt))
      · exact unpack_add_nan (Or.inr h)

theorem not_le_of_nan (h : x.toModel.unpack = .notANumber) : ¬x ≤ y := by
  intro hle
  have hcompare := compare_of_le hle
  rw [h] at hcompare
  cases hcompare

/-- A NaN makes the length NaN, or it stands beside an infinite side. -/
theorem not_hypotenuse_le_of_nan (hx : x.toModel.unpack = .notANumber) :
    ¬hypotenuse x y ≤ overlapTolerance := by
  have hinf : x.isInf = false := congrArg UnpackedFloat.isInf hx
  have hnan : x.isNaN = true := congrArg UnpackedFloat.isNaN hx
  unfold hypotenuse
  rw [hinf, if_neg Bool.false_ne_true]
  split
  · rename_i hy
    change y.toModel.unpack.isInf = true at hy
    intro hle
    have hcompare := compare_of_le hle
    rw [unpack_abs] at hcompare
    cases hu : y.toModel.unpack with
    | infinity s =>
        rw [hu, unpack_overlapTolerance] at hcompare
        cases hcompare
    | notANumber | zero | finite => rw [hu] at hy; cases hy
  · rw [hnan, Bool.true_or, if_pos rfl]
    exact not_le_of_nan (unpack_add_nan (Or.inl hx))

/-- A row with NaN has no overlap with itself. -/
theorem not_close_of_nan {f : Nat → ComplexFloat} (hk : k < n)
    (h : (f k).re.toModel.unpack = .notANumber ∨ (f k).im.toModel.unpack = .notANumber) :
    ¬(sumBelow (fun k => f k * Conj.conj (f k)) n - 1).norm ≤ overlapTolerance := by
  have hterm : (f k * Conj.conj (f k)).re.toModel.unpack = .notANumber :=
    unpack_sub_nan (h.imp unpack_nan_mul unpack_nan_mul)
  have hsum : (sumBelow (fun k => f k * Conj.conj (f k)) n).re.toModel.unpack = .notANumber := by
    rw [re_sumBelow]
    exact unpack_sumBelow_nan hk hterm
  exact not_hypotenuse_le_of_nan (unpack_sub_nan (Or.inl hsum))

end NaN

end GateAlgebra
