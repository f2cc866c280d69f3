import GateAlgebra.Proofs.ExponentRange
/-!
Fractions on machine words.  A fraction of words is reduced on words of twice the width, where no
sign can overflow, and a product of two fractions is formed there before it is seen whether it
fits.  So the exponents that are stored are the fractions themselves in lowest terms, and nothing
on the way to them overflows.
-/

namespace GateAlgebra

section Terms

/-- The parts of a fraction in lowest terms. -/
structure LowestTerms (numer denom p q : Int) : Prop where
  positive : 0 < q
  coprime : p.natAbs.Coprime q.natAbs
  ratio : p * denom = numer * q

variable {numer denom p q : Int}

/-- There is one pair of lowest terms, and a rational number holds it. -/
theorem lowestTerms_iff (hdenom : denom ≠ 0) : LowestTerms numer denom p q ↔
    p = (Rat.divInt numer denom).num ∧ q = (Rat.divInt numer denom).den := by
  have hcast : (denom : ℚ) ≠ 0 := Int.cast_ne_zero.2 hdenom
  rw [Rat.divInt_eq_div]
  constructor
  · intro h
    have hq : (q : ℚ) ≠ 0 := Int.cast_ne_zero.2 h.positive.ne'
    have hsame : (numer : ℚ) / denom = p / q := by
      rw [div_eq_div_iff hcast hq]
      exact_mod_cast h.ratio.symm
    rw [hsame]
    exact ⟨(Rat.num_div_eq_of_coprime h.positive h.coprime).symm,
      (Rat.den_div_eq_of_coprime h.positive h.coprime).symm⟩
  · rintro ⟨rfl, rfl⟩
    set ratio : ℚ := numer / denom with hratio
    have hden : (ratio.den : ℚ) ≠ 0 := Nat.cast_ne_zero.2 ratio.den_nz
    refine ⟨Int.natCast_pos.2 ratio.den_pos, ratio.reduced, ?_⟩
    have hsame : (ratio.num : ℚ) / ratio.den = numer / denom := ratio.num_div_den
    rw [div_eq_div_iff hden hcast] at hsame
    exact_mod_cast hsame

/-- The product of two fractions is the fraction of the products. -/
theorem divInt_mul_parts (a b : ℚ) : Rat.divInt (a.num * b.num) (a.den * b.den) = a * b := by
  rw [← Rat.divInt_mul_divInt, Rat.num_divInt_den, Rat.num_divInt_den]

end Terms

section Words

variable {bits : Nat} {n d p : Int}

/-- Whether a whole number fits in a signed word of so many bits. -/
def fitsBits (bits : Nat) (n : Int) : Bool :=
  -(2 ^ (bits - 1)) ≤ n && n < 2 ^ (bits - 1)

theorem fitsBits_iff : fitsBits bits n = true ↔ -(2 ^ (bits - 1)) ≤ n ∧ n < 2 ^ (bits - 1) := by
  simp [fitsBits]

theorem fitsWord_iff : fitsWord n = true ↔ fitsBits 64 n = true := by
  rw [fitsBits_iff]
  simp only [fitsWord, Bool.and_eq_true, decide_eq_true_eq]
  omega

theorem fitsBits_of_abs_lt (h : |n| < 2 ^ (bits - 1)) : fitsBits bits n = true :=
  fitsBits_iff.2 ⟨(abs_lt.1 h).1.le, (abs_lt.1 h).2⟩

theorem abs_le_of_fitsBits (h : fitsBits bits n = true) : |n| ≤ 2 ^ (bits - 1) :=
  abs_le.2 ⟨(fitsBits_iff.1 h).1, (fitsBits_iff.1 h).2.le⟩

/-- Only the least number has an opposite that does not fit. -/
theorem abs_lt_of_fitsBits (h : fitsBits bits n = true) (hne : n ≠ -(2 ^ (bits - 1))) :
    |n| < 2 ^ (bits - 1) :=
  abs_lt.2 ⟨lt_of_le_of_ne (fitsBits_iff.1 h).1 hne.symm, (fitsBits_iff.1 h).2⟩

theorem fitsBits_of_mul (hd : 0 < d) (h : fitsBits bits (d * p) = true) :
    fitsBits bits p = true := by
  obtain ⟨hlow, hhigh⟩ := fitsBits_iff.1 h
  have hone : 1 ≤ d := hd
  have hpositive : (0 : Int) < 2 ^ (bits - 1) := pow_pos two_pos _
  rw [fitsBits_iff]
  rcases le_or_gt 0 p with hp | hp
  · exact ⟨by linarith, (le_mul_of_one_le_left hp hone).trans_lt hhigh⟩
  · exact ⟨hlow.trans (by nlinarith), hp.trans hpositive⟩

/-- The product of two words fits in a word of twice the width. -/
theorem fitsBits_mul (hn : fitsWord n = true) (hd : fitsWord d = true) :
    fitsBits 128 (n * d) = true := by
  have hn := abs_le_of_fitsBits (fitsWord_iff.1 hn)
  have hd := abs_le_of_fitsBits (fitsWord_iff.1 hd)
  refine fitsBits_of_abs_lt ?_
  rw [abs_mul]
  exact (mul_le_mul hn hd (abs_nonneg d) (by positivity)).trans_lt (by norm_num)

theorem fitsBits_of_fitsWord (h : fitsWord n = true) : fitsBits 128 n = true := by
  have hmul := fitsBits_mul (d := 1) h rfl
  rwa [mul_one] at hmul

/-- A number on a word, and none where it overflows. -/
def onWord (bits : Nat) (n : Int) : Option Int :=
  if fitsBits bits n then some n else none

theorem onWord_eq_some (h : fitsBits bits n = true) : onWord bits n = some n :=
  if_pos h

end Words

section Reduction

/-- How fractions are reduced on words of so many bits.  There is no answer if a number on the
way does not fit. -/
abbrev Reduction := Nat → Int → Int → Option (Int × Int)

/-- The answer is the fraction in lowest terms.  If the denominator is negative, both signs
change, and the least number of the width has no opposite. -/
def Reduction.Sound (reduce : Reduction) : Prop :=
  ∀ bits numer denom, fitsBits bits numer = true → fitsBits bits denom = true → denom ≠ 0 →
    (0 < denom ∨ numer ≠ -(2 ^ (bits - 1)) ∧ denom ≠ -(2 ^ (bits - 1))) →
    ∃ p q, reduce bits numer denom = some (p, q) ∧ LowestTerms numer denom p q

/-- Divide by the greatest common divisor, and change both signs if the denominator is
negative. -/
def reduceOnWords : Reduction := fun bits numer denom => do
  let divisor ← onWord bits (Int.gcd numer denom)
  let p ← onWord bits (numer / divisor)
  let q ← onWord bits (denom / divisor)
  if q < 0 then
    return (← onWord bits (-p), ← onWord bits (-q))
  else return (p, q)

theorem sound_reduceOnWords : reduceOnWords.Sound := by
  intro bits numer denom hnumer hdenom hzero hsign
  have hpositive : 0 < (Int.gcd numer denom : Int) := by
    exact_mod_cast Int.gcd_pos_of_ne_zero_right numer hzero
  have hdivisor : fitsBits bits (Int.gcd numer denom) = true := by
    refine fitsBits_of_abs_lt ?_
    rw [abs_of_pos hpositive]
    have hle : (Int.gcd numer denom : Int) ≤ |denom| := by
      rw [Int.abs_eq_natAbs]
      exact_mod_cast Int.gcd_le_natAbs_right numer hzero
    refine hle.trans_lt ?_
    rcases hsign with hpos | ⟨-, hleast⟩
    · exact (abs_of_pos hpos).trans_lt (fitsBits_iff.1 hdenom).2
    · exact abs_lt_of_fitsBits hdenom hleast
  have hcoprime := Int.gcd_div_gcd_div_gcd (Int.gcd_pos_of_ne_zero_right numer hzero)
  obtain ⟨p, hp⟩ : (Int.gcd numer denom : Int) ∣ numer := Int.gcd_dvd_left ..
  obtain ⟨q, hq⟩ : (Int.gcd numer denom : Int) ∣ denom := Int.gcd_dvd_right ..
  unfold reduceOnWords
  generalize (Int.gcd numer denom : Int) = divisor at *
  subst hp hq
  have hp : divisor * p / divisor = p := Int.mul_ediv_cancel_left p hpositive.ne'
  have hq : divisor * q / divisor = q := Int.mul_ediv_cancel_left q hpositive.ne'
  have hpFits := fitsBits_of_mul hpositive hnumer
  have hqFits := fitsBits_of_mul hpositive hdenom
  rw [hp, hq] at hcoprime
  simp only [hp, hq, onWord_eq_some hdivisor, onWord_eq_some hpFits, onWord_eq_some hqFits,
    Option.bind_eq_bind, Option.bind_some]
  have hq' : q ≠ 0 := right_ne_zero_of_mul hzero
  by_cases hnegative : q < 0
  · -- the denominator was negative, so neither number was the least
    obtain ⟨hnumer', hdenom'⟩ := hsign.resolve_left (by nlinarith)
    have hopposite : ∀ {n : Int}, fitsBits bits (divisor * n) = true →
        divisor * n ≠ -(2 ^ (bits - 1)) → fitsBits bits (-n) = true := by
      intro n hn hne
      refine fitsBits_of_mul hpositive (fitsBits_of_abs_lt ?_)
      rw [mul_neg, abs_neg]
      exact abs_lt_of_fitsBits hn hne
    refine ⟨-p, -q, ?_, neg_pos.2 hnegative, ?_, by ring⟩
    · simp only [hnegative, if_true, onWord_eq_some (hopposite hnumer hnumer'),
        onWord_eq_some (hopposite hdenom hdenom'), Option.bind_some]
      rfl
    · rwa [Int.natAbs_neg, Int.natAbs_neg]
  · refine ⟨p, q, ?_, lt_of_le_of_ne (not_lt.1 hnegative) hq'.symm, hcoprime, by ring⟩
    simp only [hnegative, if_false]
    rfl

end Reduction

namespace Exponent

/-- An exponent as it is stored, a fraction by its parts. -/
inductive Stored where
  | fraction (numer denom : Int)
  | real (value : Float)

/-- The quotient of the parts, each rounded to a double first. -/
def quotient (numer denom : Int) : Float :=
  Float.ofInt numer / Float.ofInt denom

def Stored.toFloat : Stored → Float
  | fraction numer denom => quotient numer denom
  | real value => value

def stored : Exponent → Stored
  | rational ratio => .fraction ratio.num ratio.den
  | real value => .real value

/-- A fraction of words, reduced on words of twice the width. -/
def ofFractionOnWords (reduce : Reduction) (numer denom : Int) :
    Option (Except CircuitError Stored) :=
  if denom = 0 then some (.error (.invalidExponent infinity))
  else do
    let (p, q) ← reduce 128 numer denom
    if p < 0 then return .error (.invalidExponent (quotient p q))
    else if fitsWord p && fitsWord q then return .ok (.fraction p q)
    else return .error (.invalidExponent (quotient p q))

/-- The product, with the products of the parts on words of twice the width. -/
def mulOnWords (reduce : Reduction) : Stored → Stored → Option Stored
  | .fraction n d, .fraction n' d' => do
      let numer ← onWord 128 (n * n')
      let denom ← onWord 128 (d * d')
      if fitsWord numer && fitsWord denom then
        let (p, q) ← reduce 64 numer denom
        return .fraction p q
      else return .real (quotient n d * quotient n' d')
  | a, b => some (.real (a.toFloat * b.toFloat))

variable {reduce : Reduction} {numer denom : Int} {e : Exponent}

theorem eq_of_ofFraction (h : ofFraction numer denom = .ok e) :
    denom ≠ 0 ∧ e = rational (Rat.divInt numer denom) := by
  unfold ofFraction at h
  split at h
  · cases h
  · rename_i hzero
    dsimp only at h
    split at h
    · cases h
    · split at h
      · exact ⟨hzero, (Except.ok.inj h).symm⟩
      · cases h

/-- What fractions are taken, and the parts that are stored for them. -/
theorem ofFraction_eq_ok_iff : ofFraction numer denom = .ok e ↔
    denom ≠ 0 ∧ 0 ≤ (numer : ℚ) / denom ∧ ∃ p q, LowestTerms numer denom p q ∧
      fitsWord p = true ∧ fitsWord q = true ∧ e.stored = .fraction p q := by
  constructor
  · intro h
    obtain ⟨hzero, rfl⟩ := eq_of_ofFraction h
    obtain ⟨hsign, hnum, hden⟩ := checked_of_ofFraction h
    rw [← Rat.divInt_eq_div]
    exact ⟨hzero, Rat.num_nonneg.1 hsign, _, _, (lowestTerms_iff hzero).2 ⟨rfl, rfl⟩, hnum, hden,
      rfl⟩
  · rintro ⟨hzero, hsign, p, q, hterms, hp, hq, he⟩
    obtain ⟨rfl, rfl⟩ := (lowestTerms_iff hzero).1 hterms
    rw [← Rat.divInt_eq_div] at hsign
    have hstored : e = rational (Rat.divInt numer denom) := by
      cases e with
      | real value => cases he
      | rational ratio =>
          obtain ⟨hnum, hden⟩ := Stored.fraction.inj he
          exact congrArg rational (Rat.ext hnum (Int.natCast_inj.1 hden))
    unfold ofFraction
    rw [if_neg hzero, hstored]
    dsimp only
    rw [if_neg (Int.not_lt.2 (Rat.num_nonneg.2 hsign)), hp, hq]
    rfl

theorem quotient_parts (ratio : ℚ) : quotient ratio.num ratio.den = ratioToFloat ratio := rfl

theorem ne_least_of_fitsWord {n : Int} (h : fitsWord n = true) : n ≠ -(2 ^ (128 - 1)) := by
  simp only [fitsWord, Bool.and_eq_true, decide_eq_true_eq] at h
  omega

/-- Words of twice the width are enough for every fraction of words. -/
theorem ofFractionOnWords_eq (hreduce : reduce.Sound) (hnumer : fitsWord numer = true)
    (hdenom : fitsWord denom = true) :
    ofFractionOnWords reduce numer denom = some ((ofFraction numer denom).map stored) := by
  unfold ofFractionOnWords ofFraction
  split
  · rfl
  · rename_i hzero
    obtain ⟨p, q, hpq, hterms⟩ := hreduce 128 numer denom (fitsBits_of_fitsWord hnumer)
      (fitsBits_of_fitsWord hdenom) hzero
      (Or.inr ⟨ne_least_of_fitsWord hnumer, ne_least_of_fitsWord hdenom⟩)
    obtain ⟨rfl, rfl⟩ := (lowestTerms_iff hzero).1 hterms
    simp only [hpq, Option.bind_eq_bind, Option.bind_some, quotient_parts]
    split
    · rfl
    · split <;> rfl

/-- The product of words of fractions is formed on words of twice the width. -/
theorem mulOnWords_eq (hreduce : reduce.Sound) {a b : ℚ}
    (ha : fitsWord a.num = true ∧ fitsWord a.den = true)
    (hb : fitsWord b.num = true ∧ fitsWord b.den = true) :
    mulOnWords reduce (rational a).stored (rational b).stored =
      some (rational a * rational b).stored := by
  have hnumer := onWord_eq_some (fitsBits_mul ha.1 hb.1)
  have hdenom := onWord_eq_some (fitsBits_mul ha.2 hb.2)
  change mulOnWords reduce (.fraction a.num a.den) (.fraction b.num b.den) =
    some (mul (rational a) (rational b)).stored
  simp only [mulOnWords, mul, hnumer, hdenom, Option.bind_eq_bind, Option.bind_some,
    quotient_parts]
  split
  · rename_i hfits
    obtain ⟨hnum, hden⟩ := by simpa only [Bool.and_eq_true] using hfits
    have hpositive : 0 < (a.den * b.den : Int) :=
      mul_pos (Int.natCast_pos.2 a.den_pos) (Int.natCast_pos.2 b.den_pos)
    obtain ⟨p, q, hpq, hterms⟩ := hreduce 64 _ _ (fitsWord_iff.1 hnum) (fitsWord_iff.1 hden)
      hpositive.ne' (Or.inl hpositive)
    obtain ⟨rfl, rfl⟩ := (lowestTerms_iff hpositive.ne').1 hterms
    rw [hpq, divInt_mul_parts]
    rfl
  · rfl

section Edge

variable {k p q x y : Int}

/-- Of the parts of a fraction of words, one is too large exactly if it comes from the least word
and the other one from an odd number. -/
theorem part_eq_edge_iff (hk : k ≠ 0) (hx : x = k * p) (hy : y = k * q) (hp : 0 ≤ p)
    (hcoprime : p.natAbs.Coprime q.natAbs) (hfits : fitsWord x = true) :
    p = 2 ^ 63 ↔ x = -2 ^ 63 ∧ y % 2 = 1 := by
  subst hx hy
  constructor
  · rintro rfl
    simp only [fitsWord, Bool.and_eq_true, decide_eq_true_eq] at hfits
    have hodd : q.natAbs % 2 = 1 :=
      Nat.odd_iff.1 (Nat.coprime_two_left.1 (Nat.Coprime.coprime_dvd_left ⟨2 ^ 62, rfl⟩ hcoprime))
    obtain rfl : k = -1 := by omega
    exact ⟨by norm_num, by omega⟩
  · rintro ⟨hleast, hodd⟩
    have hkodd : k.natAbs.Coprime (2 ^ 63) := by
      refine (Nat.coprime_two_right.2 ?_).pow_right 63
      rw [Int.natAbs_odd]
      exact Int.Odd.of_mul_left (Int.odd_iff.2 hodd)
    have hdvd : k.natAbs ∣ 2 ^ 63 := ⟨p.natAbs, by rw [← Int.natAbs_mul, hleast]; rfl⟩
    have hone : k.natAbs = 1 := hkodd.eq_one_of_dvd hdvd
    rcases Int.natAbs_eq_iff.1 hone with rfl | rfl <;> omega

/-- A part fits unless it is too large by one. -/
theorem fitsWord_part_iff (hk : k ≠ 0) (hx : x = k * p) (hp : 0 ≤ p) (hfits : fitsWord x = true) :
    fitsWord p = true ↔ p ≠ 2 ^ 63 := by
  have hle : p ≤ 2 ^ 63 := by
    have hsize := abs_le_of_fitsBits (fitsWord_iff.1 hfits)
    rw [hx, abs_mul, abs_of_nonneg hp] at hsize
    exact (le_mul_of_one_le_left hp (Int.one_le_abs hk)).trans hsize
  simp only [fitsWord, Bool.and_eq_true, decide_eq_true_eq]
  omega

/-- A fraction of words that is not negative is refused only for the least word over an odd
number, or an odd number over the least word. -/
theorem exists_ofFraction_iff_of_words (hnumer : fitsWord numer = true)
    (hdenom : fitsWord denom = true) (hzero : denom ≠ 0) (hsign : 0 ≤ (numer : ℚ) / denom) :
    (∃ e, ofFraction numer denom = .ok e) ↔
      ¬(numer = -2 ^ 63 ∧ denom % 2 = 1) ∧ ¬(denom = -2 ^ 63 ∧ numer % 2 = 1) := by
  obtain ⟨k, hn, hd⟩ := Rat.num_den_mk (q := Rat.divInt numer denom) hzero rfl
  have hterms : LowestTerms numer denom (Rat.divInt numer denom).num
      (Rat.divInt numer denom).den := (lowestTerms_iff hzero).2 ⟨rfl, rfl⟩
  have hk : k ≠ 0 := fun h => hzero (by rw [hd, h, zero_mul])
  have hp : 0 ≤ (Rat.divInt numer denom).num := by
    rwa [Rat.num_nonneg, Rat.divInt_eq_div]
  have hq := hterms.positive.le
  rw [← part_eq_edge_iff hk hn hd hp hterms.coprime hnumer,
    ← part_eq_edge_iff hk hd hn hq hterms.coprime.symm hdenom, ← ne_eq, ← ne_eq,
    ← fitsWord_part_iff hk hn hp hnumer, ← fitsWord_part_iff hk hd hq hdenom]
  constructor
  · rintro ⟨e, he⟩
    obtain ⟨-, -, p, q, hpq, hpFits, hqFits, -⟩ := ofFraction_eq_ok_iff.1 he
    obtain ⟨rfl, rfl⟩ := (lowestTerms_iff hzero).1 hpq
    exact ⟨hpFits, hqFits⟩
  · rintro ⟨hpFits, hqFits⟩
    exact ⟨rational (Rat.divInt numer denom),
      ofFraction_eq_ok_iff.2 ⟨hzero, hsign, _, _, hterms, hpFits, hqFits, rfl⟩⟩

end Edge

section Products

variable {a b : ℚ}

/-- The product is a fraction exactly if the products of the parts are words. -/
theorem exists_mul_eq_rational_iff : (∃ c, rational a * rational b = rational c) ↔
    fitsWord (a.num * b.num) = true ∧ fitsWord (a.den * b.den) = true := by
  change _ ↔ (rational a).MultipliesExactly (rational b)
  constructor
  · rintro ⟨c, hc⟩
    by_contra hreal
    rw [mul_eq_real hreal] at hc
    cases hc
  · exact fun h => ⟨a * b, h.mul_eq⟩

theorem eq_mul_of_mul_eq_rational {c : ℚ} (h : rational a * rational b = rational c) :
    c = a * b := by
  have hexact : (rational a).MultipliesExactly (rational b) :=
    exists_mul_eq_rational_iff.1 ⟨c, h⟩
  exact (rational.inj (hexact.mul_eq.symm.trans h)).symm

/-- The factors may change places, also where the product is one of doubles. -/
theorem mul_comm_rational (a b : ℚ) : rational a * rational b = rational b * rational a := by
  change mul (rational a) (rational b) = mul (rational b) (rational a)
  rw [mul, mul, mul_comm b.num, mul_comm (b.den : Int), mul_comm b, mul_comm_double]

/-- The product of two fractions is equal to itself, since it is finite. -/
theorem Checked.mul_rational_beq_self (ha : (rational a).Checked) (hb : (rational b).Checked) :
    (rational a * rational b == rational a * rational b) = true := by
  have haccepted : (rational a * rational b).Accepted := (accepted_mul_iff ha hb).2
    ⟨accepted_of_checked_rational ha, accepted_of_checked_rational hb,
      not_overflows_rational ha hb⟩
  exact Operation.exponent_beq_self (accepted_iff.1 haccepted).2

theorem rational_beq_iff : (rational a == rational b) = true ↔ a = b :=
  beq_iff_eq (α := ℚ)

theorem ofFraction_beq_iff {numer' denom' : Int} {e' : Exponent}
    (h : ofFraction numer denom = .ok e) (h' : ofFraction numer' denom' = .ok e') :
    (e == e') = true ↔ numer * denom' = numer' * denom := by
  obtain ⟨hzero, rfl⟩ := eq_of_ofFraction h
  obtain ⟨hzero', rfl⟩ := eq_of_ofFraction h'
  rw [rational_beq_iff, Rat.divInt_eq_div, Rat.divInt_eq_div,
    div_eq_div_iff (Int.cast_ne_zero.2 hzero) (Int.cast_ne_zero.2 hzero')]
  exact_mod_cast Iff.rfl

end Products

/-- Fractions of words are exact.  A fraction of two words, the least one included, is taken
exactly if the denominator is not zero, the number is not negative and its lowest terms are
words, and it is stored in lowest terms; so only the least word over an odd number, or an odd
number over the least word, is refused for its size.  A product of two fractions is a fraction
exactly if the products of the parts are words, and then it is the product in lowest terms.
Nothing overflows on the way, however fractions are reduced.  Factors may change places, and
fractions are equal exactly if the numbers are. -/
theorem fractions_are_exact (reduce : Reduction) (hreduce : reduce.Sound) :
    (∀ numer denom, fitsWord numer = true → fitsWord denom = true →
      ofFractionOnWords reduce numer denom = some ((ofFraction numer denom).map stored) ∧
      (∀ e, ofFraction numer denom = .ok e ↔ denom ≠ 0 ∧ 0 ≤ (numer : ℚ) / denom ∧
        ∃ p q, LowestTerms numer denom p q ∧ fitsWord p = true ∧ fitsWord q = true ∧
          e.stored = .fraction p q) ∧
      (denom ≠ 0 → 0 ≤ (numer : ℚ) / denom → ((∃ e, ofFraction numer denom = .ok e) ↔
        ¬(numer = -2 ^ 63 ∧ denom % 2 = 1) ∧ ¬(denom = -2 ^ 63 ∧ numer % 2 = 1)))) ∧
    (∀ a b : ℚ, fitsWord a.num = true ∧ fitsWord a.den = true →
      fitsWord b.num = true ∧ fitsWord b.den = true →
      mulOnWords reduce (rational a).stored (rational b).stored =
          some (rational a * rational b).stored ∧
      ((∃ c, rational a * rational b = rational c) ↔
        fitsWord (a.num * b.num) = true ∧ fitsWord (a.den * b.den) = true) ∧
      (∀ c, rational a * rational b = rational c → c = a * b ∧
        ∃ p q, LowestTerms (a.num * b.num) (a.den * b.den) p q ∧
          (rational c).stored = .fraction p q) ∧
      rational a * rational b = rational b * rational a ∧
      (0 ≤ a → 0 ≤ b → (rational a * rational b == rational b * rational a) = true)) ∧
    (∀ a b : ℚ, (rational a == rational b) = true ↔ a = b) ∧
    ∀ numer denom numer' denom' e e', ofFraction numer denom = .ok e →
      ofFraction numer' denom' = .ok e' →
      ((e == e') = true ↔ numer * denom' = numer' * denom) := by
  refine ⟨fun numer denom hnumer hdenom => ⟨ofFractionOnWords_eq hreduce hnumer hdenom,
    fun e => ofFraction_eq_ok_iff, exists_ofFraction_iff_of_words hnumer hdenom⟩,
    fun a b ha hb => ⟨mulOnWords_eq hreduce ha hb, exists_mul_eq_rational_iff, ?_,
      mul_comm_rational a b, fun hpositive hpositive' => ?_⟩,
    fun a b => rational_beq_iff, fun _ _ _ _ _ _ => ofFraction_beq_iff⟩
  · intro c hc
    obtain rfl := eq_mul_of_mul_eq_rational hc
    have hdenom : (a.den * b.den : Int) ≠ 0 :=
      mul_ne_zero (Int.natCast_ne_zero.2 a.den_nz) (Int.natCast_ne_zero.2 b.den_nz)
    refine ⟨rfl, _, _, (lowestTerms_iff hdenom).2 ⟨rfl, rfl⟩, ?_⟩
    rw [divInt_mul_parts]
    rfl
  · rw [mul_comm_rational b a]
    exact Checked.mul_rational_beq_self ⟨Rat.num_nonneg.2 hpositive, ha⟩
      ⟨Rat.num_nonneg.2 hpositive', hb⟩

/-- The least word over itself is one, over six it is a fraction, over three it is refused.  A
half of a large number is a fraction, and twice the number is a double. -/
theorem fractions_are_exact_least_word :
    (∃ e, ofFraction (-2 ^ 63) (-2 ^ 63) = .ok e ∧ e.stored = .fraction 1 1) ∧
    (∃ e, ofFraction (-2 ^ 63) (-6) = .ok e) ∧ (¬∃ e, ofFraction (-2 ^ 63) (-3) = .ok e) ∧
    ofFractionOnWords reduceOnWords (-2 ^ 63) (-6) =
      some ((ofFraction (-2 ^ 63) (-6)).map stored) ∧
    (∃ c, rational (mkRat (2 ^ 62) 1) * rational (mkRat 1 2) = rational c) ∧
    (¬∃ c, rational (mkRat (2 ^ 62) 1) * rational (mkRat 2 1) = rational c) ∧
    mulOnWords reduceOnWords (rational (mkRat (2 ^ 62) 1)).stored (rational (mkRat 2 1)).stored =
      some (rational (mkRat 2 1) * rational (mkRat (2 ^ 62) 1)).stored := by
  obtain ⟨hfractions, hproducts, -, -⟩ := fractions_are_exact reduceOnWords sound_reduceOnWords
  have hleast := hfractions (-2 ^ 63) (-2 ^ 63) rfl rfl
  have hsix := hfractions (-2 ^ 63) (-6) rfl rfl
  have hthree := hfractions (-2 ^ 63) (-3) rfl rfl
  have hwords : ∀ ratio ∈ [mkRat (2 ^ 62) 1, mkRat 1 2, mkRat 2 1],
      fitsWord ratio.num = true ∧ fitsWord ratio.den = true := by decide
  have hhalf := hproducts (mkRat (2 ^ 62) 1) (mkRat 1 2) (hwords _ (by simp)) (hwords _ (by simp))
  have htwice := hproducts (mkRat (2 ^ 62) 1) (mkRat 2 1) (hwords _ (by simp)) (hwords _ (by simp))
  have hterms : LowestTerms (-2 ^ 63) (-2 ^ 63) 1 1 := ⟨one_pos, rfl, by norm_num⟩
  refine ⟨⟨.ofNat 1, (hleast.2.1 _).2 ⟨by decide, by norm_num, 1, 1, hterms, rfl, rfl, rfl⟩, rfl⟩,
    (hsix.2.2 (by decide) (by norm_num)).2 (by decide), fun h => ?_, hsix.1,
    hhalf.2.1.2 (by decide), fun h => ?_, ?_⟩
  · exact ((hthree.2.2 (by decide) (by norm_num)).1 h).1 (by decide)
  · exact absurd (htwice.2.1.1 h) (by decide)
  · rw [← htwice.2.2.2.1]
    exact htwice.1

end Exponent

end GateAlgebra
