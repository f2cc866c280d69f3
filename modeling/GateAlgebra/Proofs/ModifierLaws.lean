import GateAlgebra.Circuit.Basic
import GateAlgebra.Proofs.Simplified
/-!
Laws of the modifier algebra.  Where nothing is left to simplify, inverses cancel, controls
add up, copies and exponents multiply, and inverses and powers pass through controls and
copies.  Both sides of every law are the same operation, not only operations with the same
matrix, and where counts do not fit in 64 bits, both sides stop.
-/

namespace GateAlgebra

namespace Exponent

/-- Both exponents are rational, and the products of their parts fit before they are
reduced. -/
def MultipliesExactly : Exponent → Exponent → Prop
  | rational a, rational b =>
      fitsWord (a.num * b.num) = true ∧ fitsWord (a.den * b.den) = true
  | _, _ => False

instance (p q : Exponent) : Decidable (p.MultipliesExactly q) :=
  match p, q with
  | rational a, rational b => inferInstanceAs
      (Decidable (fitsWord (a.num * b.num) = true ∧ fitsWord (a.den * b.den) = true))
  | real _, _ => inferInstanceAs (Decidable False)
  | rational _, real _ => inferInstanceAs (Decidable False)

theorem MultipliesExactly.mul_eq {a b : Rat}
    (h : (rational a).MultipliesExactly (rational b)) :
    rational a * rational b = rational (a * b) := by
  change mul (rational a) (rational b) = _
  rw [mul, h.1, h.2]
  rfl

theorem MultipliesExactly.exists_rational {p q : Exponent} (h : p.MultipliesExactly q) :
    ∃ a b, p = rational a ∧ q = rational b := by
  cases p with
  | real value => exact h.elim
  | rational a =>
      cases q with
      | real value => exact h.elim
      | rational b => exact ⟨a, b, rfl, rfl⟩

theorem isOne_rational {ratio : Rat} : (rational ratio).isOne = true ↔ ratio = 1 := by
  simp [isOne]

theorem isOne_rational_eq_false {ratio : Rat} : (rational ratio).isOne = false ↔ ratio ≠ 1 := by
  simp [isOne]

end Exponent

namespace Operation

open Exponent

variable {x : Operation} {P : Nat → Prop}

section Inverses

theorem invert_invert (h : x.CanonicalWith P) : x.invert.invert = x := by
  induction x with
  | inverted w ih => exact invert_eq_inverted h.1
  | controlled n w ih => exact congrArg (controlled n) (ih h.2.2)
  | repeated n w ih => exact congrArg (repeated n) (ih h.2.2)
  | _ => rfl

theorem invert_addControls (h : x.CanonicalWith P) (n : Nat) :
    (x.addControls n).invert = x.invert.addControls n := by
  by_cases hkind : x.kind = .controlled
  · cases x with
    | controlled m w => rfl
    | _ => cases hkind
  · -- The inverse of a simplified operation is controlled only if the operation is.
    rw [addControls_eq_controlled hkind,
      addControls_eq_controlled (kind_invert_ne h (by simp) hkind)]
    rfl

theorem invert_addRepeats (h : x.CanonicalWith P) (n : Nat) :
    (x.addRepeats n).invert = x.invert.addRepeats n := by
  by_cases hkind : x.kind = .repeated
  · cases x with
    | repeated m w => rfl
    | _ => cases hkind
  · rw [addRepeats_eq_repeated hkind,
      addRepeats_eq_repeated (kind_invert_ne h (by simp) hkind)]
    rfl

end Inverses

section Powers

theorem raise_of_isOne {e : Exponent} (he : e.isOne = true) (x : Operation) :
    x.raise e = x := by
  unfold raise
  rw [if_pos he]

/-- Powers go inside controls, the power one too. -/
theorem raise_inside_controlled (e : Exponent) (n : Nat) (w : Operation) :
    (controlled n w).raise e = controlled n (w.raise e) := by
  cases he : e.isOne with
  | true => rw [raise_of_isOne he, raise_of_isOne he]
  | false => exact raise_controlled he n w

theorem raise_inside_repeated (e : Exponent) (n : Nat) (w : Operation) :
    (repeated n w).raise e = repeated n (w.raise e) := by
  cases he : e.isOne with
  | true => rw [raise_of_isOne he, raise_of_isOne he]
  | false => simp [raise, he]

theorem raise_addControls (h : x.CanonicalWith P) (e : Exponent) (n : Nat) :
    (x.addControls n).raise e = (x.raise e).addControls n := by
  by_cases hkind : x.kind = .controlled
  · cases x with
    | controlled m w => simp only [addControls, raise_inside_controlled]
    | _ => cases hkind
  · rw [addControls_eq_controlled hkind, raise_inside_controlled,
      addControls_eq_controlled (kind_raise_ne h (by simp) hkind e)]

theorem raise_addRepeats (h : x.CanonicalWith P) (e : Exponent) (n : Nat) :
    (x.addRepeats n).raise e = (x.raise e).addRepeats n := by
  by_cases hkind : x.kind = .repeated
  · cases x with
    | repeated m w => simp only [addRepeats, raise_inside_repeated]
    | _ => cases hkind
  · rw [addRepeats_eq_repeated hkind, raise_inside_repeated,
      addRepeats_eq_repeated (kind_raise_ne h (by simp) hkind e)]

/-- The pairs of exponents that raising to a power multiplies. -/
def products (e : Exponent) (op : Operation) : List (Exponent × Exponent) :=
  if e.isOne then []
  else
    match op with
    | powered p w => (p, e) :: products (p * e) w
    | controlled _ w => products e w
    | repeated _ w => products e w
    | _ => []

/-- Two powers in a row, and the power of the product, multiply rational exponents only, and
no product overflows. -/
def PowersMultiplyExactly (x : Operation) (p q : Exponent) : Prop :=
  ∀ pair ∈ (p, q) :: (x.products p ++ (x.raise p).products q ++ x.products (p * q)),
    pair.1.MultipliesExactly pair.2

instance (x : Operation) (p q : Exponent) : Decidable (x.PowersMultiplyExactly p q) :=
  inferInstanceAs (Decidable (∀ pair ∈ _, _))

theorem products_controlled (e : Exponent) (n : Nat) (w : Operation) :
    (controlled n w).products e = w.products e := by
  cases he : e.isOne with
  | true => unfold products; rw [if_pos he, if_pos he]
  | false => simp [products, he]

theorem products_repeated (e : Exponent) (n : Nat) (w : Operation) :
    (repeated n w).products e = w.products e := by
  cases he : e.isOne with
  | true => unfold products; rw [if_pos he, if_pos he]
  | false => simp [products, he]

theorem products_powered {p e : Exponent} (he : e.isOne = false) (w : Operation) :
    (powered p w).products e = (p, e) :: w.products (p * e) := by
  simp [products, he]

theorem mem_products_powered {p e : Exponent} (he : e.isOne = false) (w : Operation) :
    (p, e) ∈ (powered p w).products e := by
  rw [products_powered he]
  exact List.mem_cons_self

/-- Powers of what takes a modifier for its powers. -/
theorem raise_raise_rational {w : Operation}
    (hkind : w.kind ∉ [.powered, .controlled, .repeated]) {a b : Rat}
    (hexact : a ≠ 1 → b ≠ 1 → (rational a).MultipliesExactly (rational b)) :
    (w.raise (rational a)).raise (rational b) = w.raise (rational (a * b)) := by
  by_cases ha : a = 1
  · rw [raise_of_isOne (isOne_rational.2 ha), ha, one_mul]
  · by_cases hb : b = 1
    · rw [raise_of_isOne (isOne_rational.2 hb), hb, mul_one]
    · rw [raise_eq_powered (isOne_rational_eq_false.2 ha) hkind,
        raise_powered (isOne_rational_eq_false.2 hb), (hexact ha hb).mul_eq]

/-- A power is what it is a power of, raised, so the law is that for three powers in a row. -/
theorem raise_raise_powered {c : Exponent} {w : Operation} (h : (powered c w).CanonicalWith P)
    {a b : Rat} (ha : a ≠ 1) (hb : b ≠ 1)
    (hexact : (powered c w).PowersMultiplyExactly (rational a) (rational b)) :
    ((powered c w).raise (rational a)).raise (rational b) =
      (powered c w).raise (rational (a * b)) := by
  obtain ⟨hproduct, hothers⟩ := List.forall_mem_cons.1 hexact
  obtain ⟨hrest, hwhole⟩ := List.forall_mem_append.1 hothers
  obtain ⟨hfirst, hsecond⟩ := List.forall_mem_append.1 hrest
  have hca := hfirst _ (mem_products_powered (isOne_rational_eq_false.2 ha) w)
  obtain ⟨c, -, rfl, -⟩ := hca.exists_rational
  have hraised : powered (rational c) w = w.raise (rational c) :=
    (raise_eq_powered h.1 h.2.1).symm
  rw [hproduct.mul_eq] at hwhole
  rw [hraised, raise_raise_rational h.2.1 fun _ _ => hca] at hsecond ⊢
  -- `(c * a) * b` against `c * (a * b)`: a product with an exponent one is never formed, and
  -- for the others the overflow check is among the pairs of the hypothesis.
  rw [raise_raise_rational h.2.1, raise_raise_rational h.2.1, mul_assoc]
  · exact fun _ hab => hwhole _ (mem_products_powered (isOne_rational_eq_false.2 hab) w)
  · intro hne _
    rw [raise_eq_powered (isOne_rational_eq_false.2 hne) h.2.1] at hsecond
    exact hsecond _ (mem_products_powered (isOne_rational_eq_false.2 hb) w)

theorem raise_raise (h : x.CanonicalWith P) {p q : Exponent}
    (hexact : x.PowersMultiplyExactly p q) :
    (x.raise p).raise q = x.raise (p * q) := by
  have hpair : p.MultipliesExactly q := hexact (p, q) List.mem_cons_self
  obtain ⟨a, b, rfl, rfl⟩ := hpair.exists_rational
  rw [hpair.mul_eq]
  induction x with
  | controlled n w ih =>
      simp only [PowersMultiplyExactly, products_controlled, raise_inside_controlled] at hexact ⊢
      rw [ih h.2.2 hexact]
  | repeated n w ih =>
      simp only [PowersMultiplyExactly, products_repeated, raise_inside_repeated] at hexact ⊢
      rw [ih h.2.2 hexact]
  | powered e w ih =>
      by_cases ha : a = 1
      · rw [raise_of_isOne (isOne_rational.2 ha), ha, one_mul]
      · by_cases hb : b = 1
        · rw [raise_of_isOne (isOne_rational.2 hb), hb, mul_one]
        · exact raise_raise_powered h ha hb hexact
  | _ => exact raise_raise_rational (by simp [kind]) fun _ _ => hpair

end Powers

section Laws

variable {counting : Counting} {missing : CircuitError}

/-- Both succeed, with the same result, or both stop, if the program stops at all where a count
does not fit. -/
def SameAnswer (counting : Counting) (left right : Answer Operation) : Prop :=
  ∃ result : Option Operation, (result = none → counting = .stops) ∧
    left = ExceptT.lift result ∧ right = ExceptT.lift result

/-- The laws of the modifier algebra on one operation. -/
structure ModifierLaws (counting : Counting) (x : Operation) : Prop where
  inverse_inverse : x.inverse >>= inverse = .ok x
  /-- Controls add up, unless a sum that is passed loses all of its bits. -/
  control_control : ∀ m n, 0 < m → 0 < n →
    (SameAnswer counting (x.controlIn counting m >>= (·.controlIn counting n))
        (ExceptT.lift (counting.count (m + n)) >>= x.controlIn counting) ↔
      ¬(counting = .wraps ∧ maxIndex + 1 ∣ m + n))
  parallel_parallel : ∀ m n, 0 < m → 0 < n →
    (SameAnswer counting (x.parallelIn counting m >>= (·.parallelIn counting n))
        (ExceptT.lift (counting.count (n * m)) >>= x.parallelIn counting) ↔
      ¬(counting = .wraps ∧ maxIndex + 1 ∣ n * m))
  control_inverse : ∀ n, 0 < n →
    SameAnswer counting (do (← x.controlIn counting n).inverse)
      (do (← x.inverse).controlIn counting n)
  parallel_inverse : ∀ n, 0 < n →
    SameAnswer counting (do (← x.parallelIn counting n).inverse)
      (do (← x.inverse).parallelIn counting n)
  control_power : ∀ n e, 0 < n →
    SameAnswer counting (do (← x.controlIn counting n).power e)
      (do (← x.power e).controlIn counting n)
  parallel_power : ∀ n e, 0 < n →
    SameAnswer counting (do (← x.parallelIn counting n).power e)
      (do (← x.power e).parallelIn counting n)
  power_power : ∀ p q, x.PowersMultiplyExactly p q →
    ∃ y, x.power p >>= (·.power q) = .ok y ∧ x.power (p * q) = .ok y
  power_cancels : ∀ p q, x.PowersMultiplyExactly p q → (p * q).isOne = true →
    x.power p >>= (·.power q) = .ok x

theorem power_power_eq_ok (hunitary : x.isUnitary = true) (p q : Exponent) :
    x.power p >>= (·.power q) = .ok ((x.raise p).raise q) := by
  rw [power_eq_ok hunitary]
  exact power_eq_ok (by simpa using hunitary) q

/-- A call whose count is itself counted first. -/
theorem sameAnswer_counted_iff {total : Nat} {modified : Nat → Operation}
    {result : Option Operation} (hunitary : x.isUnitary = true) (htotal : 0 < total)
    (h : ((counting.count total).bind fun n => (modified n).recounted counting) = result) :
    SameAnswer counting (ExceptT.lift result) (ExceptT.lift (counting.count total) >>= fun n =>
        x.modifyIn counting n missing (modified n)) ↔
      ¬(counting = .wraps ∧ maxIndex + 1 ∣ total) := by
  rw [← Counting.count_eq_zero_iff counting htotal]
  cases hcount : counting.count total with
  | none =>
      rw [hcount] at h
      subst h
      exact iff_of_true ⟨none, fun _ => Counting.stops_of_count hcount, rfl, rfl⟩ nofun
  | some n =>
      rw [hcount, Option.bind_some] at h
      subst h
      change SameAnswer counting _ (x.modifyIn counting n missing (modified n)) ↔ _
      rcases Nat.eq_zero_or_pos n with rfl | hn
      · refine iff_of_false ?_ (not_not_intro rfl)
        rintro ⟨result, -, -, hthrown⟩
        cases result <;> cases hthrown
      · rw [modifyIn_of_pos hn hunitary]
        exact iff_of_true ⟨_, stops_of_recounted, rfl, rfl⟩ fun h => hn.ne' (Option.some.inj h)

/-- Calls that change a unitary operation, and change a modifier with a count inside of it. -/
structure ChangesInside (next : Operation → Except CircuitError Operation)
    (change : Operation → Operation) : Prop where
  answers : ∀ y : Operation, y.isUnitary = true → next y = .ok (change y)
  isUnitary_change : ∀ y, (change y).isUnitary = y.isUnitary
  change_controlled : ∀ n w, change (controlled n w) = controlled n (change w)
  change_repeated : ∀ n w, change (repeated n w) = repeated n (change w)

theorem changesInside_inverse : ChangesInside inverse invert where
  answers _ := inverse_eq_ok
  isUnitary_change := isUnitary_invert
  change_controlled _ _ := rfl
  change_repeated _ _ := rfl

theorem changesInside_power (e : Exponent) : ChangesInside (·.power e) (raise e) where
  answers _ hy := power_eq_ok hy e
  isUnitary_change := isUnitary_raise e
  change_controlled := raise_inside_controlled e
  change_repeated := raise_inside_repeated e

namespace ChangesInside

variable {next : Operation → Except CircuitError Operation} {change : Operation → Operation}
  {n : Nat}

/-- The count is the same before and after. -/
theorem map_recounted (h : ChangesInside next change) {op : Operation}
    (hkind : op.kind ∈ [.controlled, .repeated]) :
    (op.recounted counting).map change = (change op).recounted counting := by
  cases op with
  | controlled n w =>
      rw [h.change_controlled]
      cases hcount : counting.count n <;> simp [recounted, hcount, h.change_controlled]
  | repeated n w =>
      rw [h.change_repeated]
      cases hcount : counting.count n <;> simp [recounted, hcount, h.change_repeated]
  | _ => simp [kind] at hkind

/-- A modifier with a count on what is then changed. -/
theorem modifyIn_bind_eq (h : ChangesInside next change) {modified : Operation} (hn : 0 < n)
    (hunitary : x.isUnitary = true) (hmodified : modified.isUnitary = true)
    (hkind : modified.kind ∈ [.controlled, .repeated]) :
    (do next (← x.modifyIn counting n missing modified) : Answer Operation) =
      ExceptT.lift ((change modified).recounted counting) := by
  rw [modifyIn_of_pos hn hunitary, ← h.map_recounted hkind]
  cases hresult : modified.recounted counting with
  | none => rfl
  | some y =>
      have hy : y.isUnitary = true := (isUnitary_of_recounted hresult).trans hmodified
      change (liftM (next y) : Answer Operation) = pure (change y)
      rw [h.answers y hy]
      rfl

/-- So the change may come first, if it gives what the modifier is put on. -/
theorem sameAnswer (h : ChangesInside next change) {modified : Operation → Operation} (hn : 0 < n)
    (hunitary : x.isUnitary = true) (hmodified : (modified x).isUnitary = true)
    (hkind : (modified x).kind ∈ [.controlled, .repeated])
    (hinside : change (modified x) = modified (change x)) :
    SameAnswer counting (do next (← x.modifyIn counting n missing (modified x)))
      (do
        let y ← next x
        y.modifyIn counting n missing (modified y)) := by
  refine ⟨_, stops_of_recounted, h.modifyIn_bind_eq hn hunitary hmodified hkind, ?_⟩
  rw [h.answers x hunitary, hinside]
  exact modifyIn_of_pos hn ((h.isUnitary_change x).trans hunitary)

end ChangesInside

theorem kind_addControls (n : Nat) (x : Operation) :
    (x.addControls n).kind ∈ [.controlled, .repeated] := by
  cases x <;> exact List.mem_cons_self

theorem kind_addRepeats (n : Nat) (x : Operation) :
    (x.addRepeats n).kind ∈ [.controlled, .repeated] := by
  cases x <;> exact List.mem_of_mem_getLast? rfl

/-- Controls in front of those that are there already. -/
theorem exists_addControls (x : Operation) :
    ∃ k w, ∀ n, x.addControls n = controlled (n + k) w := by
  cases x with
  | controlled k w => exact ⟨k, w, fun _ => rfl⟩
  | _ => exact ⟨0, _, fun _ => rfl⟩

theorem exists_addRepeats (h : x.CanonicalWith counting.Allows) :
    ∃ k w, counting.Allows k ∧ ∀ n, x.addRepeats n = repeated (n * k) w := by
  cases x with
  | repeated k w => exact ⟨k, w, h.1, fun _ => rfl⟩
  | _ =>
      exact ⟨1, _, Counting.allows_of_pos Nat.one_pos,
        fun n => congrArg (repeated · _) (Nat.mul_one n).symm⟩

/-- A call on what a call gives, where the counts of the two are put together. -/
theorem bind_count {first total : Nat} {again : Nat → Nat} {modified : Nat → Operation}
    {next : Operation → Answer Operation}
    (hnext : ∀ k, next (modified k) = ExceptT.lift (modified <$> counting.count (again k)))
    (htotal : ((counting.count first).bind fun k => counting.count (again k)) =
      counting.count total) :
    (ExceptT.lift (modified <$> counting.count first) >>= next : Answer Operation) =
      ExceptT.lift (modified <$> counting.count total) := by
  rw [← htotal]
  cases counting.count first with
  | none => rfl
  | some k => exact hnext k

/-- Each law is one about the simplifying functions and the counts they take. -/
theorem modifierLaws_of_canonical (h : x.CanonicalWith counting.Allows)
    (hunitary : x.isUnitary = true) : x.ModifierLaws counting where
  inverse_inverse := by
    rw [inverse_eq_ok hunitary]
    exact (inverse_eq_ok (by simpa using hunitary)).trans (congrArg _ (invert_invert h))
  control_control := by
    intro m n hm hn
    obtain ⟨k, w, hx⟩ := x.exists_addControls
    have hw : ∀ j, (controlled j w).isUnitary = true := fun j => by
      have hcontrolled := isUnitary_addControls 0 x
      rw [hx, hunitary] at hcontrolled
      exact hcontrolled
    have htwice : (x.controlIn counting m >>= (·.controlIn counting n)) =
        ExceptT.lift ((controlled · w) <$> counting.count (m + n + k)) := by
      rw [controlIn, modifyIn_of_pos hm hunitary, hx]
      exact bind_count (fun j => modifyIn_of_pos hn (hw j)) (counting.count_add_count_add m n k)
    rw [htwice, ← counting.count_add_count m n k]
    refine sameAnswer_counted_iff hunitary (Nat.add_pos_left hm n) ?_
    simp only [hx, recounted, Option.map_eq_map, Option.map_bind, Function.comp_def]
  parallel_parallel := by
    intro m n hm hn
    obtain ⟨k, w, hk, hx⟩ := exists_addRepeats h
    have hw : ∀ j, (repeated j w).isUnitary = true := fun j => by
      have hrepeated := isUnitary_addRepeats 0 x
      rw [hx, hunitary] at hrepeated
      exact hrepeated
    have htwice : (x.parallelIn counting m >>= (·.parallelIn counting n)) =
        ExceptT.lift ((repeated · w) <$> counting.count (n * m * k)) := by
      rw [parallelIn, modifyIn_of_pos hm hunitary, hx]
      exact bind_count (fun j => modifyIn_of_pos hn (hw j)) (counting.count_mul_count_mul m k hn)
    rw [htwice, ← counting.count_mul_count m n hk]
    refine sameAnswer_counted_iff hunitary (Nat.mul_pos hn hm) ?_
    simp only [hx, recounted, Option.map_eq_map, Option.map_bind, Function.comp_def]
  control_inverse n hn :=
    changesInside_inverse.sameAnswer hn hunitary ((isUnitary_addControls n x).trans hunitary)
      (kind_addControls n x) (invert_addControls h n)
  parallel_inverse n hn :=
    changesInside_inverse.sameAnswer hn hunitary ((isUnitary_addRepeats n x).trans hunitary)
      (kind_addRepeats n x) (invert_addRepeats h n)
  control_power n e hn :=
    (changesInside_power e).sameAnswer hn hunitary ((isUnitary_addControls n x).trans hunitary)
      (kind_addControls n x) (raise_addControls h e n)
  parallel_power n e hn :=
    (changesInside_power e).sameAnswer hn hunitary ((isUnitary_addRepeats n x).trans hunitary)
      (kind_addRepeats n x) (raise_addRepeats h e n)
  power_power := by
    intro p q hexact
    refine ⟨_, power_power_eq_ok hunitary p q, ?_⟩
    rw [raise_raise h hexact, power_eq_ok hunitary]
  power_cancels := by
    intro p q hexact hone
    rw [power_power_eq_ok hunitary, raise_raise h hexact, raise_of_isOne hone]

end Laws

end Operation

section Circuit

/-- The inverse of a barrier is itself. -/
def Operation.reversed (op : Operation) : Operation :=
  if op.isBarrier then op else op.invert

/-- A barrier, or a gate whose inverse is taken back by another. -/
def Operation.Reversible (op : Operation) : Prop :=
  op.isBarrier = true ∨ op.isUnitary = true ∧ op.invert.invert = op

def Instruction.reversed (inst : Instruction) : Instruction :=
  { inst with operation := inst.operation.reversed }

theorem Operation.reversed_of_isUnitary {op : Operation} (h : op.isUnitary = true) :
    op.reversed = op.invert :=
  if_neg (by simp [isBarrier_of_isUnitary h])

theorem Operation.Reversible.reversed {op : Operation} (h : op.Reversible) :
    op.inverse = .ok op.reversed ∧ op.reversed.Reversible ∧ op.reversed.reversed = op := by
  rcases h with hbarrier | ⟨hunitary, hback⟩
  · have hsame : op.reversed = op := if_pos hbarrier
    rw [hsame, hsame]
    exact ⟨inverse_eq_ok_iff.2 (Or.inl ⟨hbarrier, rfl⟩), Or.inl hbarrier, rfl⟩
  · have hinvert : op.invert.isUnitary = true := by simpa using hunitary
    rw [reversed_of_isUnitary hunitary, reversed_of_isUnitary hinvert]
    exact ⟨inverse_eq_ok hunitary, Or.inr ⟨hinvert, congrArg invert hback⟩, hback⟩

namespace Circuit

variable {c : Circuit}

/-- The instructions inverted, last to first. -/
theorem inverse_eq_ok
    (h : ∀ inst ∈ c.instructions, inst.operation.inverse = .ok inst.operation.reversed) :
    c.inverse = .ok ⟨c.name, c.instructions.reverse.map Instruction.reversed⟩ := by
  have hinverses : c.instructions.reverse.mapM Instruction.inverse =
      .ok (c.instructions.reverse.map Instruction.reversed) := by
    refine mapM_eq_ok_map fun inst hinst => ?_
    rw [Instruction.inverse, h inst (List.mem_reverse.1 hinst)]
    rfl
  rw [inverse, hinverses]
  rfl

theorem inverse_inverse (h : ∀ inst ∈ c.instructions, inst.operation.Reversible) :
    c.inverse >>= inverse = .ok c := by
  have hback : ∀ inst ∈ c.instructions, inst.reversed.reversed = inst := fun inst hinst =>
    congrArg (fun op => { inst with operation := op }) (h inst hinst).reversed.2.2
  have hreversed : ∀ inst ∈ c.instructions.reverse.map Instruction.reversed,
      inst.operation.Reversible := by
    intro inst hinst
    obtain ⟨other, hother, rfl⟩ := List.mem_map.1 hinst
    exact (h other (List.mem_reverse.1 hother)).reversed.2.1
  have htwice : c.instructions.map (Instruction.reversed ∘ Instruction.reversed) =
      c.instructions :=
    (List.map_congr_left hback).trans (List.map_id' c.instructions)
  rw [inverse_eq_ok fun inst hinst => (h inst hinst).reversed.1]
  refine (inverse_eq_ok fun inst hinst => (hreversed inst hinst).reversed.1).trans
    (congrArg Except.ok ?_)
  rw [← List.map_reverse, List.reverse_reverse, List.map_map, htwice]

end Circuit

end Circuit

/-- The laws of the modifier algebra hold for every gate that is built through it, however
counts are added up and multiplied, and a circuit of such gates and barriers is the inverse of
its inverse. -/
theorem modifier_laws (counting : Counting) :
    (∀ x : Operation, x.Constructed counting → x.isUnitary = true →
      x.ModifierLaws counting) ∧
    ∀ c : Circuit,
      (∀ inst ∈ c.instructions, inst.operation.isBarrier = true ∨
        inst.operation.Constructed counting ∧ inst.operation.isUnitary = true) →
      c.inverse >>= Circuit.inverse = .ok c := by
  refine ⟨fun x hx hunitary => ?_,
    fun c hc => Circuit.inverse_inverse fun inst hinst => ?_⟩
  · exact Operation.modifierLaws_of_canonical
      (Operation.simplified_of_constructed hx).canonical hunitary
  · exact (hc inst hinst).imp_right fun hgate => ⟨hgate.2,
      Operation.invert_invert (Operation.simplified_of_constructed hgate.1).canonical⟩

/-- A gate with a control, a power and a barrier. -/
def rootThenBarrier : Circuit :=
  ⟨"roots", [⟨.controlledRootY, [0, 1, 2], [], []⟩, ⟨.barrier 1, [0], [], []⟩]⟩

/-- The cube of the power one third, and the inverse of an inverse. -/
theorem modifier_laws_root_y :
    Operation.controlledRootY.power (.rational (mkRat 1 3)) >>= (·.power (.rational 3)) =
        .ok .controlledRootY ∧
      rootThenBarrier.inverse >>= Circuit.inverse = .ok rootThenBarrier := by
  have hx : Operation.controlledRootY.Constructed .stops := Operation.constructed_controlledRootY
  have hexact : Operation.controlledRootY.PowersMultiplyExactly (.rational (mkRat 1 3))
      (.rational 3) := by decide +kernel
  obtain ⟨hlaws, htwice⟩ := modifier_laws .stops
  refine ⟨(hlaws _ hx rfl).power_cancels _ _ hexact (by decide +kernel),
    htwice rootThenBarrier fun inst hinst => ?_⟩
  simp only [rootThenBarrier, List.mem_cons, List.not_mem_nil, or_false] at hinst
  rcases hinst with rfl | rfl
  · exact Or.inr ⟨hx, rfl⟩
  · exact Or.inl rfl

/-- One control more than there can be: where bits are lost none is left, and the sum of the two
counts is refused. -/
theorem lost_controls_are_no_sum :
    (Operation.gate .x).Constructed .wraps ∧
      ((Operation.gate .x).controlIn .wraps maxIndex >>= (·.controlIn .wraps 1)) =
        pure (.controlled 0 (.gate .x)) ∧
      (ExceptT.lift (Counting.wraps.count (maxIndex + 1)) >>=
        (Operation.gate .x).controlIn .wraps) = throw .noControls :=
  ⟨.leaf rfl, rfl, rfl⟩

end GateAlgebra
