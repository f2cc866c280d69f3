import Mathlib.Algebra.BigOperators.Fin
import Mathlib.Data.List.OfFn
import GateAlgebra.Lowering.Lower
import GateAlgebra.Proofs.Operator
/-!
Copies of a matrix side by side.  On consecutive blocks of qubits they are the product of
one operator for each block.
-/

namespace GateAlgebra

variable {R : Type*} [CommRing R]

/-- Entries are products of entries, one for each block of `k` bits. -/
def tensorPower (n : Nat) {k : Nat} (A : BitMatrix R k) : BitMatrix R (n * k) :=
  fun a b => ∏ i : Fin n,
    A (fun j => a (finProdFinEquiv (i, j))) fun j => b (finProdFinEquiv (i, j))

section Grid

/-- A matrix on each row of a table of qubits. -/
noncomputable def embedRows {n k : Nat} (t : Fin n → Fin k → Nat) (A : BitMatrix R k) :
    Operator R :=
  fun ψ s => ∑ f : Fin n → Bits k, (∏ i, A (s ∘ t i) (f i)) *
    ψ (Function.extend (Function.uncurry t) (Function.uncurry f) s)

theorem row_injective {n k : Nat} {t : Fin n → Fin k → Nat}
    (ht : (Function.uncurry t).Injective) (i : Fin n) : (t i).Injective := by
  intro j j' h
  have hpair : (i, j) = (i, j') := ht h
  exact (Prod.ext_iff.1 hpair).2

theorem rows_disjoint {n k : Nat} {t : Fin n → Fin k → Nat}
    (ht : (Function.uncurry t).Injective) {i i' : Fin n} (hne : i ≠ i') (j j' : Fin k) :
    t i j ≠ t i' j' := by
  intro h
  have hpair : (i, j) = (i', j') := ht h
  exact hne (Prod.ext_iff.1 hpair).1

theorem tail_injective {n k : Nat} {t : Fin (n + 1) → Fin k → Nat}
    (ht : (Function.uncurry t).Injective) :
    (Function.uncurry fun i : Fin n => t i.succ).Injective := by
  rintro ⟨i, j⟩ ⟨i', j'⟩ h
  have hpair : (i.succ, j) = (i'.succ, j') := ht h
  obtain ⟨hrow, hcolumn⟩ := Prod.ext_iff.1 hpair
  exact Prod.ext (Fin.succ_injective n hrow) hcolumn

theorem extend_uncurry_cons {n k : Nat} {t : Fin (n + 1) → Fin k → Nat}
    (ht : (Function.uncurry t).Injective) (x : Bits k) (f : Fin n → Bits k)
    (s : Assignment) :
    Function.extend (Function.uncurry t) (Function.uncurry (Fin.cons x f)) s =
      Function.extend (t 0) x
        (Function.extend (Function.uncurry fun i => t i.succ) (Function.uncurry f) s) := by
  funext q
  by_cases hq : ∃ p, Function.uncurry t p = q
  · obtain ⟨⟨i, j⟩, rfl⟩ := hq
    rw [ht.extend_apply]
    cases i using Fin.cases with
    | zero => exact ((row_injective ht 0).extend_apply _ _ j).symm
    | succ i =>
        have hrow : ¬∃ j', t 0 j' = Function.uncurry t (i.succ, j) := by
          rintro ⟨j', hj'⟩
          exact rows_disjoint ht (Fin.succ_ne_zero i).symm j' j hj'
        have hrest := (tail_injective ht).extend_apply (Function.uncurry f) s (i, j)
        rw [Function.extend_apply' _ _ _ hrow]
        exact hrest.symm
  · rw [Function.extend_apply' _ _ _ hq, Function.extend_apply', Function.extend_apply']
    · rintro ⟨⟨i, j⟩, rfl⟩
      exact hq ⟨(i.succ, j), rfl⟩
    · rintro ⟨j, rfl⟩
      exact hq ⟨(0, j), rfl⟩

theorem embedRows_eq_prod {n k : Nat} {t : Fin n → Fin k → Nat}
    (ht : (Function.uncurry t).Injective) (A : BitMatrix R k) :
    embedRows t A = (List.ofFn fun i => embed (t i) A).reverse.prod := by
  induction n with
  | zero =>
      funext ψ s
      have hextend : ∀ f : Fin 0 → Bits k,
          Function.extend (Function.uncurry t) (Function.uncurry f) s = s := by
        intro f
        funext q
        exact Function.extend_apply' _ _ q fun ⟨p, _⟩ => p.1.elim0
      simp only [embedRows, hextend]
      simp
      rfl
  | succ n ih =>
      rw [List.ofFn_succ, List.reverse_cons, List.prod_append, List.prod_singleton,
        ← ih (tail_injective ht)]
      funext ψ s
      have hrow : ∀ f : Fin n → Bits k,
          Function.extend (Function.uncurry fun i : Fin n => t i.succ) (Function.uncurry f) s ∘
            t 0 = s ∘ t 0 := by
        intro f
        apply extend_comp_of_disjoint
        rintro ⟨i, j⟩ j'
        exact rows_disjoint ht (Fin.succ_ne_zero i) j j'
      calc embedRows t A ψ s
          = ∑ x : Bits k, ∑ f : Fin n → Bits k,
              (∏ i, A (s ∘ t i) ((Fin.cons x f : Fin (n + 1) → Bits k) i)) *
                ψ (Function.extend (Function.uncurry t) (Function.uncurry (Fin.cons x f)) s) := by
            rw [← Fintype.sum_prod_type']
            exact ((Fin.consEquiv fun _ => Bits k).sum_comp _).symm
        _ = ∑ f : Fin n → Bits k, (∏ i : Fin n, A (s ∘ t i.succ) (f i)) *
              embed (t 0) A ψ (Function.extend (Function.uncurry fun i : Fin n => t i.succ)
                (Function.uncurry f) s) := by
            rw [Finset.sum_comm]
            refine Finset.sum_congr rfl fun f _ => ?_
            rw [embed, Finset.mul_sum]
            refine Finset.sum_congr rfl fun x _ => ?_
            rw [extend_uncurry_cons ht, Fin.prod_univ_succ, hrow]
            simp only [Fin.cons_zero, Fin.cons_succ]
            ring
        _ = (embedRows (fun i : Fin n => t i.succ) A * embed (t 0) A) ψ s := rfl

end Grid

section Blocks

theorem extend_comp_equiv {α β : Type*} (e : α ≃ β) {t : β → Nat} (ht : t.Injective)
    (b : β → Bool) (s : Assignment) :
    Function.extend (t ∘ e) (b ∘ e) s = Function.extend t b s := by
  funext q
  by_cases hq : ∃ i, t i = q
  · obtain ⟨i, rfl⟩ := hq
    have hleft := (ht.comp e.injective).extend_apply (b ∘ e) s (e.symm i)
    simp only [Function.comp_apply, Equiv.apply_symm_apply] at hleft
    rw [hleft, ht.extend_apply]
  · rw [Function.extend_apply' _ _ _ hq, Function.extend_apply']
    rintro ⟨i, rfl⟩
    exact hq ⟨e i, rfl⟩

/-- A bit string of blocks, by block and by place within the block. -/
def rowsEquiv (n k : Nat) : (Fin n → Bits k) ≃ Bits (n * k) :=
  (Equiv.curry (Fin n) (Fin k) Bool).symm.trans
    (finProdFinEquiv.arrowCongr (Equiv.refl Bool))

theorem rowsEquiv_apply {n k : Nat} (f : Fin n → Bits k) (i : Fin n) (j : Fin k) :
    rowsEquiv n k f (finProdFinEquiv (i, j)) = f i j := by
  simp [rowsEquiv, Equiv.arrowCongr]

theorem embed_tensorPower {n k : Nat} {t : Fin (n * k) → Nat} (ht : t.Injective)
    (A : BitMatrix R k) :
    embed t (tensorPower n A) = embedRows (fun i j => t (finProdFinEquiv (i, j))) A := by
  funext ψ s
  have hextend : ∀ f, Function.extend t (rowsEquiv n k f) s =
      Function.extend (Function.uncurry fun i j => t (finProdFinEquiv (i, j)))
        (Function.uncurry f) s := by
    intro f
    rw [← extend_comp_equiv finProdFinEquiv ht]
    congr 1
    funext p
    exact rowsEquiv_apply f p.1 p.2
  change ∑ b, tensorPower n A (s ∘ t) b * ψ (Function.extend t b s) = _
  rw [← (rowsEquiv n k).sum_comp]
  refine Finset.sum_congr rfl fun f _ => ?_
  rw [hextend]
  congr 1
  exact Finset.prod_congr rfl fun i _ => congrArg _ (funext fun j => rowsEquiv_apply f i j)

theorem tensorPower_mul (n : Nat) {k : Nat} (A B : BitMatrix R k) :
    tensorPower n A * tensorPower n B = tensorPower n (A * B) := by
  funext a b
  simp only [Matrix.mul_apply, tensorPower]
  rw [Fintype.prod_sum, ← (rowsEquiv n k).sum_comp]
  refine Finset.sum_congr rfl fun f _ => ?_
  simp only [rowsEquiv_apply, Finset.prod_mul_distrib]

theorem tensorPower_one (n k : Nat) : tensorPower n (1 : BitMatrix R k) = 1 := by
  funext a b
  simp only [tensorPower, Matrix.one_apply, Finset.prod_ite_zero, Finset.prod_const_one,
    Finset.mem_univ, true_imp_iff]
  congr 1
  apply propext
  constructor
  · intro h
    funext p
    obtain ⟨⟨i, j⟩, rfl⟩ := finProdFinEquiv.surjective p
    exact congrFun (h i) j
  · rintro rfl i
    rfl

theorem tensorPower_pow (n : Nat) {k : Nat} (A : BitMatrix R k) (m : Nat) :
    tensorPower n A ^ m = tensorPower n (A ^ m) := by
  induction m with
  | zero => rw [pow_zero, pow_zero, tensorPower_one]
  | succ m ih => rw [pow_succ, pow_succ, ih, tensorPower_mul]

/-- Blocks of a width, when they come out even. -/
theorem blocks_eq_ofFn {k n count : Nat} {qubits : List Nat} (hk : 0 < k)
    (hlength : qubits.length = n * k) (hcount : n ≤ count) :
    blocks k qubits count = List.ofFn fun i : Fin n => (qubits.drop (k * i)).take k := by
  induction n generalizing qubits count with
  | zero =>
      have hnil : qubits = [] := by
        rw [← List.length_eq_zero_iff, hlength, Nat.zero_mul]
      cases count with
      | zero => simp [blocks]
      | succ count => simp [blocks, hnil]
  | succ n ih =>
      obtain ⟨count, rfl⟩ := Nat.exists_eq_add_of_lt hcount
      have hrest : (qubits.drop k).length = n * k := by
        rw [List.length_drop, hlength, Nat.succ_mul, Nat.add_sub_cancel]
      have hsome : qubits.isEmpty = false := by
        rw [List.isEmpty_eq_false_iff, ← List.length_pos_iff, hlength]
        exact Nat.mul_pos n.succ_pos hk
      rw [blocks, hsome, ih hrest (Nat.le_add_right n count), List.ofFn_succ]
      simp only [Bool.false_eq_true, if_false, Fin.val_zero, Nat.mul_zero, List.drop_zero,
        Fin.val_succ, List.drop_drop, Nat.mul_succ, Nat.add_comm]

/-- Copies of a matrix act on one window of the qubits after the other. -/
theorem place_tensorPower_eq_ofFn {n k : Nat} {qubits : List Nat}
    (hlength : qubits.length = n * k) (hnodup : qubits.Nodup) (A : BitMatrix R k) :
    place qubits (tensorPower n A) =
      (List.ofFn fun i : Fin n => place ((qubits.drop (k * i)).take k) A).reverse.prod := by
  have ht := targetAt_injective hlength hnodup
  have hrows : (Function.uncurry fun (i : Fin n) (j : Fin k) =>
      targetAt qubits (n * k) (finProdFinEquiv (i, j))).Injective :=
    ht.comp finProdFinEquiv.injective
  have hblock : ∀ i : Fin n, (fun j : Fin k => targetAt qubits (n * k) (finProdFinEquiv (i, j))) =
      targetAt ((qubits.drop (k * i)).take k) k := by
    intro i
    funext j
    simp [targetAt, List.getD_eq_getElem?_getD, List.getElem?_drop, Nat.add_comm]
  rw [place, embed_tensorPower ht, embedRows_eq_prod hrows]
  congr 3
  funext i
  rw [hblock]
  rfl

theorem place_tensorPower {n k : Nat} {qubits : List Nat} (hk : 0 < k)
    (hlength : qubits.length = n * k) (hnodup : qubits.Nodup) (A : BitMatrix R k) :
    place qubits (tensorPower n A) =
      ((blocks k qubits qubits.length).map fun block => place block A).reverse.prod := by
  have hcount : n ≤ qubits.length := by
    rw [hlength]
    exact Nat.le_mul_of_pos_right n hk
  rw [place_tensorPower_eq_ofFn hlength hnodup, blocks_eq_ofFn hk hlength hcount, List.map_ofFn]
  rfl

/-- One copy of a matrix acts like the matrix. -/
theorem place_tensorPower_single {k : Nat} {qubits : List Nat} (hlength : qubits.length = k)
    (hnodup : qubits.Nodup) (A : BitMatrix R k) :
    place qubits (tensorPower 1 A) = place qubits A := by
  have hwidth : qubits.length = 1 * k := by rw [hlength, Nat.one_mul]
  rw [place_tensorPower_eq_ofFn hwidth hnodup]
  simp [← hlength]

/-- The same matrix under two names of its size. -/
theorem place_tensorPower_congr {n k l : Nat} {A : BitMatrix R k} {B : BitMatrix R l}
    {qubits : List Nat} (hkl : k = l)
    (h : place (List.range k) A = place (List.range k) B) :
    place qubits (tensorPower n A) = place qubits (tensorPower n B) := by
  subst hkl
  rw [eq_of_place_range h]

end Blocks

end GateAlgebra
