import Mathlib.Algebra.BigOperators.Fin
import Mathlib.Algebra.Group.Fin.Tuple
import Mathlib.Data.Matrix.Mul
import Mathlib.Logic.Equiv.Fin.Basic
import GateAlgebra.Proofs.Toggle
/-!
Operators on the amplitudes of a register.  A matrix acts on some of the qubits and
leaves the others alone, and an operator under controls acts where all of them are
one.
-/

namespace GateAlgebra

/-- An operator on functions from assignments to amplitudes. -/
abbrev Operator (R : Type*) := Function.End (Assignment → R)

/-- A bit for each of `k` positions. -/
abbrev Bits (k : Nat) := Fin k → Bool

/-- A matrix whose rows and columns are the bit strings of a length. -/
abbrev BitMatrix (R : Type*) (k : Nat) := Matrix (Bits k) (Bits k) R

section Control

variable {R : Type*}

/-- Act where all controls are one. -/
def ctrl (controls : List Nat) (F : Operator R) : Operator R :=
  fun ψ s => if controls.all s then F ψ s else ψ s

@[simp] theorem ctrl_nil (F : Operator R) : ctrl [] F = F := rfl

@[simp] theorem ctrl_one (controls : List Nat) : ctrl controls (1 : Operator R) = 1 := by
  funext ψ s
  change (if controls.all s then ψ s else ψ s) = ψ s
  exact ite_self _

theorem ctrl_append (outer inner : List Nat) (F : Operator R) :
    ctrl (outer ++ inner) F = ctrl outer (ctrl inner F) := by
  funext ψ s
  simp only [ctrl, List.all_append, Bool.and_eq_true]
  by_cases houter : outer.all s = true
  · simp [houter]
  · simp [houter]

theorem ctrl_congr {left right : List Nat} (h : ∀ q, q ∈ left ↔ q ∈ right)
    (F : Operator R) : ctrl left F = ctrl right F := by
  funext ψ s
  have hall : left.all s = right.all s := by
    rw [Bool.eq_iff_iff, List.all_eq_true, List.all_eq_true]
    simp [h]
  simp only [ctrl, hall]

/-- What the operator yields at an assignment depends on assignments alone that
agree with it on the listed qubits. -/
def Operator.Keeps (listed : List Nat) (F : Operator R) : Prop :=
  ∀ ψ φ s, (∀ s', (∀ q ∈ listed, s' q = s q) → ψ s' = φ s') → F ψ s = F φ s

theorem Operator.Keeps.one (listed : List Nat) :
    (1 : Operator R).Keeps listed :=
  fun _ _ s hagree => hagree s fun _ _ => rfl

theorem Operator.Keeps.mul {listed : List Nat} {F G : Operator R}
    (hF : F.Keeps listed) (hG : G.Keeps listed) : (F * G).Keeps listed := by
  intro ψ φ s hagree
  apply hF
  intro s' hs'
  apply hG
  intro s'' hs''
  exact hagree s'' fun q hq => (hs'' q hq).trans (hs' q hq)

/-- Controls distribute over a product whose left factor keeps them. -/
theorem ctrl_mul {controls : List Nat} {F : Operator R} (hF : F.Keeps controls)
    (G : Operator R) : ctrl controls (F * G) = ctrl controls F * ctrl controls G := by
  funext ψ s
  change (if controls.all s then F (G ψ) s else ψ s) =
    if controls.all s then F (ctrl controls G ψ) s else ctrl controls G ψ s
  by_cases hall : controls.all s = true
  · rw [if_pos hall, if_pos hall]
    apply hF
    intro s' hagree
    have hall' : controls.all s' = true := by
      rw [List.all_eq_true] at hall ⊢
      intro q hq
      rw [hagree q hq]
      exact hall q hq
    simp [ctrl, hall']
  · simp [ctrl, hall]

end Control

section Extend

variable {ι : Type*} {t : ι → Nat}

theorem extend_comp_self (ht : t.Injective) (s : Assignment) :
    Function.extend t (s ∘ t) s = s := by
  funext q
  by_cases hq : ∃ i, t i = q
  · obtain ⟨i, rfl⟩ := hq
    exact ht.extend_apply _ _ i
  · exact Function.extend_apply' _ _ q hq

theorem extend_extend (ht : t.Injective) (b c : ι → Bool)
    (s : Assignment) :
    Function.extend t b (Function.extend t c s) = Function.extend t b s := by
  funext q
  by_cases hq : ∃ i, t i = q
  · obtain ⟨i, rfl⟩ := hq
    rw [ht.extend_apply, ht.extend_apply]
  · rw [Function.extend_apply' _ _ q hq, Function.extend_apply' _ _ q hq,
      Function.extend_apply' _ _ q hq]

theorem extend_comp_of_disjoint {κ : Type*} {u : κ → Nat}
    (h : ∀ i j, t i ≠ u j) (b : ι → Bool) (s : Assignment) :
    Function.extend t b s ∘ u = s ∘ u := by
  funext j
  exact Function.extend_apply' _ _ (u j) fun ⟨i, hi⟩ => h i j hi

end Extend

section Embed

variable {R : Type*} [CommRing R] {ι : Type*} [Fintype ι] [DecidableEq ι]

/-- A matrix on the bits of the qubits that `t` names. -/
noncomputable def embed (t : ι → Nat) (A : Matrix (ι → Bool) (ι → Bool) R) : Operator R :=
  fun ψ s => ∑ b, A (s ∘ t) b * ψ (Function.extend t b s)

theorem embed_one {t : ι → Nat} (ht : t.Injective) : embed t 1 = (1 : Operator R) := by
  funext ψ s
  change ∑ b, (1 : Matrix (ι → Bool) (ι → Bool) R) (s ∘ t) b * _ = ψ s
  simp [Matrix.one_apply, extend_comp_self ht]

theorem embed_mul {t : ι → Nat} (ht : t.Injective)
    (A B : Matrix (ι → Bool) (ι → Bool) R) :
    embed t (A * B) = embed t A * embed t B := by
  funext ψ s
  change ∑ c, (A * B) (s ∘ t) c * ψ (Function.extend t c s) =
    ∑ b, A (s ∘ t) b * ∑ c, B (Function.extend t b s ∘ t) c *
      ψ (Function.extend t c (Function.extend t b s))
  simp only [Function.extend_comp ht, extend_extend ht, Matrix.mul_apply, Finset.sum_mul,
    Finset.mul_sum]
  rw [Finset.sum_comm]
  simp only [mul_assoc]

/-- The operator tells what the matrix is. -/
theorem embed_injective {t : ι → Nat} (ht : t.Injective) :
    Function.Injective (embed t : Matrix (ι → Bool) (ι → Bool) R → Operator R) := by
  intro A B h
  funext a b
  have hentry : ∀ M : Matrix (ι → Bool) (ι → Bool) R,
      embed t M (fun s => if s ∘ t = b then 1 else 0)
        (Function.extend t a fun _ => false) = M a b := by
    intro M
    simp [embed, Function.extend_comp ht]
  rw [← hentry A, ← hentry B, h]

theorem embed_keeps {t : ι → Nat} {listed : List Nat} (ht : ∀ i, t i ∉ listed)
    (A : Matrix (ι → Bool) (ι → Bool) R) : (embed t A).Keeps listed := by
  intro ψ φ s hagree
  apply Finset.sum_congr rfl
  intro b _
  rw [hagree]
  intro q hq
  exact Function.extend_apply' _ _ q fun ⟨i, hi⟩ => ht i (hi ▸ hq)

end Embed

section Place

variable {R : Type*} [CommRing R]

/-- The qubit at each position of a target list. -/
def targetAt (qubits : List Nat) (k : Nat) (i : Fin k) : Nat :=
  qubits.getD i 0

theorem targetAt_injective {qubits : List Nat} {k : Nat} (hlength : qubits.length = k)
    (hnodup : qubits.Nodup) : (targetAt qubits k).Injective := by
  subst hlength
  intro i j h
  simp only [targetAt, List.getD_eq_getElem?_getD, List.getElem?_eq_getElem i.isLt,
    List.getElem?_eq_getElem j.isLt, Option.getD_some] at h
  exact Fin.ext (hnodup.getElem_inj_iff.1 h)

theorem targetAt_mem {qubits : List Nat} {k : Nat} (hlength : qubits.length = k)
    (i : Fin k) : targetAt qubits k i ∈ qubits := by
  subst hlength
  rw [targetAt, List.getD_eq_getElem?_getD, List.getElem?_eq_getElem i.isLt]
  exact List.getElem_mem i.isLt

theorem targetAt_castAdd {qubits : List Nat} {n k : Nat} (i : Fin n) :
    targetAt qubits (n + k) (i.castAdd k) = targetAt (qubits.take n) n i := by
  simp [targetAt, List.getD_eq_getElem?_getD]

theorem targetAt_natAdd {qubits : List Nat} {n k : Nat} (j : Fin k) :
    targetAt qubits (n + k) (j.natAdd n) = targetAt (qubits.drop n) k j := by
  simp [targetAt, List.getD_eq_getElem?_getD, List.getElem?_drop]

theorem all_iff_targetAt {qubits : List Nat} {k : Nat} (hlength : qubits.length = k)
    (s : Assignment) :
    qubits.all s = true ↔ ∀ i : Fin k, s (targetAt qubits k i) = true := by
  rw [List.all_eq_true]
  constructor
  · intro h i
    exact h _ (targetAt_mem hlength i)
  · intro h q hq
    obtain ⟨i, hi, rfl⟩ := List.mem_iff_getElem.1 hq
    have hone := h ⟨i, hlength ▸ hi⟩
    simpa [targetAt, List.getD_eq_getElem?_getD, List.getElem?_eq_getElem hi] using hone

/-- A matrix on target qubits, and nothing on all others. -/
noncomputable def place {k : Nat} (qubits : List Nat) (A : BitMatrix R k) : Operator R :=
  embed (targetAt qubits k) A

theorem place_one {k : Nat} {qubits : List Nat} (hlength : qubits.length = k)
    (hnodup : qubits.Nodup) : place qubits (1 : BitMatrix R k) = 1 :=
  embed_one (targetAt_injective hlength hnodup)

theorem place_mul {k : Nat} {qubits : List Nat} (hlength : qubits.length = k)
    (hnodup : qubits.Nodup) (A B : BitMatrix R k) :
    place qubits (A * B) = place qubits A * place qubits B :=
  embed_mul (targetAt_injective hlength hnodup) A B

theorem place_pow {k : Nat} {qubits : List Nat}
    (hlength : qubits.length = k) (hnodup : qubits.Nodup) (A : BitMatrix R k) (n : Nat) :
    place qubits (A ^ n) = place qubits A ^ n := by
  induction n with
  | zero => rw [pow_zero, pow_zero, place_one hlength hnodup]
  | succ n ih => rw [pow_succ, pow_succ, place_mul hlength hnodup, ih]

theorem place_injective {k : Nat} {qubits : List Nat} (hlength : qubits.length = k)
    (hnodup : qubits.Nodup) :
    Function.Injective (place qubits : BitMatrix R k → Operator R) :=
  embed_injective (targetAt_injective hlength hnodup)

/-- A matrix under two names of its size is one matrix, on whatever qubits. -/
theorem place_congr_of_place_eq {k l : Nat} {A : BitMatrix R k} {B : BitMatrix R l}
    {qubits other : List Nat} (hk : qubits.length = k) (hl : qubits.length = l)
    (hnodup : qubits.Nodup) (h : place qubits A = place qubits B) :
    place other A = place other B := by
  subst hk
  subst hl
  rw [place_injective rfl hnodup h]

theorem place_keeps {k : Nat} {qubits listed : List Nat} (hlength : qubits.length = k)
    (hdisjoint : ∀ q ∈ qubits, q ∉ listed) (A : BitMatrix R k) :
    (place qubits A).Keeps listed :=
  embed_keeps (fun i => hdisjoint _ (targetAt_mem hlength i)) A

/-- A block of the identity and a matrix in its corner, where the first `n` bits are
one. -/
def blockControl (n : Nat) {k : Nat} (A : BitMatrix R k) : BitMatrix R (n + k) :=
  fun a b =>
    if (∀ i : Fin n, a (i.castAdd k) = true) ∧ ∀ i : Fin n, b (i.castAdd k) = true then
      A (fun j => a (j.natAdd n)) fun j => b (j.natAdd n)
    else if a = b then 1 else 0

/-- In a row with the first `n` bits at one, the corner is all that there is. -/
theorem blockControl_append {n k : Nat} (A : BitMatrix R k) {a : Bits (n + k)}
    (hones : ∀ i : Fin n, a (i.castAdd k) = true) (c : Bits n) (d : Bits k) :
    blockControl n A a (Fin.append c d) =
      if c = fun _ => true then A (fun j => a (j.natAdd n)) d else 0 := by
  by_cases hc : c = fun _ => true
  · simp [blockControl, hones, hc]
  · have hsome : ¬∀ i, c i = true := fun h => hc (funext h)
    have hdiffers : a ≠ Fin.append c d := by
      rintro rfl
      exact hsome fun i => by simpa using hones i
    simp [blockControl, hc, hsome, hdiffers]

/-- The other rows are those of the identity. -/
theorem blockControl_outside {n k : Nat} (A : BitMatrix R k) {a : Bits (n + k)}
    (hsome : ¬∀ i : Fin n, a (i.castAdd k) = true) (b : Bits (n + k)) :
    blockControl n A a b = (1 : BitMatrix R (n + k)) a b := by
  simp [blockControl, Matrix.one_apply, hsome]

/-- With the first `n` targets at one, the bits of the others are all that is
written. -/
theorem extend_append_true {n k : Nat} {qubits : List Nat}
    (hlength : qubits.length = n + k) (hnodup : qubits.Nodup) {s : Assignment}
    (hones : ∀ i : Fin n, s (targetAt qubits (n + k) (i.castAdd k)) = true) (d : Bits k) :
    Function.extend (targetAt qubits (n + k)) (Fin.append (fun _ => true) d) s =
      Function.extend (targetAt (qubits.drop n) k) d s := by
  have ht := targetAt_injective hlength hnodup
  have hrest : (targetAt (qubits.drop n) k).Injective := by
    apply targetAt_injective _ (hnodup.sublist (List.drop_sublist n qubits))
    rw [List.length_drop]
    omega
  funext q
  by_cases hq : ∃ i, targetAt qubits (n + k) i = q
  · obtain ⟨i, rfl⟩ := hq
    rw [ht.extend_apply]
    refine Fin.addCases (fun i => ?_) (fun j => ?_) i
    · have hnot : ¬∃ j, targetAt (qubits.drop n) k j =
          targetAt qubits (n + k) (i.castAdd k) := by
        rintro ⟨j, hj⟩
        rw [← targetAt_natAdd] at hj
        have hvalue := Fin.ext_iff.1 (ht hj)
        simp only [Fin.val_natAdd, Fin.val_castAdd] at hvalue
        omega
      rw [Fin.append_left, Function.extend_apply' _ _ _ hnot, hones i]
    · rw [Fin.append_right, targetAt_natAdd, hrest.extend_apply]
  · rw [Function.extend_apply' _ _ q hq, Function.extend_apply']
    rintro ⟨j, hj⟩
    exact hq ⟨j.natAdd n, by rw [targetAt_natAdd, hj]⟩

theorem place_blockControl {n k : Nat} {qubits : List Nat}
    (hlength : qubits.length = n + k) (hnodup : qubits.Nodup) (A : BitMatrix R k) :
    place qubits (blockControl n A) = ctrl (qubits.take n) (place (qubits.drop n) A) := by
  have ht := targetAt_injective hlength hnodup
  have hcontrols : (qubits.take n).length = n := by
    rw [List.length_take]
    omega
  funext ψ s
  have hones : (∀ i : Fin n, s (targetAt qubits (n + k) (i.castAdd k)) = true) ↔
      (qubits.take n).all s = true := by
    simp only [targetAt_castAdd, all_iff_targetAt hcontrols]
  by_cases hall : (qubits.take n).all s = true
  · have hextend := extend_append_true hlength hnodup (hones.2 hall)
    have hrow : (fun j => (s ∘ targetAt qubits (n + k)) (j.natAdd n)) =
        s ∘ targetAt (qubits.drop n) k := by
      funext j
      rw [Function.comp_apply, targetAt_natAdd, Function.comp_apply]
    have hentry := blockControl_append A (a := s ∘ targetAt qubits (n + k)) (hones.2 hall)
    rw [hrow] at hentry
    calc place qubits (blockControl n A) ψ s
        = ∑ c : Bits n, ∑ d : Bits k,
            blockControl n A (s ∘ targetAt qubits (n + k)) (Fin.append c d) *
              ψ (Function.extend (targetAt qubits (n + k)) (Fin.append c d) s) := by
          rw [← Fintype.sum_prod_type']
          exact ((Fin.appendEquiv n k).sum_comp _).symm
      _ = ∑ d : Bits k, A (s ∘ targetAt (qubits.drop n) k) d *
            ψ (Function.extend (targetAt (qubits.drop n) k) d s) := by
          rw [Finset.sum_eq_single fun _ => true]
          · simp [hentry, hextend]
          · intro c _ hc
            simp [hentry, hc]
          · simp
      _ = ctrl (qubits.take n) (place (qubits.drop n) A) ψ s := by
          simp [ctrl, hall, place, embed]
  · have hrow := blockControl_outside A (a := s ∘ targetAt qubits (n + k)) (mt hones.1 hall)
    have hone := congrFun (congrFun (embed_one (R := R) ht) ψ) s
    calc place qubits (blockControl n A) ψ s
        = embed (targetAt qubits (n + k)) (1 : BitMatrix R (n + k)) ψ s := by
          simp only [place, embed, hrow]
      _ = ψ s := hone
      _ = ctrl (qubits.take n) (place (qubits.drop n) A) ψ s := by simp [ctrl, hall]

/-- A matrix is known by what it does on the first qubits. -/
theorem eq_of_place_range {k : Nat} {A B : BitMatrix R k}
    (h : place (List.range k) A = place (List.range k) B) : A = B :=
  place_injective List.length_range List.nodup_range h

theorem blockControl_one (n k : Nat) : blockControl n (1 : BitMatrix R k) = 1 := by
  have hdrop : ((List.range (n + k)).drop n).length = k := by simp
  apply eq_of_place_range
  rw [place_blockControl List.length_range List.nodup_range,
    place_one hdrop (List.nodup_range.sublist (List.drop_sublist n _)), ctrl_one,
    place_one List.length_range List.nodup_range]

theorem blockControl_mul (n : Nat) {k : Nat} (A B : BitMatrix R k) :
    blockControl n A * blockControl n B = blockControl n (A * B) := by
  let qubits := List.range (n + k)
  have hlength : qubits.length = n + k := List.length_range
  have hnodup : qubits.Nodup := List.nodup_range
  have hdrop : (qubits.drop n).length = k := by simp [qubits]
  have hkeeps : (place (qubits.drop n) A).Keeps (qubits.take n) := by
    apply place_keeps hdrop
    intro q hq hmem
    exact List.disjoint_take_drop hnodup (Nat.le_refl n) hmem hq
  apply eq_of_place_range
  rw [place_mul hlength hnodup, place_blockControl hlength hnodup,
    place_blockControl hlength hnodup, place_blockControl hlength hnodup,
    ← ctrl_mul hkeeps, place_mul hdrop (hnodup.sublist (List.drop_sublist n qubits))]

end Place

end GateAlgebra
