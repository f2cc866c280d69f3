import GateAlgebra.Proofs.ControlledX
import GateAlgebra.Proofs.Select
/-!
Meanings of operations as matrices, and of instructions as operators on a register.
Nothing is asked of a meaning here but that controls block and that X negates.
-/

namespace GateAlgebra

/-- Negation of one bit, as a matrix. -/
def negation (R : Type*) [CommRing R] : BitMatrix R 1 :=
  fun a b => if a 0 = b 0 then 0 else 1

/-- A matrix for every operation, under which controls block and X negates. -/
structure Semantics (R : Type*) [CommRing R] where
  den : (op : Operation) → BitMatrix R op.numQubits
  den_x : den (.gate .x) = negation R
  den_controlled : ∀ n w, den (.controlled n w) = blockControl n (den w)

namespace Semantics

variable {R : Type*} [CommRing R] (S : Semantics R)

/-- An operation on target qubits. -/
noncomputable def operator (op : Operation) (qubits : List Nat) : Operator R :=
  place qubits (S.den op)

/-- Instructions as one operator, the first one first. -/
noncomputable def run (instructions : List Instruction) : Operator R :=
  (instructions.map fun inst => S.operator inst.operation inst.qubits).reverse.prod

@[simp] theorem run_nil : S.run [] = 1 := rfl

@[simp] theorem run_append (left right : List Instruction) :
    S.run (left ++ right) = S.run right * S.run left := by
  simp [run]

@[simp] theorem run_singleton (inst : Instruction) :
    S.run [inst] = S.operator inst.operation inst.qubits := by
  simp [run]

theorem run_cons (inst : Instruction) (rest : List Instruction) :
    S.run (inst :: rest) = S.run rest * S.operator inst.operation inst.qubits := by
  simp [run]

theorem operator_controlled {n : Nat} {w : Operation} {qubits : List Nat}
    (hlength : qubits.length = n + w.numQubits) (hnodup : qubits.Nodup) :
    S.operator (.controlled n w) qubits =
      ctrl (qubits.take n) (S.operator w (qubits.drop n)) := by
  unfold operator
  rw [S.den_controlled]
  exact place_blockControl hlength hnodup (S.den w)

/-- Controls that merge with others act like controls of their own. -/
theorem operator_addControls {op : Operation} {controls qubits : List Nat}
    (hlength : qubits.length = op.numQubits) (hnodup : (controls ++ qubits).Nodup) :
    S.operator (op.addControls controls.length) (controls ++ qubits) =
      ctrl controls (S.operator op qubits) := by
  have hplain : S.operator (.controlled controls.length op) (controls ++ qubits) =
      ctrl controls (S.operator op qubits) := by
    rw [operator_controlled _ (by rw [List.length_append, hlength]) hnodup,
      List.take_left, List.drop_left]
  cases op with
  | controlled n w =>
      have hcount : qubits.length = n + w.numQubits := hlength
      have htake : (controls ++ qubits).take (controls.length + n) =
          controls ++ qubits.take n := List.take_length_add_append n
      have hdrop : (controls ++ qubits).drop (controls.length + n) = qubits.drop n :=
        List.drop_length_add_append n
      have hall : (controls ++ qubits).length = controls.length + n + w.numQubits := by
        rw [List.length_append, hcount, Nat.add_assoc]
      rw [Operation.addControls, operator_controlled S hall hnodup, htake, hdrop,
        ctrl_append, operator_controlled S hcount (List.Nodup.of_append_right hnodup)]
  | _ => exact hplain

section Qubit

/-- The matrix of an operation on one qubit. -/
def qubitMatrix (op : Operation) : Matrix Bool Bool R :=
  fun a b => S.den op (fun _ => a) fun _ => b

theorem place_qubit {k : Nat} (hk : k = 1) (A : BitMatrix R k) (target : Nat) :
    place [target] A = select target fun _ a b => A (fun _ => a) fun _ => b := by
  subst hk
  funext ψ s
  have htarget : targetAt [target] 1 = fun _ => target := by
    funext i
    rw [Fin.fin_one_eq_zero i]
    rfl
  have hwrite : ∀ b : Bool, Function.extend (fun _ : Fin 1 => target) (fun _ => b) s =
      Function.update s target b := by
    intro b
    funext q
    by_cases hq : q = target
    · subst hq
      have hinj : Function.Injective fun _ : Fin 1 => q := by
        intro i j _
        exact Subsingleton.elim i j
      rw [Function.update_self]
      exact hinj.extend_apply _ _ 0
    · rw [Function.update_of_ne hq, Function.extend_apply']
      rintro ⟨_, rfl⟩
      exact hq rfl
  change ∑ b : Bits 1, A (s ∘ targetAt [target] 1) b *
      ψ (Function.extend (targetAt [target] 1) b s) = _
  rw [htarget, ← (Equiv.funUnique (Fin 1) Bool).symm.sum_comp]
  exact Finset.sum_congr rfl fun b _ => congrArg _ (congrArg ψ (hwrite b))

theorem operator_qubit {op : Operation} (hop : op.numQubits = 1) (target : Nat) :
    S.operator op [target] = select target fun _ => S.qubitMatrix op :=
  place_qubit hop (S.den op) target

end Qubit

section Toggle

theorem operator_x (target : Nat) :
    S.operator (.gate .x) [target] = turn (toggle [] target) := by
  rw [operator_qubit S rfl]
  funext ψ s
  have hentry : ∀ a b, S.qubitMatrix (.gate .x) a b = if a = b then 0 else 1 := by
    intro a b
    simp [qubitMatrix, S.den_x, negation]
  cases hbit : s target <;>
    simp [select, turn, toggle, hentry, hbit]

/-- X under controls moves the amplitude of an assignment to the one that it turns it
into. -/
theorem operator_toggle {inst : Instruction} {f : Function.End Assignment}
    (hvalid : inst.Valid) (hf : inst.toggle? = some f) :
    f * f = 1 ∧ S.operator inst.operation inst.qubits = turn f := by
  unfold Instruction.toggle? at hf
  split at hf
  · rename_i target hop hqubits
    cases hf
    rw [hop, hqubits]
    exact ⟨toggle_mul_self List.not_mem_nil, S.operator_x target⟩
  · rename_i n hop
    split at hf
    · rename_i target hdrop
      cases hf
      have hlength : inst.qubits.length = n + (Operation.gate .x).numQubits := by
        rw [hvalid.qubits_length, hop]
        rfl
      have hnodup := hvalid.qubits_nodup
      have htarget : target ∉ inst.qubits.take n := by
        rw [← List.take_append_drop n inst.qubits, hdrop] at hnodup
        grind
      refine ⟨toggle_mul_self htarget, ?_⟩
      rw [hop, operator_controlled S hlength hnodup, hdrop, operator_x, ctrl_turn_toggle,
        List.append_nil]
    · cases hf
  · cases hf

/-- A classical run moves amplitudes the way it moves assignments. -/
theorem run_of_runBits {instructions : List Instruction} {f : Function.End Assignment}
    (hvalid : ∀ inst ∈ instructions, inst.Valid) (hf : runBits instructions = some f)
    (ψ : Assignment → R) (s : Assignment) : S.run instructions ψ (f s) = ψ s := by
  induction instructions generalizing f ψ s with
  | nil =>
      simp only [runBits, Option.some.injEq] at hf
      subst hf
      rfl
  | cons inst rest ih =>
      simp only [runBits, Option.bind_eq_bind, Option.bind_eq_some_iff,
        Option.pure_def, Option.some.injEq] at hf
      obtain ⟨g, hg, t, ht, rfl⟩ := hf
      obtain ⟨hself, hoperator⟩ := S.operator_toggle (hvalid inst List.mem_cons_self) ht
      have hrest := ih (fun other hother => hvalid other (List.mem_cons_of_mem inst hother))
        hg (turn t ψ) (t s)
      rw [run_cons, hoperator]
      calc S.run rest (turn t ψ) (g (t s)) = turn t ψ (t s) := hrest
        _ = ψ s := congrArg ψ (congrFun hself s)

theorem run_of_performs {support : List Nat} {emission : Emission}
    {f : Function.End Assignment} (h : emission.Performs support f) (hf : f * f = 1) :
    ∃ emitted, emission = .done emitted ∧ S.run emitted = turn f := by
  obtain ⟨emitted, hdone, hkind, hrun⟩ := h
  refine ⟨emitted, hdone, ?_⟩
  funext ψ s
  have hmove := S.run_of_runBits (fun inst hinst => (hkind inst hinst).valid) hrun ψ (f s)
  have hback : f (f s) = s := congrFun hf s
  rwa [hback] at hmove

end Toggle

end Semantics

end GateAlgebra
