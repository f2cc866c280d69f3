import Mathlib.Data.Multiset.DershowitzManna
import GateAlgebra.Proofs.NormalForm
import GateAlgebra.Proofs.Shrinks
/-!
Passes one after another.  A pass hands out the circuit that it was given exactly if every
instruction is lowered to itself, since the weights of all instructions get smaller otherwise.
Only instructions that differ from themselves keep passes going then.
-/

namespace GateAlgebra

/-- The weights of instructions, in any order. -/
def weights (instructions : List Instruction) : Multiset (ℕ ×ₗ ℕ) :=
  Multiset.ofList (instructions.map Instruction.weight)

@[simp] theorem weights_append (instructions others : List Instruction) :
    weights (instructions ++ others) = weights instructions + weights others := by
  simp [weights]

theorem mem_weights {instructions : List Instruction} {w : ℕ ×ₗ ℕ} :
    w ∈ weights instructions ↔ ∃ inst ∈ instructions, inst.weight = w := by
  simp [weights]

section Order

open Multiset

variable {α : Type} [Preorder α] {smaller greater : Multiset α}

theorem isDershowitzMannaLT_add_left (h : IsDershowitzMannaLT smaller greater)
    (others : Multiset α) : IsDershowitzMannaLT (others + smaller) (others + greater) := by
  obtain ⟨kept, new, old, hold, rfl, rfl, hless⟩ := h
  exact ⟨others + kept, new, old, hold, (add_assoc _ _ _).symm, (add_assoc _ _ _).symm, hless⟩

theorem isDershowitzMannaLT_singleton {a : α} (h : ∀ b ∈ smaller, b < a) :
    IsDershowitzMannaLT smaller {a} :=
  ⟨0, smaller, {a}, singleton_ne_zero a, (zero_add _).symm, (zero_add _).symm,
    fun b hb => ⟨a, mem_singleton_self a, h b hb⟩⟩

end Order

open Multiset in
/-- What shrinks is the same, or it weighs less. -/
theorem Instruction.Shrinks.weights_lt {inst : Instruction} {emitted : List Instruction}
    (h : inst.Shrinks emitted) :
    emitted = [inst] ∨ IsDershowitzMannaLT (weights emitted) (weights [inst]) := by
  refine h.imp_right fun hless => isDershowitzMannaLT_singleton fun w hw => ?_
  obtain ⟨part, hpart, rfl⟩ := mem_weights.1 hw
  exact hless part hpart

namespace LoweringConfig

variable {config : LoweringConfig} {current next : List Instruction} {changed : Bool}

/-- A pass keeps every instruction, or the weights get smaller. -/
theorem pass_keeps_or_shrinks (hvalid : ∀ inst ∈ current, inst.Valid)
    (h : config.pass current = .ok (next, changed)) :
    next = current ∧ (∀ inst ∈ current, inst.lower config.ancillae = .done [inst]) ∨
      Multiset.IsDershowitzMannaLT (weights next) (weights current) := by
  induction current generalizing next changed with
  | nil =>
      obtain ⟨rfl, -⟩ := Prod.mk.inj (Except.ok.inj h)
      simp
  | cons inst rest ih =>
      obtain ⟨hinst, hrest⟩ := List.forall_mem_cons.1 hvalid
      obtain ⟨lowered, ⟨others, changed'⟩, hlowered, hothers, hresult⟩ := pass_cons_eq_ok_iff.1 h
      obtain ⟨rfl, -⟩ := Prod.mk.inj hresult
      rw [← List.singleton_append, weights_append, weights_append]
      rcases ((Instruction.lowers_of_lower hlowered).shrinks hinst).weights_lt with
        rfl | hless <;> rcases ih hrest hothers with ⟨rfl, hall⟩ | hless'
      · exact Or.inl ⟨rfl, List.forall_mem_cons.2 ⟨hlowered, hall⟩⟩
      · exact Or.inr (isDershowitzMannaLT_add_left hless' _)
      · right
        rw [add_comm, add_comm (weights [inst])]
        exact isDershowitzMannaLT_add_left hless _
      · right
        refine (isDershowitzMannaLT_add_left hless' _).trans ?_
        rw [add_comm, add_comm (weights [inst])]
        exact isDershowitzMannaLT_add_left hless _

/-- A pass that hands out what it was given has lowered every instruction to itself. -/
theorem lower_self_of_pass_self (hvalid : ∀ inst ∈ current, inst.Valid)
    (h : config.pass current = .ok (current, changed)) :
    ∀ inst ∈ current, inst.lower config.ancillae = .done [inst] := by
  rcases pass_keeps_or_shrinks hvalid h with ⟨-, hall⟩ | hless
  · exact hall
  · exact absurd hless (Multiset.wellFounded_isDershowitzMannaLT.irrefl.irrefl _)

/-- What a pass reports: it has changed something unless the instructions are the same and
none of them differs from itself. -/
theorem pass_unchanged_iff (hvalid : ∀ inst ∈ current, inst.Valid)
    (h : config.pass current = .ok (next, changed)) :
    changed = false ↔ next = current ∧ ∀ inst ∈ current, (inst == inst) = true := by
  constructor
  · rintro rfl
    obtain ⟨hnext, hall⟩ := stable_of_pass hvalid h
    exact ⟨hnext, fun inst hinst => (hall inst hinst).2⟩
  · rintro ⟨rfl, hself⟩
    have hlower := lower_self_of_pass_self hvalid h
    have hstable := pass_of_stable fun inst hinst => ⟨hlower inst hinst, hself inst hinst⟩
    exact (Prod.mk.inj (Except.ok.inj (h.symm.trans hstable))).2

/-- The instructions after a pass are those before it, and none of them differs from itself. -/
def Rests (current next : List Instruction) : Prop :=
  next = current ∧ ∀ inst ∈ current, (inst == inst) = true

/-- The next pass either is the last one, or the passes after it take over. -/
theorem fixWithin_succ (hvalid : ∀ inst ∈ current, inst.Valid) (passes : Nat)
    (h : config.pass current = .ok (next, changed)) :
    (Rests current next → config.fixWithin (passes + 1) current = .ok current) ∧
    (¬Rests current next →
      config.fixWithin (passes + 1) current = config.fixWithin passes next) := by
  rw [fixWithin, h]
  constructor
  · intro hrests
    obtain rfl := (pass_unchanged_iff hvalid h).2 hrests
    rw [hrests.1]
    rfl
  · intro hgoes
    have hchanged : changed = true := by
      rw [← Bool.not_eq_false, pass_unchanged_iff hvalid h]
      exact hgoes
    rw [hchanged]
    rfl

/-- Passes end with the first instructions that rest, if there are any. -/
theorem fixWithin_of_chain {lists : Nat → List Instruction} {passes : Nat}
    (hvalid : ∀ inst ∈ lists 0, inst.Valid)
    (hchain : ∀ k < passes, ∃ changed, config.pass (lists k) = .ok (lists (k + 1), changed)) :
    (∀ k < passes, Rests (lists k) (lists (k + 1)) →
      (∀ j < k, ¬Rests (lists j) (lists (j + 1))) →
      config.fixWithin passes (lists 0) = .ok (lists k)) ∧
    ((∀ k < passes, ¬Rests (lists k) (lists (k + 1))) →
      config.fixWithin passes (lists 0) = .error (.failed (.passLimit config.maxPasses))) := by
  induction passes generalizing lists with
  | zero => exact ⟨fun k hk => absurd hk (Nat.not_lt_zero k), fun _ => rfl⟩
  | succ passes ih =>
      obtain ⟨changed, hpass⟩ := hchain 0 passes.succ_pos
      obtain ⟨hlast, hgoes⟩ := fixWithin_succ hvalid passes hpass
      obtain ⟨hrests, hnone⟩ := @ih (fun k => lists (k + 1)) (pass_valid hvalid hpass)
        fun k hk => hchain (k + 1) (Nat.succ_lt_succ hk)
      constructor
      · intro k hk hat hbefore
        cases k with
        | zero => exact hlast hat
        | succ k =>
            rw [hgoes (hbefore 0 k.succ_pos)]
            exact hrests k (Nat.lt_of_succ_lt_succ hk) hat fun j hj =>
              hbefore (j + 1) (Nat.succ_lt_succ hj)
      · intro hall
        rw [hgoes (hall 0 passes.succ_pos)]
        exact hnone fun k hk => hall (k + 1) (Nat.succ_lt_succ hk)

section Circuits

variable {circuits : Nat → Circuit}

/-- Each circuit is lowered to the next one, as often as there are passes. -/
def Chain (config : LoweringConfig) (circuits : Nat → Circuit) : Prop :=
  ∀ k < config.maxPasses, config.lowerCircuit (circuits k) = .ok (circuits (k + 1))

theorem lowerCircuit_eq_ok_iff {c lowered : Circuit} :
    config.lowerCircuit c = .ok lowered ↔
      lowered.name = c.name ∧
        ∃ changed, config.pass c.instructions = .ok (lowered.instructions, changed) := by
  rw [lowerCircuit]
  cases config.pass c.instructions with
  | error stop => simp [bind, Except.bind]
  | ok result =>
      obtain ⟨name, list⟩ := lowered
      obtain ⟨next, changed⟩ := result
      simp [bind, Except.bind, pure, Except.pure, eq_comm]

theorem Chain.name_eq (h : config.Chain circuits) {k : Nat} (hk : k ≤ config.maxPasses) :
    (circuits k).name = (circuits 0).name := by
  induction k with
  | zero => rfl
  | succ k ih => rw [(lowerCircuit_eq_ok_iff.1 (h k hk)).1, ih (Nat.le_of_succ_le hk)]

/-- After a pass that hands out the same circuit, all passes do. -/
theorem Chain.eq_of_eq (h : config.Chain circuits) {k j : Nat} (hkj : k ≤ j)
    (hj : j ≤ config.maxPasses) (hsame : circuits (k + 1) = circuits k) :
    circuits j = circuits k := by
  induction j, hkj using Nat.le_induction with
  | base => rfl
  | succ j hkj ih =>
      have hprevious := ih (Nat.le_of_succ_le hj)
      have hnext := h j hj
      rw [hprevious, h k (Nat.lt_of_le_of_lt hkj hj), hsame] at hnext
      exact (Except.ok.inj hnext).symm

/-- Lowering until nothing changes hands out the first circuit that a pass hands out again, if
nothing in it differs from itself.  Otherwise, and only then, there are too few passes. -/
theorem first_unchanged_circuit_or_passLimit
    (hvalid : ∀ inst ∈ (circuits 0).instructions, inst.Valid) (hchain : config.Chain circuits) :
    (∀ k < config.maxPasses, circuits (k + 1) = circuits k →
      (∀ j < k, circuits (j + 1) ≠ circuits j) →
      ((∀ inst ∈ (circuits k).instructions, (inst == inst) = true) →
        config.lowerUntilFixed (circuits 0) = .ok (circuits k)) ∧
      ((∃ inst ∈ (circuits k).instructions, (inst == inst) = false) →
        config.lowerUntilFixed (circuits 0) =
          .error (.failed (.passLimit config.maxPasses)))) ∧
    ((∀ k < config.maxPasses, circuits (k + 1) ≠ circuits k) →
      config.lowerUntilFixed (circuits 0) =
        .error (.failed (.passLimit config.maxPasses))) := by
  have hpasses : ∀ k < config.maxPasses, ∃ changed, config.pass (circuits k).instructions =
      .ok ((circuits (k + 1)).instructions, changed) :=
    fun k hk => (lowerCircuit_eq_ok_iff.1 (hchain k hk)).2
  obtain ⟨hfound, hnone⟩ := @fixWithin_of_chain _ (fun k => (circuits k).instructions) _
    hvalid hpasses
  -- all circuits of a chain have one name
  have hrests : ∀ k < config.maxPasses,
      Rests (circuits k).instructions (circuits (k + 1)).instructions →
      circuits (k + 1) = circuits k := by
    intro k hk hat
    change Circuit.mk (circuits (k + 1)).name (circuits (k + 1)).instructions = circuits k
    rw [(lowerCircuit_eq_ok_iff.1 (hchain k hk)).1, hat.1]
  have hlimit : (∀ k < config.maxPasses,
      ¬Rests (circuits k).instructions (circuits (k + 1)).instructions) →
      config.lowerUntilFixed (circuits 0) = .error (.failed (.passLimit config.maxPasses)) := by
    intro hall
    rw [lowerUntilFixed, hnone hall]
    rfl
  refine ⟨fun k hk hsame hbefore => ⟨fun hself => ?_, ?_⟩, fun hall => ?_⟩
  · have hat : Rests (circuits k).instructions (circuits (k + 1)).instructions :=
      ⟨congrArg Circuit.instructions hsame, hself⟩
    refine lowerUntilFixed_eq_ok_iff.2 ⟨hchain.name_eq (Nat.le_of_lt hk), hfound k hk hat ?_⟩
    exact fun j hj hrest => hbefore j hj (hrests j (hj.trans hk) hrest)
  · rintro ⟨inst, hinst, hdiffers⟩
    refine hlimit fun j hj hrest => ?_
    -- the circuit is the k-th from there on, which does not rest, and no earlier one stays
    have hkj : k ≤ j := Nat.le_of_not_lt fun hjk => hbefore j hjk (hrests j hj hrest)
    have heq := hchain.eq_of_eq hkj (Nat.le_of_lt hj) hsame
    have hself := hrest.2 inst (by rw [heq]; exact hinst)
    rw [hdiffers] at hself
    cases hself
  · exact hlimit fun k hk hrest => hall k hk (hrests k hk hrest)

/-- An exchange and a measurement, and what every pass hands out after that. -/
def exchangeChain : Nat → Circuit
  | 0 => exchangeThenMeasure
  | _ + 1 => ⟨"", exchangedThenMeasure⟩

theorem chain_exchange : LoweringConfig.Chain {} exchangeChain := by
  intro k _
  cases k with
  | zero => exact lowerCircuit_eq_ok_iff.2 ⟨rfl, _, pass_exchangeThenMeasure⟩
  | succ k => exact lowerCircuit_eq_ok_iff.2 ⟨rfl, _, pass_exchangedThenMeasure⟩

/-- The second pass changes nothing, and nothing differs from itself. -/
theorem first_unchanged_circuit_or_passLimit_exchange :
    (∀ inst ∈ (exchangeChain 0).instructions, inst.Valid) ∧
    LoweringConfig.Chain {} exchangeChain ∧
    LoweringConfig.lowerUntilFixed {} (exchangeChain 0) = .ok (exchangeChain 1) := by
  have hfirst := (@first_unchanged_circuit_or_passLimit {} _ valid_exchangeThenMeasure
    chain_exchange).1 1 (by decide) rfl
  have hbefore : ∀ j < 1, exchangeChain (j + 1) ≠ exchangeChain j := by
    intro j hj hsame
    obtain rfl := Nat.lt_one_iff.1 hj
    exact absurd (congrArg (fun c => c.instructions.length) hsame) (by decide)
  exact ⟨valid_exchangeThenMeasure, chain_exchange, (hfirst hbefore).1 (by decide)⟩

end Circuits

section NoNumber

/-- Zero times infinity. -/
def noNumber : Scalar :=
  .real 1e308 * .real 1e308 * .real 0

/-- A controlled turn by an angle that is no number. -/
def turnByNoNumber : Circuit :=
  ⟨"turn", [(Operation.controlled 1 (.gate (.rx noNumber))).on [0, 1]]⟩

theorem turnByNoNumber_differs :
    ∀ inst ∈ turnByNoNumber.instructions, (inst == inst) = false := by
  decide +kernel

theorem pass_turnByNoNumber (config : LoweringConfig) :
    config.pass turnByNoNumber.instructions = .ok (turnByNoNumber.instructions, true) := by
  have hlower : ((Operation.controlled 1 (.gate (.rx noNumber))).on [0, 1]).lower
      config.ancillae = .done [(Operation.controlled 1 (.gate (.rx noNumber))).on [0, 1]] := rfl
  refine pass_cons_eq_ok_iff.2 ⟨_, ([], false), hlower, rfl, ?_⟩
  have hdiffers := List.forall_mem_singleton.1 turnByNoNumber_differs
  rw [isChanged, hdiffers]
  rfl

/-- Every pass hands out the turn as it was, yet no number of passes is enough. -/
theorem turnByNoNumber_exceeds_every_limit :
    (∀ inst ∈ turnByNoNumber.instructions, inst.Valid) ∧
    ∀ config : LoweringConfig, config.Chain (fun _ => turnByNoNumber) ∧
      config.lowerUntilFixed turnByNoNumber = .error (.failed (.passLimit config.maxPasses)) := by
  have hvalid : ∀ inst ∈ turnByNoNumber.instructions, inst.Valid :=
    List.forall_mem_singleton.2 (Instruction.valid_of_isUnitary rfl rfl (by decide))
  refine ⟨hvalid, fun config => ⟨fun k _ => ?_, ?_⟩⟩
  · exact lowerCircuit_eq_ok_iff.2 ⟨rfl, true, pass_turnByNoNumber config⟩
  · have hnone := (@fixWithin_of_chain _ (fun _ => turnByNoNumber.instructions) _ hvalid
      fun k (_ : k < config.maxPasses) => ⟨true, pass_turnByNoNumber config⟩).2
    rw [lowerUntilFixed, hnone fun k _ hrests => ?_]
    · rfl
    · have hself := hrests.2 _ List.mem_cons_self
      rw [turnByNoNumber_differs _ List.mem_cons_self] at hself
      cases hself

end NoNumber

end LoweringConfig

end GateAlgebra
