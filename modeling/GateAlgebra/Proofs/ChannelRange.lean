import GateAlgebra.Proofs.Calculation
import GateAlgebra.Proofs.Issued
/-!
The range of noise.  The range of a channel is checked where its parameter is a number, so an
expression without symbols, which could have been one, gets past the check.  A parameter that
comes of arithmetic or of a substitution is never such an expression; one that is read from a
document may be, and then binding nothing at all may fail.
-/

namespace GateAlgebra

/-- A real number of the closed unit interval. -/
structure ComplexFloat.InUnitInterval (v : ComplexFloat) : Prop where
  real : v.im.abs < realTolerance
  nonneg : 0 ≤ v.re
  le_one : v.re ≤ 1

/-- Whatever a substitution leaves is a number if it has a value. -/
theorem Scalar.collapsed_substitute (s : Scalar) (bindings : Bindings) :
    (s.substitute bindings).Collapsed := by
  cases s with
  | concrete value => exact nofun
  | symbolic e => exact collapsed_ofExpression _

theorem Scalar.eval_substitute_nil (s : Scalar) :
    (s.substitute []).toExpression.eval = s.toExpression.eval := by
  have hsame := (s.toExpression_substitute [] []).1
  rwa [Expression.substitute_nil, Expression.substitute_nil, Expression.substitute_nil] at hsame

namespace Channel

variable {c c' : Channel} {bindings : Bindings}

/-- If the parameter denotes a number, that number is in the unit interval. -/
def InRange (c : Channel) : Prop :=
  ∀ v, c.parameter.toExpression.eval = some v → v.InUnitInterval

theorem check_concrete_iff {noise : Noise} {v : ComplexFloat} :
    check ⟨noise, .concrete v⟩ = .ok () ↔ v.InUnitInterval := by
  have hparts : v.InUnitInterval ↔ v.isReal = true ∧ 0 ≤ v.re ∧ v.re ≤ 1 := by
    rw [ComplexFloat.isReal, decide_eq_true_iff]
    exact ⟨fun h => ⟨h.real, h.nonneg, h.le_one⟩, fun ⟨hr, h0, h1⟩ => ⟨hr, h0, h1⟩⟩
  rw [hparts]
  simp only [check]
  split
  · rename_i hreal
    split
    · rename_i hunit
      simp_all
    · rename_i hunit
      simp_all
  · rename_i hreal
    simp [hreal]

/-- A parameter that is a number if it has a value passes the check exactly in range. -/
theorem check_iff_inRange (h : c.parameter.Collapsed) : c.check = .ok () ↔ c.InRange := by
  obtain ⟨noise, parameter⟩ := c
  -- The check lets every expression through, so it is the hypothesis that says it has no value.
  cases parameter with
  | concrete v =>
      rw [check_concrete_iff]
      exact ⟨fun hv w hw => Option.some.inj hw ▸ hv, fun hrange => hrange v rfl⟩
  | symbolic e =>
      have hnone : e.eval = none := h e rfl
      exact iff_of_true rfl fun v hv => nomatch hnone.symm.trans hv

theorem substitute_eq_ok_iff :
    c.substitute bindings = .ok c' ↔
      c' = ⟨c.noise, c.parameter.substitute bindings⟩ ∧ c'.check = .ok () :=
  make_eq_ok_iff

/-- A substitution leaves no value that the check does not see. -/
theorem inRange_of_substitute (h : c.substitute bindings = .ok c') :
    c'.parameter.Collapsed ∧ c'.InRange := by
  obtain ⟨rfl, hcheck⟩ := substitute_eq_ok_iff.1 h
  have hcollapsed := c.parameter.collapsed_substitute bindings
  exact ⟨hcollapsed, (check_iff_inRange hcollapsed).1 hcheck⟩

/-- Binding nothing carries out the check that a hidden value got past. -/
theorem substitute_nil_iff : (∃ c', c.substitute [] = .ok c') ↔ c.InRange := by
  have hrange : (Channel.mk c.noise (c.parameter.substitute [])).InRange ↔ c.InRange := by
    unfold InRange
    rw [c.parameter.eval_substitute_nil]
  rw [← hrange, ← check_iff_inRange (c.parameter.collapsed_substitute [])]
  constructor
  · rintro ⟨c', h⟩
    obtain ⟨rfl, hcheck⟩ := substitute_eq_ok_iff.1 h
    exact hcheck
  · exact fun hcheck => ⟨_, substitute_eq_ok_iff.2 ⟨rfl, hcheck⟩⟩

theorem Checked.inRange (h : c.Checked) (hcollapsed : c.parameter.Collapsed) : c.InRange :=
  (check_iff_inRange hcollapsed).1 (make_eq_ok_iff.1 h).2

/-- Out of range is what hides its value in an expression without symbols, and nothing else. -/
theorem Checked.not_inRange_iff (h : c.Checked) :
    ¬c.InRange ↔ ∃ e v, c.parameter = .symbolic e ∧ e.eval = some v ∧ ¬v.InUnitInterval := by
  constructor
  · intro hout
    have hhidden : ¬c.parameter.Collapsed := fun hcollapsed => hout (h.inRange hcollapsed)
    unfold Scalar.Collapsed at hhidden
    push Not at hhidden
    obtain ⟨e, he, -⟩ := hhidden
    unfold InRange at hout
    push Not at hout
    obtain ⟨v, hv, hvalue⟩ := hout
    rw [he] at hv
    exact ⟨e, v, he, hv, hvalue⟩
  · rintro ⟨e, v, he, hv, hvalue⟩ hrange
    exact hvalue (hrange v (by rw [he]; exact hv))

end Channel

section Inside

/-- The channel that an operation is, under whatever modifiers. -/
def Operation.channels : Operation → List Channel
  | .channel c => [c]
  | .controlled _ w | .powered _ w | .inverted w | .repeated _ w => w.channels
  | _ => []

/-- The channels inside of a value. -/
def Datum.channels : Datum → List Channel
  | channel c => [c]
  | operation op => op.channels
  | instruction inst => inst.operation.channels
  | circuit c => c.instructions.flatMap fun inst => inst.operation.channels
  | _ => []

/-- Bind symbols in a value that may have channels inside. -/
def Datum.substitute (bindings : Bindings) : Datum → Except CircuitError Datum
  | channel c => channel <$> c.substitute bindings
  | operation op => operation <$> op.substitute bindings
  | instruction inst => instruction <$> inst.substitute bindings
  | circuit c => circuit <$> c.substitute bindings
  | value => .ok value

variable {op op' : Operation} {value value' : Datum} {bindings : Bindings} {c : Channel}

theorem Operation.PartsChecked.channels (h : op.PartsChecked) (hc : c ∈ op.channels) :
    c.Checked := by
  induction op with
  | channel d =>
      obtain rfl := List.mem_singleton.1 hc
      exact h
  | powered e w ih => exact ih h.2 hc
  | controlled n w ih | repeated n w ih => exact ih h hc
  | inverted w ih => exact ih h hc
  | _ => cases hc

theorem Datum.CheckedWith.channels {P : Nat → Prop} (h : value.CheckedWith P)
    (hc : c ∈ value.channels) : c.Checked := by
  cases value with
  | channel d =>
      obtain rfl := List.mem_singleton.1 hc
      exact h
  | operation op => exact Operation.PartsChecked.channels h.parts hc
  | instruction inst => exact h.operation.parts.channels hc
  | circuit circuit =>
      obtain ⟨inst, hinst, hc⟩ := List.mem_flatMap.1 hc
      exact (h inst hinst).operation.parts.channels hc
  | _ => cases hc

theorem Operation.inRange_of_substitute (h : op.substitute bindings = .ok op')
    (hc : c ∈ op'.channels) : c.parameter.Collapsed ∧ c.InRange := by
  induction op generalizing op' with
  | channel d =>
      obtain ⟨d', hd, hop'⟩ := bind_eq_ok_iff.1 h
      obtain rfl := Except.ok.inj hop'
      obtain rfl := List.mem_singleton.1 hc
      exact Channel.inRange_of_substitute hd
  | controlled n w ih | powered e w ih | inverted w ih | repeated n w ih =>
      obtain ⟨w', hw, hop'⟩ := bind_eq_ok_iff.1 h
      obtain rfl := Except.ok.inj hop'
      exact ih hw hc
  | _ =>
      obtain rfl := Except.ok.inj h
      cases hc

theorem Operation.substitute_nil_iff :
    (∃ op', op.substitute [] = .ok op') ↔ ∀ c ∈ op.channels, c.InRange := by
  induction op with
  | channel d =>
      rw [channels, List.forall_mem_singleton, ← Channel.substitute_nil_iff]
      exact exists_map_eq_ok_iff
  | controlled n w ih | powered e w ih | inverted w ih | repeated n w ih =>
      exact exists_map_eq_ok_iff.trans ih
  | _ => exact iff_of_true ⟨_, rfl⟩ nofun

theorem Instruction.substitute_nil_iff {inst : Instruction} :
    (∃ inst', inst.substitute [] = .ok inst') ↔ ∀ c ∈ inst.operation.channels, c.InRange :=
  exists_map_eq_ok_iff.trans Operation.substitute_nil_iff

theorem Circuit.substitute_nil_iff {circuit : Circuit} :
    (∃ circuit', circuit.substitute [] = .ok circuit') ↔
      ∀ inst ∈ circuit.instructions, ∀ c ∈ inst.operation.channels, c.InRange := by
  have hlist : (∃ circuit', circuit.substitute [] = .ok circuit') ↔
      ∃ list, circuit.instructions.mapM (Instruction.substitute []) = .ok list :=
    exists_map_eq_ok_iff
  rw [hlist, exists_mapM_eq_ok_iff]
  exact forall₂_congr fun _ _ => Instruction.substitute_nil_iff

theorem Instruction.inRange_of_substitute {inst inst' : Instruction}
    (h : inst.substitute bindings = .ok inst') (hc : c ∈ inst'.operation.channels) :
    c.parameter.Collapsed ∧ c.InRange := by
  obtain ⟨op', hop, rfl⟩ := map_eq_ok_iff.1 h
  exact Operation.inRange_of_substitute hop hc

/-- Whatever a value held before, after a substitution every channel inside is in range. -/
theorem Datum.inRange_of_substitute (h : value.substitute bindings = .ok value')
    (hc : c ∈ value'.channels) : c.parameter.Collapsed ∧ c.InRange := by
  cases value with
  | channel d =>
      obtain ⟨d', hd, rfl⟩ := map_eq_ok_iff.1 h
      obtain rfl := List.mem_singleton.1 hc
      exact Channel.inRange_of_substitute hd
  | operation op =>
      obtain ⟨op', hop, rfl⟩ := map_eq_ok_iff.1 h
      exact Operation.inRange_of_substitute hop hc
  | instruction inst =>
      obtain ⟨inst', hinst, rfl⟩ := map_eq_ok_iff.1 h
      exact Instruction.inRange_of_substitute hinst hc
  | circuit circuit =>
      obtain ⟨circuit', hcircuit, rfl⟩ := map_eq_ok_iff.1 h
      obtain ⟨inst', hinst', hc⟩ := List.mem_flatMap.1 hc
      have hlist := ((Circuit.substitute_eq_ok_iff bindings).1 hcircuit).1
      obtain ⟨inst, -, hinst⟩ := exists_of_mem_mapM hlist hinst'
      exact Instruction.inRange_of_substitute hinst hc
  | _ =>
      obtain rfl := Except.ok.inj h
      cases hc

theorem Datum.substitute_nil_iff :
    (∃ value', value.substitute [] = .ok value') ↔ ∀ c ∈ value.channels, c.InRange := by
  cases value with
  | channel d =>
      rw [channels, List.forall_mem_singleton, ← Channel.substitute_nil_iff]
      exact exists_map_eq_ok_iff
  | operation op => exact exists_map_eq_ok_iff.trans Operation.substitute_nil_iff
  | instruction inst => exact exists_map_eq_ok_iff.trans Instruction.substitute_nil_iff
  | circuit circuit =>
      rw [channels, List.forall_mem_flatMap, ← Circuit.substitute_nil_iff]
      exact exists_map_eq_ok_iff
  | _ => exact iff_of_true ⟨_, rfl⟩ nofun

end Inside

/-- Every channel that calls can give, on its own or inside of an operation, an instruction or a
circuit, has no value outside of the unit interval, unless its parameter hides one in an
expression without symbols.  A parameter that comes of arithmetic and bindings hides none, and
neither does one that any substitution leaves.  Binding nothing succeeds exactly if no channel
inside hides a value outside of the interval. -/
theorem channels_in_range_unless_hidden {counting : Counting} {value : Datum}
    (hvalue : Issued counting value) :
    (∀ c ∈ value.channels, ¬c.InRange ↔
      ∃ e v, c.parameter = .symbolic e ∧ e.eval = some v ∧ ¬v.InUnitInterval) ∧
    (∀ c ∈ value.channels, ∀ t : Calculation, c.parameter = t.result → c.InRange) ∧
    ((∃ value', value.substitute [] = .ok value') ↔ ∀ c ∈ value.channels, c.InRange) ∧
    ∀ bindings value', value.substitute bindings = .ok value' →
      (∀ c ∈ value'.channels, c.InRange) ∧ ∃ value'', value'.substitute [] = .ok value'' := by
  refine ⟨fun c hc => ?_, fun c hc t ht => ?_, Datum.substitute_nil_iff,
    fun bindings value' h => ?_⟩
  · exact (hvalue.checkedWith.channels hc).not_inRange_iff
  · exact (hvalue.checkedWith.channels hc).inRange (ht ▸ t.collapsed_result)
  · have hrange : ∀ c ∈ value'.channels, c.InRange := fun c hc =>
      (Datum.inRange_of_substitute h hc).2
    exact ⟨hrange, Datum.substitute_nil_iff.2 hrange⟩

section Samples

/-- A bit flip whose probability is two, written as an expression without symbols. -/
def hiddenFlip : Channel :=
  ⟨.bitFlip, .symbolic (.constant (.ofReal 2))⟩

theorem not_inUnitInterval_two : ¬(ComplexFloat.ofReal 2).InUnitInterval := fun h =>
  absurd h.le_one (by decide)

/-- A circuit with a flip of probability one quarter is in range, and the hidden two is not. -/
theorem channels_in_range_unless_hidden_samples :
    (∃ value, (Datum.circuit noisyRoot).substitute [] = .ok value) ∧ ¬hiddenFlip.InRange := by
  constructor
  · obtain ⟨hrange, -, hnothing, -⟩ := channels_in_range_unless_hidden issued_noisyRoot
    refine hnothing.2 fun c hc => not_not.1 fun hout => ?_
    obtain ⟨e, v, he, -⟩ := (hrange c hc).1 hout
    obtain rfl : c = quarterFlip := List.mem_singleton.1 hc
    cases he
  · have hmade : Channel.make .bitFlip (.symbolic (.constant (.ofReal 2))) = .ok hiddenFlip := rfl
    have hissued : Issued .stops (.channel hiddenFlip) := .noise hmade
    obtain ⟨hrange, -⟩ := channels_in_range_unless_hidden hissued
    exact (hrange hiddenFlip List.mem_cons_self).2 ⟨_, _, rfl, rfl, not_inUnitInterval_two⟩

/-- The decoder takes the hidden two for a probability, and the constructor does.  Binding
nothing then fails. -/
theorem hiddenFlip_is_out_of_range :
    Channel.decode hiddenFlip.encode = .ok hiddenFlip ∧
    Channel.make hiddenFlip.noise hiddenFlip.parameter = .ok hiddenFlip ∧
    hiddenFlip.parameter.toExpression.eval = some (.ofReal 2) ∧
    ¬(ComplexFloat.ofReal 2).InUnitInterval ∧
    hiddenFlip.substitute [] = .error (.outOfRange "p" 2 0 1) := by
  have hmade : Channel.make hiddenFlip.noise hiddenFlip.parameter = .ok hiddenFlip := rfl
  have hwritable : hiddenFlip.Writable :=
    have hnumber : (ComplexFloat.ofReal 2).Writable := ⟨rfl, rfl⟩
    hnumber
  exact ⟨Channel.decode_encode hwritable hmade, hmade, rfl, not_inUnitInterval_two, rfl⟩

end Samples

end GateAlgebra
