import GateAlgebra.Proofs.FiniteDocument
/-!
What calls give.  Whatever they make of checked values is checked, so every instruction of every
circuit is valid.  Decoding carries out every check of the constructors again, so a value that
the library gives is the one that its document gives.
-/

namespace GateAlgebra

open Operation Emission

/-- A value of one of the kinds that circuits are made of. -/
inductive Datum where
  | scalar (s : Scalar)
  | expression (e : Expression)
  | exponent (e : Exponent)
  | gate (g : Gate)
  | custom (g : CustomGate)
  | channel (c : Channel)
  | observable (o : Observable)
  | operation (op : Operation)
  | instruction (inst : Instruction)
  | circuit (c : Circuit)

namespace Datum

def encode : Datum → Document
  | scalar s => s.encode
  | expression e => e.encode
  | exponent e => e.encode
  | gate g => g.encode
  | custom g => g.encode
  | channel c => c.encode
  | observable o => o.encode
  | operation op => op.encode
  | instruction inst => inst.encode
  | circuit c => c.encode

/-- Decoding the document as a value of this kind succeeds and gives this value. -/
def DecodedFrom (d : Document) : Datum → Prop
  | scalar s => Scalar.decode d = .ok s
  | expression e => Expression.decode d = .ok e
  | exponent e => Exponent.decode d = .ok e
  | gate g => Gate.decode d = .ok g
  | custom g => CustomGate.decode d = .ok g
  | channel c => Channel.decode d = .ok c
  | observable o => Observable.decode d = .ok o
  | operation op => Operation.decode d = .ok op
  | instruction inst => Instruction.decode d = .ok inst
  | circuit c => Circuit.decode d = .ok c

/-- All doubles are finite, and all counts and indices fit in 64 bits. -/
def Writable : Datum → Prop
  | scalar s => s.Writable
  | expression e => e.Writable
  | exponent e => e.Writable
  | gate g => g.Writable
  | custom g => g.Writable
  | channel c => c.Writable
  | observable _ => True
  | operation op => op.Writable
  | instruction inst => inst.Writable
  | circuit c => c.Writable

/-- The checks of the constructors accept the value again, and all counts are of a certain
kind. -/
def CheckedWith (P : Nat → Prop) : Datum → Prop
  | scalar _ | expression _ | gate _ => True
  | exponent e => e.Checked
  | custom g => g.Checked
  | channel c => c.Checked
  | observable o => o.Checked
  | operation op => op.CheckedWith P
  | instruction inst => inst.ValidWith (Operation.CheckedWith P)
  | circuit c => c.AllWith (Operation.CheckedWith P)

/-- The checks of the constructors accept the value again. -/
abbrev Checked (value : Datum) : Prop :=
  value.CheckedWith (0 < ·)

/-- All counts of controls and copies are of a certain kind. -/
def EachCount (P : Nat → Prop) : Datum → Prop
  | operation op => op.EachCount P
  | instruction inst => inst.operation.EachCount P
  | circuit c => ∀ inst ∈ c.instructions, inst.operation.EachCount P
  | _ => True

variable {value : Datum} {d : Document} {P Q : Nat → Prop}

/-- What is checked in other respects is checked if its counts are of the right kind. -/
theorem CheckedWith.iff_eachCount (h : value.CheckedWith Q) :
    value.CheckedWith P ↔ value.EachCount P := by
  cases value with
  | operation op => exact Operation.CheckedWith.iff_eachCount h
  | instruction inst =>
      refine Iff.trans ⟨fun h => h.operation, fun hop => ⟨h.valid, hop⟩⟩ ?_
      exact Operation.CheckedWith.iff_eachCount h.operation
  | circuit c =>
      refine forall₂_congr fun inst hinst => ?_
      refine Iff.trans ⟨fun h => h.operation, fun hop => ⟨(h inst hinst).valid, hop⟩⟩ ?_
      exact Operation.CheckedWith.iff_eachCount (h inst hinst).operation
  | scalar | expression | gate => exact Iff.rfl
  | exponent | custom | channel | observable => exact iff_of_true h trivial

theorem decodedFrom_encode (hwritable : value.Writable) (hchecked : value.Checked) :
    value.DecodedFrom value.encode := by
  cases value with
  | scalar s => exact Scalar.decode_encode hwritable
  | expression e => exact Expression.decode_encode hwritable
  | exponent e => exact Exponent.decode_encode hwritable hchecked
  | gate g => exact Gate.decode_encode hwritable
  | custom g => exact CustomGate.decode_encode hwritable hchecked
  | channel c => exact Channel.decode_encode hwritable hchecked
  | observable o => exact Observable.decode_encode hchecked
  | operation op => exact Operation.decode_encode hwritable hchecked
  | instruction inst => exact Instruction.decode_encode hwritable hchecked
  | circuit c => exact Circuit.decode_encode hwritable hchecked

theorem checked_of_decodedFrom (h : value.DecodedFrom d) : value.Checked := by
  cases value with
  | scalar | expression | gate => trivial
  | exponent e => exact Exponent.checked_of_decode h
  | custom g => exact CustomGate.checked_of_decode h
  | channel c => exact Channel.checked_of_decode h
  | observable o => exact Observable.checked_of_decode h
  | operation op => exact Operation.checked_of_decode h
  | instruction inst =>
      exact Instruction.validWith_of_decode (fun _ _ => Operation.checked_of_decode) h
  | circuit c => exact Circuit.validWith_of_decode (fun _ _ => Operation.checked_of_decode) h

theorem writable_of_decodedFrom (hd : d.Finite) (h : value.DecodedFrom d) : value.Writable := by
  cases value with
  | scalar s => exact Scalar.writable_of_decode hd h
  | expression e => exact Expression.writable_of_decode hd h
  | exponent e => exact Exponent.writable_of_decode h
  | gate g => exact Gate.writable_of_decode hd h
  | custom g => exact CustomGate.writable_of_decode hd h
  | channel c => exact Channel.writable_of_decode hd h
  | observable o => trivial
  | operation op => exact Operation.writable_of_decode hd h
  | instruction inst => exact Instruction.writable_of_decode hd h
  | circuit c => exact Circuit.writable_of_decode hd h

theorem EachCount.mono (h : value.EachCount P) (hPQ : ∀ n, P n → Q n) : value.EachCount Q := by
  cases value with
  | operation op => exact Operation.EachCount.mono h hPQ
  | instruction inst => exact Operation.EachCount.mono h hPQ
  | circuit c => exact fun inst hinst => (h inst hinst).mono hPQ
  | _ => trivial

theorem CheckedWith.mono (h : value.CheckedWith P) (hPQ : ∀ n, P n → Q n) :
    value.CheckedWith Q :=
  h.iff_eachCount.2 ((h.iff_eachCount.1 h).mono hPQ)

end Datum

section Calls

variable (counting : Counting)

/-- What any sequence of calls can give.  Scalars, expressions and primitive gates are not
checked, so these may be any.  A value of the other kinds is made by its constructor, read from
a document, taken out of another value or made from others by the calls below; calls that fail
give nothing, except that the instructions which lowering and the synthesis of controlled gates
add before they fail stay in the circuit.  The targets that an operation needs are not counted in
64 bits, so there are no instructions of operations whose qubits cannot be. -/
inductive Issued : Datum → Prop where
  | scalar (s : Scalar) : Issued (.scalar s)
  | expression (e : Expression) : Issued (.expression e)
  | gate (g : Gate) : Issued (.gate g)
  | decoded {d : Document} {value : Datum} (h : value.DecodedFrom d) : Issued value
  | exponentOfNat {n : Nat} (h : n ≤ Exponent.maxRepetitions) : Issued (.exponent (.ofNat n))
  | half : Issued (.exponent .half)
  | fraction {numer denom : Int} {e : Exponent} (h : Exponent.ofFraction numer denom = .ok e) :
      Issued (.exponent e)
  | realExponent {x : Float} {e : Exponent} (h : Exponent.ofFloat x = .ok e) :
      Issued (.exponent e)
  | product {e e' : Exponent} (he : Issued (.exponent e)) (he' : Issued (.exponent e')) :
      Issued (.exponent (e * e'))
  | exponentOf {e : Exponent} {w : Operation} (h : Issued (.operation (powered e w))) :
      Issued (.exponent e)
  | matrix {name : String} {n : Nat} {entries : Array ComplexFloat} {g : CustomGate}
      (h : CustomGate.ofEntries name n entries = .ok g) : Issued (.custom g)
  | withParams {g : CustomGate} (hg : Issued (.custom g)) (params : List Scalar) :
      Issued (.custom (g.withParams params))
  | customOf {g : CustomGate} (h : Issued (.operation (custom g))) : Issued (.custom g)
  | noise {noise : Noise} {parameter : Scalar} {c : Channel}
      (h : Channel.make noise parameter = .ok c) : Issued (.channel c)
  | boundChannel {c c' : Channel} {bindings : Bindings} (hc : Issued (.channel c))
      (h : c.substitute bindings = .ok c') : Issued (.channel c')
  | channelOf {c : Channel} (h : Issued (.operation (channel c))) : Issued (.channel c)
  | projector0 : Issued (.observable .projector0)
  | projector1 : Issued (.observable .projector1)
  | sigmaPlus : Issued (.observable .sigmaPlus)
  | sigmaMinus : Issued (.observable .sigmaMinus)
  | paulis {factors : List Pauli} {o : Observable} (h : Observable.ofPaulis factors = .ok o) :
      Issued (.observable o)
  | pauliText {text : String} {o : Observable} (h : Observable.ofText text = .ok o) :
      Issued (.observable o)
  | observableOf {o : Observable} (h : Issued (.operation (observable o))) :
      Issued (.observable o)
  | expectedOf {o : Observable} (h : Issued (.operation (expectation o))) :
      Issued (.observable o)
  | gateOperation {g : Gate} (hg : Issued (.gate g)) : Issued (.operation (.gate g))
  | customOperation {g : CustomGate} (hg : Issued (.custom g)) : Issued (.operation (custom g))
  | channelOperation {c : Channel} (hc : Issued (.channel c)) : Issued (.operation (channel c))
  | observableOperation {o : Observable} (ho : Issued (.observable o)) :
      Issued (.operation (observable o))
  | expectation {o : Observable} (ho : Issued (.observable o)) :
      Issued (.operation (expectation o))
  | measure : Issued (.operation measure)
  | reset : Issued (.operation reset)
  | barrier (width : Nat) : Issued (.operation (barrier width))
  | controlledGate {n : Nat} (hn : 0 < n) (g : Gate) : Issued (.operation (controlledGate n g))
  | invertedGate (g : Gate) : Issued (.operation (invertedGate g))
  | control {op op' : Operation} {n : Nat} (hop : Issued (.operation op))
      (h : op.controlIn counting n = pure op') : Issued (.operation op')
  | power {op op' : Operation} {e : Exponent} (hop : Issued (.operation op))
      (he : Issued (.exponent e)) (h : op.power e = .ok op') : Issued (.operation op')
  | sqrt {op op' : Operation} (hop : Issued (.operation op)) (h : op.sqrt = .ok op') :
      Issued (.operation op')
  | inverse {op op' : Operation} (hop : Issued (.operation op)) (h : op.inverse = .ok op') :
      Issued (.operation op')
  | parallel {op op' : Operation} {n : Nat} (hop : Issued (.operation op))
      (h : op.parallelIn counting n = pure op') : Issued (.operation op')
  | bound {op op' : Operation} {bindings : Bindings} (hop : Issued (.operation op))
      (h : op.substitute bindings = .ok op') : Issued (.operation op')
  | wrapped {op w : Operation} (hop : Issued (.operation op)) (h : op.wrapped? = some w) :
      Issued (.operation w)
  | operationOf {inst : Instruction} (hinst : Issued (.instruction inst)) :
      Issued (.operation inst.operation)
  | made {op : Operation} {qubits bits zvars : List Nat} {inst : Instruction}
      (hop : Issued (.operation op)) (h : Instruction.make op qubits bits zvars = .ok inst) :
      Issued (.instruction inst)
  | invertedInstruction {inst inst' : Instruction} (hinst : Issued (.instruction inst))
      (h : inst.inverse = .ok inst') : Issued (.instruction inst')
  | boundInstruction {inst inst' : Instruction} {bindings : Bindings}
      (hinst : Issued (.instruction inst)) (h : inst.substitute bindings = .ok inst') :
      Issued (.instruction inst')
  | expansionStep {g : Gate} {qubits : List Nat} {steps : List Instruction} {inst : Instruction}
      (h : g.expansion qubits = .ok (some steps)) (hinst : inst ∈ steps) :
      Issued (.instruction inst)
  | member {c : Circuit} {inst : Instruction} (hc : Issued (.circuit c))
      (hinst : inst ∈ c.instructions) : Issued (.instruction inst)
  | empty (name : String) : Issued (.circuit (.empty name))
  | bell {c : Circuit} (h : Circuit.bell = .ok c) : Issued (.circuit c)
  | ghz {n : Nat} {c : Circuit} (h : Circuit.ghz n = .ok c) : Issued (.circuit c)
  | qft {n : Nat} {c : Circuit} (h : Circuit.qft n = .ok c) : Issued (.circuit c)
  | push {c c' : Circuit} {op : Operation} {groups : List Target} (hc : Issued (.circuit c))
      (hop : Issued (.operation op)) (h : c.push op groups = .ok c') : Issued (.circuit c')
  | insert {c c' : Circuit} {op : Operation} {position : Nat} {groups : List Target}
      (hc : Issued (.circuit c)) (hop : Issued (.operation op))
      (h : c.insert position op groups = .ok c') : Issued (.circuit c')
  | pushInstruction {c : Circuit} {inst : Instruction} (hc : Issued (.circuit c))
      (hinst : Issued (.instruction inst)) : Issued (.circuit (c.extend [inst]))
  | append {c other : Circuit} (hc : Issued (.circuit c)) (hother : Issued (.circuit other)) :
      Issued (.circuit (c.append other))
  | remove {c c' : Circuit} {position : Nat} {removed : Instruction} (hc : Issued (.circuit c))
      (h : c.remove position = .ok (removed, c')) : Issued (.circuit c')
  | inverseCircuit {c c' : Circuit} (hc : Issued (.circuit c)) (h : c.inverse = .ok c') :
      Issued (.circuit c')
  | boundCircuit {c c' : Circuit} {bindings : Bindings} (hc : Issued (.circuit c))
      (h : c.substitute bindings = .ok c') : Issued (.circuit c')
  | lowered {c : Circuit} {op : Operation} (hc : Issued (.circuit c))
      (hop : Issued (.operation op)) (qubits bits zvars ancillae : List Nat) :
      Issued (.circuit (c.extend (op.lower qubits bits zvars ancillae).emitted))
  | controlledX {c : Circuit} (hc : Issued (.circuit c)) (controls : List Nat) (target : Nat)
      (free : List Nat) :
      Issued (.circuit (c.extend (controlledX controls target free).emitted))
  | controlledRoot {c : Circuit} {op : Operation} (hc : Issued (.circuit c))
      (hop : Issued (.operation op)) (controls : List Nat) (target : Nat) (free : List Nat) :
      Issued (.circuit (c.extend (controlledRoot op controls target free).emitted))
  | loweredInstruction {config : LoweringConfig} {inst : Instruction} {c : Circuit}
      (hinst : Issued (.instruction inst)) (h : config.lowerInstruction inst = .ok c) :
      Issued (.circuit c)
  | loweredCircuit {config : LoweringConfig} {c c' : Circuit} (hc : Issued (.circuit c))
      (h : config.lowerCircuit c = .ok c') : Issued (.circuit c')
  | loweredUntilFixed {config : LoweringConfig} {c c' : Circuit} (hc : Issued (.circuit c))
      (h : config.lowerUntilFixed c = .ok c') : Issued (.circuit c')

end Calls

theorem Issued.checkedWith {counting : Counting} {value : Datum} (h : Issued counting value) :
    value.CheckedWith counting.Allows := by
  have hclosed := callClosed_checkedWith counting
  -- Values come out of one another across the kinds, so all share one induction.
  induction h with
  | scalar | expression | gate => trivial
  | decoded h => exact (Datum.checked_of_decodedFrom h).mono fun _ => Counting.allows_of_pos
  | exponentOfNat h => exact Exponent.checked_ofNat h
  | half => exact hclosed.half
  | fraction h => exact Exponent.checked_of_ofFraction h
  | realExponent h => exact Exponent.checked_of_ofFloat h
  | product _ _ he he' => exact Exponent.Checked.mul he he'
  | exponentOf _ hop => exact hclosed.exponent hop
  | matrix h => exact CustomGate.checked_of_ofEntries h
  | withParams _ params hg => exact CustomGate.Checked.withParams hg params
  | customOf _ hop => exact hop.parts
  | noise h => exact Channel.checked_of_make h
  | boundChannel _ h => exact Channel.checked_of_substitute h
  | channelOf _ hop => exact hop.parts
  | projector0 | projector1 | sigmaPlus | sigmaMinus => exact nofun
  | paulis h => exact Observable.checked_of_ofPaulis h
  | pauliText h => exact Observable.checked_of_ofText h
  | observableOf _ hop | expectedOf _ hop => exact hop.parts
  | gateOperation => exact hclosed.gate _
  | customOperation _ hg => exact ⟨trivial, hg⟩
  | channelOperation _ hc => exact ⟨trivial, hc⟩
  | observableOperation _ ho | expectation _ ho => exact ⟨trivial, ho⟩
  | measure | reset | barrier => exact ⟨trivial, trivial⟩
  | controlledGate hn g => exact hclosed.controlledGate hn g
  | invertedGate g => exact hclosed.invert rfl (hclosed.gate g)
  | control _ h hop => exact hclosed.control CheckedWith.recounted h hop
  | power _ _ h hop he => exact hclosed.power h he hop
  | sqrt _ h hop => exact hclosed.power h hclosed.half hop
  | inverse _ h hop => exact hclosed.inverse h hop
  | parallel _ h hop => exact hclosed.parallel CheckedWith.recounted h hop
  | bound _ h hop => exact hclosed.substitute h hop
  | wrapped _ h hop => exact (hclosed.wrapped h hop).2
  | operationOf _ hinst => exact hinst.operation
  | made _ h hop => exact Instruction.validWith_of_make hop h
  | invertedInstruction _ h hinst => exact hinst.inverse hclosed h
  | boundInstruction _ h hinst => exact hinst.substitute hclosed h
  | expansionStep h hinst => exact Instruction.validWith_of_expansion hclosed h _ hinst
  | member _ hinst hc => exact hc _ hinst
  | empty name => exact Circuit.AllWith.empty name
  | bell h => exact Circuit.AllWith.bell hclosed ⟨trivial, trivial⟩ h
  | ghz h => exact Circuit.AllWith.ghz hclosed ⟨trivial, trivial⟩ h
  | qft h => exact Circuit.AllWith.qft hclosed h
  | push _ _ h hc hop => exact hc.push hop h
  | insert _ _ h hc hop => exact hc.insert hop h
  | pushInstruction _ _ hc hinst => exact hc.extend (List.forall_mem_singleton.2 hinst)
  | append _ _ hc hother => exact hc.extend hother
  | remove _ h hc => exact hc.remove h
  | inverseCircuit _ h hc => exact hc.inverse hclosed h
  | boundCircuit _ h hc => exact hc.substitute hclosed h
  | lowered _ _ qubits bits zvars ancillae hc hop =>
      exact hc.extend (handsOut_lower_targets hclosed hop qubits bits zvars ancillae)
  | controlledX _ controls target free hc =>
      exact hc.extend (handsOut_controlledX hclosed controls target free)
  | controlledRoot _ _ controls target free hc hop =>
      exact hc.extend (handsOut_controlledRoot hclosed hop controls target free)
  | loweredInstruction _ h hinst => exact Circuit.AllWith.lowerInstruction hclosed hinst h
  | loweredCircuit _ h hc => exact Circuit.AllWith.lowerCircuit hclosed hc h
  | loweredUntilFixed _ h hc => exact Circuit.AllWith.lowerUntilFixed hclosed hc h

/-- Only counts that lose bits can be zero, so that decoding refuses them. -/
theorem Issued.checked {counting : Counting} {value : Datum} (h : Issued counting value)
    (hcounts : counting = .wraps → value.EachCount (0 < ·)) : value.Checked := by
  have hchecked := h.checkedWith
  by_cases hcounting : counting = .wraps
  · exact hchecked.iff_eachCount.2 (hcounts hcounting)
  · rwa [Counting.allows_eq hcounting] at hchecked

/-- Whatever is called in whatever order, every instruction of every circuit has the targets
that its operation needs, none of them twice in one list, and an operation that is no pure
operator and whose modifiers are well-formed, unless a count in it is zero.  Only where counts lose
bits can one be zero, and can there be more qubits than are counted. -/
theorem every_instruction_is_valid {counting : Counting} {c : Circuit}
    (h : Issued counting (.circuit c)) :
    ∀ inst ∈ c.instructions,
      ((counting = .wraps → inst.operation.numQubits ≤ maxIndex) → inst.Valid) ∧
      (inst.operation.ModifiesGates ↔ inst.operation.EachCount (0 < ·)) ∧
      (counting ≠ .wraps → inst.operation.ModifiesGates) := by
  intro inst hinst
  have hvalid := h.checkedWith inst hinst
  have hmodifies := hvalid.operation.modifiesGates
  refine ⟨fun _ => hvalid.valid, ⟨fun h => h.eachCount, hmodifies.of_eachCount⟩,
    fun hcounting => ?_⟩
  rwa [Counting.allows_eq hcounting] at hmodifies

/-- Whatever calls a value comes from, it is what its document is decoded to, unless it holds a
double that is not finite, or a count that is zero, as only one that lost bits can be.  So is
every value that is decoded from any document whose numbers are finite, as those of a text are.
Fields that are passed over, the order of fields and the form of variants may get lost on the
way, the value never. -/
theorem documents_round_trip (counting : Counting) :
    (∀ value : Datum, Issued counting value → value.Writable →
      (value.DecodedFrom value.encode ↔ value.EachCount (0 < ·)) ∧
      (counting ≠ .wraps → value.DecodedFrom value.encode)) ∧
    ∀ (d : Document) (value : Datum), d.Finite → value.DecodedFrom d →
      value.DecodedFrom value.encode := by
  refine ⟨fun value hissued hwritable => ?_, fun d value hd h => ?_⟩
  · have hiff : value.DecodedFrom value.encode ↔ value.Checked :=
      ⟨Datum.checked_of_decodedFrom, Datum.decodedFrom_encode hwritable⟩
    exact ⟨hiff.trans hissued.checkedWith.iff_eachCount,
      fun hcounting => hiff.2 (hissued.checked fun hwraps => absurd hwraps hcounting)⟩
  · exact Datum.decodedFrom_encode (Datum.writable_of_decodedFrom hd h)
      (Datum.checked_of_decodedFrom h)

section Samples

/-- A bit flip with probability one quarter. -/
def quarterFlip : Channel :=
  ⟨.bitFlip, .real 0.25⟩

/-- A doubly controlled root of Y and noise after it. -/
def noisyRoot : Circuit :=
  ⟨"root", [controlledRootY.on [0, 1, 2], (channel quarterFlip).on [0]]⟩

theorem issued_controlledRootY : Issued .stops (.operation controlledRootY) :=
  .control (n := 2) (.sqrt (.gateOperation (.gate .y)) rfl) rfl

theorem issued_noisyRoot : Issued .stops (.circuit noisyRoot) := by
  have hflip : Channel.make .bitFlip (.real 0.25) = .ok quarterFlip := rfl
  have hfirst : Issued .stops (.instruction (controlledRootY.on [0, 1, 2])) :=
    .made issued_controlledRootY (Instruction.make_eq_ok_iff.2
      ⟨rfl, Instruction.valid_of_isUnitary rfl rfl (by decide)⟩)
  have hlast : Issued .stops (.instruction ((channel quarterFlip).on [0])) :=
    .made (.channelOperation (.noise hflip)) (Instruction.make_eq_ok_iff.2
      ⟨rfl, nofun, rfl, rfl, rfl, List.nodup_singleton 0, List.nodup_nil, List.nodup_nil⟩)
  exact .pushInstruction (.pushInstruction (.empty "root") hfirst) hlast

theorem writable_noisyRoot : noisyRoot.Writable := by
  have hindices : ∀ i ∈ [0, 1, 2] ++ [] ++ [], i ≤ maxIndex := by decide
  have hroot : controlledRootY.Writable :=
    have hgate : Gate.Writable .y := List.forall_mem_nil _
    ⟨hindices 2 (by simp), trivial, hgate⟩
  have hflip : quarterFlip.Writable := ⟨by decide, by decide⟩
  refine List.forall_mem_cons.2 ⟨⟨hroot, hindices⟩, List.forall_mem_singleton.2 ⟨hflip, ?_⟩⟩
  exact List.forall_mem_singleton.2 (hindices 0 (by simp))

/-- The square of T with a whole number for an exponent that is a double, fields in a list. -/
def squaredT : Document :=
  .variant "Power" (.list [.variant "Real" (.integer 2), .variant "Gate" (.string "T")])

theorem finite_squaredT : squaredT.Finite := by
  refine Document.finite_variant (Document.finite_list ?_) "Power"
  have hexponent : (Document.variant "Real" (.integer 2)).Finite :=
    Document.finite_variant (Document.finite_integer (by decide)) "Real"
  have hgate : (Document.variant "Gate" (.string "T")).Finite :=
    Document.finite_variant (Document.finite_string "T") "Gate"
  simpa using ⟨hexponent, hgate⟩

theorem decode_squaredT :
    Operation.decode squaredT = .ok (powered (.real (Float.ofInt 2)) (gate .t)) := by
  have hgate : Operation.decode (.variant "Gate" (.string "T")) = .ok (gate .t) :=
    decode_leaf "Gate" (.string "T") rfl rfl
  rw [squaredT, decode_modifier "Power" ["exponent", "wrapped"] rfl rfl rfl rfl, hgate]
  rfl

theorem documents_round_trip_samples :
    Circuit.decode noisyRoot.encode = .ok noisyRoot ∧
      Operation.decode (powered (.real (Float.ofInt 2)) (gate .t)).encode =
        .ok (powered (.real (Float.ofInt 2)) (gate .t)) := by
  obtain ⟨hissued, hdecoded⟩ := documents_round_trip .stops
  exact ⟨(hissued (.circuit noisyRoot) issued_noisyRoot writable_noisyRoot).2 nofun,
    hdecoded squaredT (.operation _) finite_squaredT decode_squaredT⟩

/-- The inverse of a circuit with one controlled gate. -/
theorem every_instruction_is_valid_inverse_cx :
    ((controlled 1 (inverted (gate .x))).on [0, 1]).Valid ∧
      (controlled 1 (inverted (gate .x))).ModifiesGates := by
  have hmade : Instruction.make .cx [0, 1] [] [] = .ok (Operation.cx.on [0, 1]) :=
    Instruction.make_eq_ok_iff.2 ⟨rfl, Instruction.valid_of_isUnitary rfl rfl (by decide)⟩
  have hpair : Issued .stops (.circuit ((Circuit.empty "pair").extend [Operation.cx.on [0, 1]])) :=
    .pushInstruction (.empty "pair") (.made (.controlledGate Nat.one_pos .x) hmade)
  have hinverse : ((Circuit.empty "pair").extend [Operation.cx.on [0, 1]]).inverse =
      .ok ⟨"pair", [(controlled 1 (inverted (gate .x))).on [0, 1]]⟩ := rfl
  obtain ⟨hvalid, -, hmodifies⟩ :=
    every_instruction_is_valid (.inverseCircuit hpair hinverse) _ List.mem_cons_self
  exact ⟨hvalid nofun, hmodifies nofun⟩

end Samples

section LostBits

/-- X under as many controls as there can be and one more, where bits are lost. -/
theorem issued_lostControls : Issued .wraps (.operation (controlled 0 (gate .x))) :=
  .control (.control (.gateOperation (.gate .x)) controlIn_maxIndex) controlIn_lost

/-- Without a control that is left it acts on one qubit, and a circuit takes it. -/
theorem lost_controls_are_pushed :
    Issued .wraps (.circuit ⟨"lost", [(controlled 0 (gate .x)).on [0]]⟩) ∧
      ¬(controlled 0 (gate .x)).ModifiesGates := by
  have hmade : Instruction.make (controlled 0 (gate .x)) [0] [] [] =
      .ok ((controlled 0 (gate .x)).on [0]) :=
    Instruction.make_eq_ok_iff.2 ⟨rfl, Instruction.valid_of_isUnitary rfl rfl (by decide)⟩
  exact ⟨.pushInstruction (.empty "lost") (.made issued_lostControls hmade),
    fun h => Nat.lt_irrefl 0 h.1⟩

/-- Its document is refused. -/
theorem lost_controls_are_not_decoded :
    Issued .wraps (.operation (controlled 0 (gate .x))) ∧ (controlled 0 (gate .x)).Writable ∧
      Operation.decode (controlled 0 (gate .x)).encode ≠ .ok (controlled 0 (gate .x)) := by
  have hwritable : (controlled 0 (gate .x)).Writable :=
    have hgate : Gate.Writable .x := List.forall_mem_nil _
    ⟨Nat.zero_le _, hgate⟩
  exact ⟨issued_lostControls, hwritable,
    fun h => Nat.lt_irrefl 0 (checked_of_decode h).modifiesGates.1⟩

end LostBits

end GateAlgebra
