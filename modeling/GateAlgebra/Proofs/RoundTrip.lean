import GateAlgebra.Proofs.Checked
import GateAlgebra.Proofs.Kept
/-!
Encoding and decoding.  A value all of whose doubles are finite can be written down, and if it
is checked, it is read back as it was.  Counts and indices have to be of 64 bits, which here is
a condition because natural numbers have no bound.
-/

namespace GateAlgebra

open Document

section Writable

/-- Both parts are finite. -/
def ComplexFloat.Writable (z : ComplexFloat) : Prop :=
  z.re.isFinite = true ∧ z.im.isFinite = true

/-- All numbers in the expression are finite. -/
def Expression.Writable : Expression → Prop
  | constant value => value.Writable
  | symbol _ => True
  | neg operand => operand.Writable
  | add left right | sub left right | mul left right | div left right =>
      left.Writable ∧ right.Writable

def Scalar.Writable : Scalar → Prop
  | concrete value => value.Writable
  | symbolic e => e.Writable

def Gate.Writable (g : Gate) : Prop :=
  ∀ s ∈ g.parameters, s.Writable

structure CustomGate.Writable (g : CustomGate) : Prop where
  params : ∀ s ∈ g.params, s.Writable
  entries : ∀ z ∈ g.entries, z.Writable

def Exponent.Writable : Exponent → Prop
  | rational _ => True
  | real value => value.isFinite = true

def Channel.Writable (c : Channel) : Prop :=
  c.parameter.Writable

/-- All doubles are finite, and all counts fit in 64 bits. -/
def Operation.Writable : Operation → Prop
  | gate g => g.Writable
  | custom g => g.Writable
  | controlled n w | repeated n w => n ≤ maxIndex ∧ w.Writable
  | powered e w => e.Writable ∧ w.Writable
  | inverted w => w.Writable
  | barrier width => width ≤ maxIndex
  | channel c => c.Writable
  | measure | reset | observable _ | expectation _ => True

structure Instruction.Writable (inst : Instruction) : Prop where
  operation : inst.operation.Writable
  indices : ∀ i ∈ inst.qubits ++ inst.bits ++ inst.zvars, i ≤ maxIndex

def Circuit.Writable (c : Circuit) : Prop :=
  ∀ inst ∈ c.instructions, inst.Writable

end Writable

section Pieces

@[simp] theorem Document.toFloat_ofFloat {x : Float} (h : x.isFinite = true) :
    (Document.ofFloat x).toFloat = .ok x := by
  simp [Document.ofFloat, h, Document.toFloat]

@[simp] theorem Document.toIndex_ofIndex {n : Nat} (h : n ≤ maxIndex) :
    (Document.ofIndex n).toIndex = .ok n := by
  simp [ofIndex, toIndex, (fitsIndex_natCast n).2 h]

@[simp] theorem Document.toWord_integer {n : Int} (h : fitsWord n = true) :
    (integer n).toWord = .ok n := by
  simp [toWord, h]

@[simp] theorem required_some {α : Type} (a : α) : required (some a) = .ok a :=
  rfl

@[simp] theorem admitted_ok {α : Type} (a : α) : admitted (.ok a) = .ok a :=
  rfl

theorem Document.toListOf_map {α : Type} {encode : α → Document} {decode : Document → Decoded α}
    {values : List α} (h : ∀ a ∈ values, decode (encode a) = .ok a) :
    (list (values.map encode)).toListOf decode = .ok values := by
  simp only [toListOf, List.mapM_map]
  have hsame : values.mapM (decode ∘ encode) = .ok (values.map id) :=
    mapM_eq_ok_map h
  rw [List.map_id] at hsame
  exact hsame

theorem Document.toListOf_ofIndices {indices : List Nat} (h : ∀ i ∈ indices, i ≤ maxIndex) :
    (Document.ofIndices indices).toListOf toIndex = .ok indices :=
  toListOf_map fun i hi => toIndex_ofIndex (h i hi)

end Pieces

section Numbers

theorem ComplexFloat.decode_encode {z : ComplexFloat} (h : z.Writable) :
    ComplexFloat.decode z.encode = .ok z := by
  simp [ComplexFloat.encode, ComplexFloat.decode, toFloat_ofFloat h.1, toFloat_ofFloat h.2]
  rfl

theorem Expression.decode_encode {e : Expression} (h : e.Writable) :
    Expression.decode e.encode = .ok e := by
  induction e with
  | constant value =>
      simp only [encode, variant, decode, ComplexFloat.decode_encode h]
      rfl
  | symbol name => rfl
  | neg operand ih =>
      simp only [encode, variant, decode, ih h]
      rfl
  | add left right ihl ihr | sub left right ihl ihr | mul left right ihl ihr
  | div left right ihl ihr =>
      simp only [encode, variant, decode, ihl h.1, ihr h.2]
      rfl

theorem Scalar.decode_encode {s : Scalar} (h : s.Writable) :
    Scalar.decode s.encode = .ok s := by
  cases s with
  | concrete value =>
      simp only [encode, variant, decode, ComplexFloat.decode_encode h]
      rfl
  | symbolic e =>
      simp only [encode, variant, decode, Expression.decode_encode h]
      rfl

end Numbers

section Leaves

theorem Gate.decode_encode {g : Gate} (h : g.Writable) : Gate.decode g.encode = .ok g := by
  have hangle : ∀ s ∈ g.parameters, Scalar.decode s.encode = .ok s := fun s hs =>
    Scalar.decode_encode (h s hs)
  cases g with
  | u theta phi lambda =>
      simp only [parameters, List.forall_mem_cons] at hangle
      simp only [encode, variant, decode, variant?, hangle]
      rfl
  | rx | ry | rz | p | rxx | ryy | rzz =>
      simp only [parameters, List.forall_mem_singleton] at hangle
      simp only [encode, variant, decode, variant?, hangle]
      rfl
  | _ => rfl

theorem CustomGate.Checked.numQubits_le {g : CustomGate} (h : g.Checked) :
    g.numQubits ≤ maxIndex := by
  have hle : g.numQubits ≤ maxQubits := by
    unfold Checked ofEntries at h
    split at h
    · cases h
    · rename_i hle
      exact Nat.not_lt.1 hle
  exact hle.trans (by decide)

theorem CustomGate.decode_encode {g : CustomGate} (h : g.Writable) (hchecked : g.Checked) :
    CustomGate.decode g.encode = .ok g := by
  have hentries : (list (g.entries.toList.map ComplexFloat.encode)).toListOf ComplexFloat.decode =
      .ok g.entries.toList :=
    toListOf_map fun z hz => ComplexFloat.decode_encode (h.entries z (Array.mem_def.2 hz))
  have hparams : (list (g.params.map Scalar.encode)).toListOf Scalar.decode = .ok g.params :=
    toListOf_map fun s hs => Scalar.decode_encode (h.params s hs)
  have hwidth : (Document.ofIndex g.numQubits).toIndex = .ok g.numQubits :=
    toIndex_ofIndex hchecked.numQubits_le
  have hread : readEntries {} CustomGateParts.read
      [("matrix", list (g.entries.toList.map ComplexFloat.encode)), ("name", string g.name),
        ("num_qubits", .ofIndex g.numQubits), ("params", list (g.params.map Scalar.encode))] =
      .ok ⟨some g.name, some g.numQubits, some g.params, some g.entries.toList⟩ := by
    simp only [readEntries, List.foldlM_cons, CustomGateParts.read, hentries, hparams, hwidth,
      toText]
    rfl
  have hmade : CustomGate.ofEntries g.name g.numQubits g.entries.toList.toArray =
      .ok (g.withParams []) := hchecked
  simp only [CustomGate.decode, CustomGate.encode, fields?, required_some, ok_bind, hread,
    checkLength, hmade, admitted_ok]
  rfl

theorem Exponent.decode_encode {e : Exponent} (h : e.Writable) (hchecked : e.Checked) :
    Exponent.decode e.encode = .ok e := by
  cases e with
  | rational ratio =>
      obtain ⟨hnum, hfits⟩ := hchecked
      have hden : (ratio.den : Int) ≠ 0 := Int.natCast_ne_zero.2 ratio.den_nz
      have hmade : Exponent.ofFraction ratio.num ratio.den = .ok (rational ratio) := by
        simp [ofFraction, Int.not_lt.2 hnum, hfits]
      simp only [encode, variant, decode, variant?, toWord_integer hfits.1, toWord_integer hfits.2,
        ok_bind, if_neg hden, hmade, admitted_ok]
  | real value =>
      have hmade : Exponent.ofFloat value = .ok (real value) := by
        simp [ofFloat, show value.isFinite = true from h, show ¬value < 0 from hchecked]
      simp only [encode, variant, decode, variant?, toFloat_ofFloat h, ok_bind, hmade, admitted_ok]

theorem Pauli.decode_encode (p : Pauli) : Pauli.decode p.encode = .ok p := by
  cases p <;> rfl

theorem Observable.decode_encode {o : Observable} (hchecked : o.Checked) :
    Observable.decode o.encode = .ok o := by
  cases o with
  | pauliString factors =>
      have hfactors : (list (factors.map Pauli.encode)).toListOf Pauli.decode = .ok factors :=
        toListOf_map fun p _ => Pauli.decode_encode p
      have hmade : Observable.ofPaulis factors = .ok (pauliString factors) := by
        have hsome : factors ≠ [] := fun hempty => hchecked (congrArg pauliString hempty)
        simp [ofPaulis, hsome]
      simp only [encode, variant, decode, variant?, hfactors, ok_bind, hmade, admitted_ok]
  | _ => rfl

theorem Channel.decode_encode {c : Channel} (h : c.Writable) (hchecked : c.Checked) :
    Channel.decode c.encode = .ok c := by
  have hnoise : Noise.ofVariantName? c.noise.variantName = some c.noise := by
    cases c.noise <;> rfl
  have hlookup : [(c.noise.parameterName, c.parameter.encode)].lookup c.noise.parameterName =
      some c.parameter.encode := by simp
  have hmade : Channel.make c.noise c.parameter = .ok c := hchecked
  simp only [encode, variant, decode, variant?, required_some, entries?, ok_bind, hnoise, hlookup,
    Scalar.decode_encode h, hmade, admitted_ok]

end Leaves

section Operations

namespace Operation

theorem decode_leaf {d : Document} (name : String) (content : Document)
    (hd : d.variant? = some (name, content)) (hname : modifierFields? name = none) :
    decode d = decodeLeaf name content := by
  rw [decode.eq_def d]
  split
  · rename_i hnone
    cases hnone.symm.trans hd
  · rename_i name' content' hsome
    obtain ⟨rfl, rfl⟩ := Prod.mk.inj (Option.some.inj (hsome.symm.trans hd))
    rw [hname]

theorem decode_modifier {d content w : Document} (name : String) (names : List String)
    {fields : List (String × Document)} (hd : d.variant? = some (name, content))
    (hname : modifierFields? name = some names) (hfields : content.fields? names = some fields)
    (hw : fields.lookup "wrapped" = some w) :
    decode d = decodeModifier name content fields (some (decode w)) := by
  rw [decode.eq_def d]
  split
  · rename_i hnone
    cases hnone.symm.trans hd
  · rename_i name' content' hsome
    obtain ⟨rfl, rfl⟩ := Prod.mk.inj (Option.some.inj (hsome.symm.trans hd))
    split
    · rename_i hnone
      cases hnone.symm.trans hname
    · rename_i names' hnames'
      obtain rfl := Option.some.inj (hnames'.symm.trans hname)
      split
      · rename_i hnone
        cases hnone.symm.trans hfields
      · rename_i fields' hfields'
        obtain rfl := Option.some.inj (hfields'.symm.trans hfields)
        split
        · rename_i hnone
          cases hnone.symm.trans hw
        · rename_i w' hw'
          obtain rfl := Option.some.inj (hw'.symm.trans hw)
          rfl

/-- A parameter beside the wrapped operation. -/
theorem readWrapped_pair {α : Type} (name : String) {read : Document → Decoded α}
    {content d : Document} {a : α} {w : Operation} (ha : read content = .ok a) :
    readWrapped name read [(name, content), ("wrapped", d)] (some (.ok w)) = .ok (a, w) := by
  simp [readWrapped, readOptional, ha, ok_bind]

theorem decode_encode {op : Operation} (h : op.Writable) (hchecked : op.Checked) :
    decode op.encode = .ok op := by
  obtain ⟨hmodifies, hparts⟩ := hchecked
  induction op with
  | gate g =>
      rw [encode, decode_leaf "Gate" g.encode rfl rfl]
      simp only [decodeLeaf, Gate.decode_encode h]
      rfl
  | custom g =>
      rw [encode, decode_leaf "Custom" g.encode rfl rfl]
      simp only [decodeLeaf, CustomGate.decode_encode h hparts]
      rfl
  | controlled n w ih =>
      obtain ⟨hindex, hw⟩ := h
      obtain ⟨hn, hunitary, hmodifies⟩ := hmodifies
      have hread := readWrapped_pair "num_controls" (d := w.encode) (w := w)
        (toIndex_ofIndex hindex)
      have hnode : controlNode n w = .ok (controlled n w) :=
        controlNode_eq_ok_iff.2 ⟨hn, hunitary, rfl⟩
      rw [encode, decode_modifier "Control" ["num_controls", "wrapped"] rfl rfl rfl rfl,
        ih hw hmodifies hparts]
      simp only [decodeModifier, hread, ok_bind, checkLength, hnode, admitted_ok]
  | powered e w ih =>
      obtain ⟨he, hw⟩ := h
      obtain ⟨hunitary, hmodifies⟩ := hmodifies
      have hread := readWrapped_pair "exponent" (d := w.encode) (w := w)
        (Exponent.decode_encode he hparts.1)
      have hnode : powerNode e w = .ok (powered e w) := powerNode_eq_ok_iff.2 ⟨hunitary, rfl⟩
      rw [encode, decode_modifier "Power" ["exponent", "wrapped"] rfl rfl rfl rfl,
        ih hw hmodifies hparts.2]
      simp only [decodeModifier, hread, ok_bind, checkLength, hnode, admitted_ok]
  | inverted w ih =>
      obtain ⟨hunitary, hmodifies⟩ := hmodifies
      have hnode : inverseNode w = .ok (inverted w) := inverseNode_eq_ok_iff.2 ⟨hunitary, rfl⟩
      rw [encode, decode_modifier "Inverse" ["wrapped"] rfl rfl rfl rfl, ih h hmodifies hparts]
      simp only [decodeModifier, Option.getD_some, ok_bind, checkLength, hnode, admitted_ok]
  | repeated n w ih =>
      obtain ⟨hindex, hw⟩ := h
      obtain ⟨hn, hunitary, hmodifies⟩ := hmodifies
      have hread := readWrapped_pair "repeats" (d := w.encode) (w := w) (toIndex_ofIndex hindex)
      have hnode : repeatNode n w = .ok (repeated n w) :=
        repeatNode_eq_ok_iff.2 ⟨hn, hunitary, rfl⟩
      rw [encode, decode_modifier "Parallel" ["repeats", "wrapped"] rfl rfl rfl rfl,
        ih hw hmodifies hparts]
      simp only [decodeModifier, hread, ok_bind, checkLength, hnode, admitted_ok]
  | measure => exact decode_leaf "Measure" null rfl rfl
  | reset => exact decode_leaf "Reset" null rfl rfl
  | barrier width =>
      rw [encode, decode_leaf "Barrier" (.ofIndex width) rfl rfl]
      simp only [decodeLeaf, toIndex_ofIndex h]
      rfl
  | channel c =>
      rw [encode, decode_leaf "Channel" c.encode rfl rfl]
      simp only [decodeLeaf, Channel.decode_encode h hparts]
      rfl
  | observable o =>
      rw [encode, decode_leaf "Operator" o.encode rfl rfl]
      simp only [decodeLeaf, Observable.decode_encode hparts]
      rfl
  | expectation o =>
      rw [encode, decode_leaf "ExpectationValue" (record [("operator", o.encode)]) rfl rfl]
      simp only [decodeLeaf, fields?, required_some, ok_bind, List.lookup_cons, BEq.rfl,
        Observable.decode_encode hparts]
      rfl

end Operation

end Operations

section Circuits

theorem Instruction.decode_encode {inst : Instruction} (h : inst.Writable)
    (hchecked : inst.ValidWith Operation.Checked) :
    Instruction.decode inst.encode = .ok inst := by
  have hindices := h.indices
  simp only [List.forall_mem_append] at hindices
  obtain ⟨⟨hqubits, hbits⟩, hzvars⟩ := hindices
  have hread : readEntries {} InstructionParts.read
      [("bits", .ofIndices inst.bits), ("operation", inst.operation.encode),
        ("qubits", .ofIndices inst.qubits), ("zvars", .ofIndices inst.zvars)] =
      .ok ⟨some inst.operation, some inst.qubits, some inst.bits, some inst.zvars⟩ := by
    simp only [readEntries, List.foldlM_cons, InstructionParts.read,
      Operation.decode_encode h.operation hchecked.operation, toListOf_ofIndices hqubits,
      toListOf_ofIndices hbits, toListOf_ofIndices hzvars]
    rfl
  have hmade : Instruction.make inst.operation inst.qubits inst.bits inst.zvars = .ok inst :=
    Instruction.make_eq_ok_iff.2 ⟨rfl, hchecked.valid⟩
  simp only [decode, encode, fields?, required_some, ok_bind, hread, checkLength, hmade,
    admitted_ok]

theorem Circuit.decode_encode {c : Circuit} (h : c.Writable)
    (hchecked : c.AllWith Operation.Checked) : Circuit.decode c.encode = .ok c := by
  have hinstructions : (list (c.instructions.map Instruction.encode)).toListOf
      Instruction.decode = .ok c.instructions :=
    toListOf_map fun inst hinst => Instruction.decode_encode (h inst hinst) (hchecked inst hinst)
  have hread : readEntries {} CircuitParts.read
      [("instructions", list (c.instructions.map Instruction.encode)), ("name", string c.name)] =
      .ok ⟨some c.name, some c.instructions⟩ := by
    simp only [readEntries, List.foldlM_cons, CircuitParts.read, hinstructions, toText]
    rfl
  simp only [decode, encode, fields?, required_some, ok_bind, hread, checkLength]
  rfl

end Circuits

end GateAlgebra
