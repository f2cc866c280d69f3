import GateAlgebra.Document.Encode
/-!
Reading values from documents.  The fields of a structure are read in the order
in which the document has them, unknown ones are passed over, and the first
failure decides; only then is a missing field noticed.  A value is checked by
the library as soon as its fields are read, so the innermost fault wins.
Modifiers are not simplified.
-/

namespace GateAlgebra

open Document

def ComplexFloat.decode : Document → Decoded ComplexFloat
  | list [re, im] => do return ⟨← re.toFloat, ← im.toFloat⟩
  | _ => malformed

def Expression.decode : Document → Decoded Expression
  | record [("Constant", value)] => do return constant (← ComplexFloat.decode value)
  | record [("Symbol", string name)] => .ok (symbol name)
  | record [("Neg", operand)] => do return neg (← decode operand)
  | record [("Add", list [left, right])] => do
      return add (← decode left) (← decode right)
  | record [("Sub", list [left, right])] => do
      return sub (← decode left) (← decode right)
  | record [("Mul", list [left, right])] => do
      return mul (← decode left) (← decode right)
  | record [("Div", list [left, right])] => do
      return div (← decode left) (← decode right)
  | _ => malformed

def Scalar.decode : Document → Decoded Scalar
  | record [("Concrete", value)] => do return concrete (← ComplexFloat.decode value)
  | record [("Symbolic", e)] => do return symbolic (← Expression.decode e)
  | _ => malformed

def Gate.decode (d : Document) : Decoded Gate :=
  match d.variant? with
  | some ("I", null) => .ok i
  | some ("X", null) => .ok x
  | some ("Y", null) => .ok y
  | some ("Z", null) => .ok z
  | some ("H", null) => .ok h
  | some ("S", null) => .ok s
  | some ("T", null) => .ok t
  | some ("SX", null) => .ok sx
  | some ("Swap", null) => .ok swap
  | some ("ISwap", null) => .ok iswap
  | some ("Rx", angle) => do return rx (← Scalar.decode angle)
  | some ("Ry", angle) => do return ry (← Scalar.decode angle)
  | some ("Rz", angle) => do return rz (← Scalar.decode angle)
  | some ("P", angle) => do return p (← Scalar.decode angle)
  | some ("RXX", angle) => do return rxx (← Scalar.decode angle)
  | some ("RYY", angle) => do return ryy (← Scalar.decode angle)
  | some ("RZZ", angle) => do return rzz (← Scalar.decode angle)
  | some ("U", list [theta, phi, lambda]) => do
      return u (← Scalar.decode theta) (← Scalar.decode phi) (← Scalar.decode lambda)
  | _ => malformed

/-- The fields of a custom gate as far as they are read. -/
structure CustomGateParts where
  name : Option String := none
  numQubits : Option Nat := none
  params : Option (List Scalar) := none
  entries : Option (List ComplexFloat) := none

def CustomGateParts.read (parts : CustomGateParts) (name : String) (d : Document) :
    Decoded CustomGateParts :=
  match name with
  | "name" => do return { parts with name := some (← d.toText) }
  | "num_qubits" => do return { parts with numQubits := some (← d.toIndex) }
  | "params" => do return { parts with params := some (← d.toListOf Scalar.decode) }
  | "matrix" => do
      return { parts with entries := some (← d.toListOf ComplexFloat.decode) }
  | _ => .ok parts

def CustomGate.decode (d : Document) : Decoded CustomGate := do
  let names := ["name", "num_qubits", "params", "matrix"]
  let fields ← required (d.fields? names)
  let parts ← readEntries {} CustomGateParts.read fields
  let name ← required parts.name
  let numQubits ← required parts.numQubits
  let params ← required parts.params
  let entries ← required parts.entries
  d.checkLength names
  let gate ← admitted (CustomGate.ofEntries name numQubits entries.toArray)
  return gate.withParams params

def Exponent.decode (d : Document) : Decoded Exponent :=
  match d.variant? with
  | some ("Rational", list [numer, denom]) => do
      let n ← numer.toWord
      let m ← denom.toWord
      if m = 0 then malformed else admitted (Exponent.ofFraction n m)
  | some ("Real", value) => do admitted (Exponent.ofFloat (← value.toFloat))
  | _ => malformed

def Pauli.decode (d : Document) : Decoded Pauli :=
  match d.variant? with
  | some ("I", null) => .ok i
  | some ("X", null) => .ok x
  | some ("Y", null) => .ok y
  | some ("Z", null) => .ok z
  | _ => malformed

def Observable.decode (d : Document) : Decoded Observable :=
  match d.variant? with
  | some ("Projector0", null) => .ok projector0
  | some ("Projector1", null) => .ok projector1
  | some ("SigmaPlus", null) => .ok sigmaPlus
  | some ("SigmaMinus", null) => .ok sigmaMinus
  | some ("PauliString", factors) => do
      admitted (Observable.ofPaulis (← factors.toListOf Pauli.decode))
  | _ => malformed

def Noise.ofVariantName? : String → Option Noise
  | "Depolarizing" => some .depolarizing
  | "BitFlip" => some .bitFlip
  | "PhaseFlip" => some .phaseFlip
  | "AmplitudeDamping" => some .amplitudeDamping
  | "PhaseDamping" => some .phaseDamping
  | _ => none

def Channel.decode (d : Document) : Decoded Channel := do
  let (name, content) ← required d.variant?
  let noise ← required (Noise.ofVariantName? name)
  let entries ← required content.entries?
  let parameter ← required (entries.lookup noise.parameterName)
  admitted (Channel.make noise (← Scalar.decode parameter))

/-- A value of a field that may be missing. -/
def readOptional {α : Type} (read : Document → Decoded α) :
    Option Document → Decoded (Option α)
  | some d => some <$> read d
  | none => .ok none

/-- Read a parameter and then the wrapped operation of a modifier, with the wrapped
operation already on its way. -/
def readWrapped {α : Type} (name : String) (read : Document → Decoded α)
    (fields : List (String × Document)) (wrapped : Option (Decoded Operation)) :
    Decoded (α × Operation) := do
  let parameter ← readOptional read (fields.lookup name)
  let w ← wrapped.getD malformed
  return (← required parameter, w)

namespace Operation

/-- A control node that is not simplified. -/
def controlNode (n : Nat) (w : Operation) : Except CircuitError Operation :=
  if n = 0 then .error .noControls
  else if w.isUnitary then .ok (controlled n w)
  else .error (.notUnitary w.name)

/-- A power node that is not simplified. -/
def powerNode (e : Exponent) (w : Operation) : Except CircuitError Operation :=
  if w.isUnitary then .ok (powered e w) else .error (.nonExponentiable w.name)

/-- An inverse node that is not simplified. -/
def inverseNode (w : Operation) : Except CircuitError Operation :=
  if w.isUnitary then .ok (inverted w) else .error (.nonInvertible w.name)

/-- A repetition node that is not simplified. -/
def repeatNode (n : Nat) (w : Operation) : Except CircuitError Operation :=
  if n = 0 then .error .noRepeats
  else if w.isUnitary then .ok (repeated n w)
  else .error (.notUnitary w.name)

/-- The field names of a modifier. -/
def modifierFields? : String → Option (List String)
  | "Control" => some ["num_controls", "wrapped"]
  | "Power" => some ["exponent", "wrapped"]
  | "Inverse" => some ["wrapped"]
  | "Parallel" => some ["repeats", "wrapped"]
  | _ => none

/-- Read a modifier from its fields, of which the wrapped operation is already on
its way. -/
def decodeModifier (name : String) (content : Document)
    (fields : List (String × Document)) (wrapped : Option (Decoded Operation)) :
    Decoded Operation := do
  let names := (modifierFields? name).getD []
  match name with
  | "Control" => do
      let (n, w) ← readWrapped "num_controls" toIndex fields wrapped
      content.checkLength names
      admitted (controlNode n w)
  | "Power" => do
      let (e, w) ← readWrapped "exponent" Exponent.decode fields wrapped
      content.checkLength names
      admitted (powerNode e w)
  | "Inverse" => do
      let w ← wrapped.getD malformed
      content.checkLength names
      admitted (inverseNode w)
  | "Parallel" => do
      let (n, w) ← readWrapped "repeats" toIndex fields wrapped
      content.checkLength names
      admitted (repeatNode n w)
  | _ => malformed

/-- Read an operation that wraps nothing. -/
def decodeLeaf (name : String) (content : Document) : Decoded Operation :=
  match name, content with
  | "Gate", _ => do return gate (← Gate.decode content)
  | "Custom", _ => do return custom (← CustomGate.decode content)
  | "Measure", null => .ok measure
  | "Reset", null => .ok reset
  | "Barrier", _ => do return barrier (← content.toIndex)
  | "Channel", _ => do return channel (← Channel.decode content)
  | "Operator", _ => do return observable (← Observable.decode content)
  | "ExpectationValue", _ => do
      let names := ["operator"]
      let fields ← required (content.fields? names)
      let o ← Observable.decode (← required (fields.lookup "operator"))
      content.checkLength names
      return expectation o
  | _, _ => malformed

/-- A field of a variant's content is smaller than the variant. -/
theorem sizeOf_wrapped_lt {d content w : Document} {tag name : String}
    {names : List String} {fields : List (String × Document)}
    (hd : d.variant? = some (tag, content)) (hf : content.fields? names = some fields)
    (hw : fields.lookup name = some w) : sizeOf w < sizeOf d := by
  have hlt := sizeOf_lookup_lt hf hw
  rcases sizeOf_variant_lt hd with rfl | hcontent
  · exact absurd hf (by simp [fields?])
  · omega

/-- Read an operation. -/
def decode (d : Document) : Decoded Operation :=
  match hd : d.variant? with
  | none => malformed
  | some (name, content) =>
      match modifierFields? name with
      | none => decodeLeaf name content
      | some names =>
          match hf : content.fields? names with
          | none => malformed
          | some fields =>
              match hw : fields.lookup "wrapped" with
              | none => decodeModifier name content fields none
              | some w =>
                  have := sizeOf_wrapped_lt hd hf hw
                  decodeModifier name content fields (some (decode w))
termination_by sizeOf d

end Operation

/-- The fields of an instruction as far as they are read. -/
structure InstructionParts where
  operation : Option Operation := none
  qubits : Option (List Nat) := none
  bits : Option (List Nat) := none
  zvars : Option (List Nat) := none

def InstructionParts.read (parts : InstructionParts) (name : String) (d : Document) :
    Decoded InstructionParts :=
  match name with
  | "operation" => do return { parts with operation := some (← Operation.decode d) }
  | "qubits" => do return { parts with qubits := some (← d.toListOf toIndex) }
  | "bits" => do return { parts with bits := some (← d.toListOf toIndex) }
  | "zvars" => do return { parts with zvars := some (← d.toListOf toIndex) }
  | _ => .ok parts

def Instruction.decode (d : Document) : Decoded Instruction := do
  let names := ["operation", "qubits", "bits", "zvars"]
  let fields ← required (d.fields? names)
  let parts ← readEntries {} InstructionParts.read fields
  let operation ← required parts.operation
  let qubits ← required parts.qubits
  let bits ← required parts.bits
  let zvars ← required parts.zvars
  d.checkLength names
  admitted (Instruction.make operation qubits bits zvars)

/-- The fields of a circuit as far as they are read. -/
structure CircuitParts where
  name : Option String := none
  instructions : Option (List Instruction) := none

def CircuitParts.read (parts : CircuitParts) (name : String) (d : Document) :
    Decoded CircuitParts :=
  match name with
  | "name" => do return { parts with name := some (← d.toText) }
  | "instructions" => do
      return { parts with instructions := some (← d.toListOf Instruction.decode) }
  | _ => .ok parts

def Circuit.decode (d : Document) : Decoded Circuit := do
  let names := ["name", "instructions"]
  let fields ← required (d.fields? names)
  let parts ← readEntries {} CircuitParts.read fields
  let name ← required parts.name
  let instructions ← required parts.instructions
  d.checkLength names
  return ⟨name, instructions⟩

def Target.decode : Document → Decoded Target
  | record [("Index", i)] => do return index (← i.toIndex)
  | record [("Register", is)] => do return register (← is.toListOf toIndex)
  | _ => malformed

/-- A field that is given replaces the default. -/
def LoweringConfig.read (config : LoweringConfig) (name : String) (d : Document) :
    Decoded LoweringConfig :=
  match name with
  | "ancillae" => do return { config with ancillae := ← d.toListOf toIndex }
  | "max_passes" => do return { config with maxPasses := ← d.toIndex }
  | _ => .ok config

/-- A list of settings may be shorter than the declared one. -/
def LoweringConfig.decode : Document → Decoded LoweringConfig
  | record entries => readEntries {} LoweringConfig.read entries
  | list items =>
      let names := ["ancillae", "max_passes"]
      if items.length ≤ names.length then
        readEntries {} LoweringConfig.read (names.zip items)
      else malformed
  | _ => malformed

end GateAlgebra
