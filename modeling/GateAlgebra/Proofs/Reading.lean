import GateAlgebra.Document.Decode
import GateAlgebra.Proofs.Instruction
import GateAlgebra.Proofs.Outcomes
/-!
What reading a document gives.  Every part of the value was read from some part of the
document, and the value passed the checks of its constructor.
-/

namespace GateAlgebra

open Document

theorem required_eq_ok_iff {α : Type} {value : Option α} {a : α} :
    required value = .ok a ↔ value = some a := by
  cases value <;> simp [required, malformed]

theorem admitted_eq_ok_iff {α : Type} {value : Except CircuitError α} {a : α} :
    admitted value = .ok a ↔ value = .ok a := by
  cases value <;> simp [admitted, Except.mapError]

namespace Document

/-- A document in another one.  The nothing that belongs to a name alone is in every
document. -/
inductive Inside : Document → Document → Prop where
  | refl (d : Document) : Inside d d
  | nothing (d : Document) : Inside null d
  | item {part item : Document} {items : List Document} (hitem : item ∈ items)
      (h : Inside part item) : Inside part (list items)
  | entry {part : Document} {entry : String × Document} {entries : List (String × Document)}
      (hentry : entry ∈ entries) (h : Inside part entry.2) : Inside part (record entries)

/-- A value is read from some part of the document. -/
def Holds {α : Type} (d : Document) (read : Document → Decoded α) (a : α) : Prop :=
  ∃ part : Document, part.Inside d ∧ read part = .ok a

variable {α β : Type} {d part : Document} {read : Document → Decoded α} {a : α}

section Inside

theorem Inside.trans {inner : Document} (hinner : inner.Inside part) (h : part.Inside d) :
    inner.Inside d := by
  induction h with
  | refl => exact hinner
  | nothing d =>
      cases hinner with
      | refl | nothing => exact .nothing d
  | item hitem _ ih => exact .item hitem (ih hinner)
  | entry hentry _ ih => exact .entry hentry (ih hinner)

theorem inside_variant {name : String} (h : d.variant? = some (name, part)) :
    part.Inside d := by
  unfold variant? at h
  split at h
  · obtain ⟨-, rfl⟩ := Prod.mk.inj (Option.some.inj h)
    exact .nothing _
  · obtain ⟨-, rfl⟩ := Prod.mk.inj (Option.some.inj h)
    exact .entry List.mem_cons_self (.refl _)
  · cases h

theorem inside_field {names : List String} {fields : List (String × Document)}
    (h : d.fields? names = some fields) {field : String × Document} (hfield : field ∈ fields) :
    field.2.Inside d := by
  unfold fields? at h
  split at h
  · obtain rfl := Option.some.inj h
    exact .entry hfield (.refl _)
  · obtain rfl := Option.some.inj h
    exact .item (List.of_mem_zip hfield).2 (.refl _)
  · cases h

theorem inside_lookup {names : List String} {fields : List (String × Document)}
    (h : d.fields? names = some fields) {name : String} (hname : fields.lookup name = some part) :
    part.Inside d := by
  obtain ⟨known, hknown⟩ := mem_of_lookup hname
  exact inside_field h hknown

end Inside

section Holds

theorem holds_of_read (h : read d = .ok a) : d.Holds read a :=
  ⟨d, .refl d, h⟩

theorem Holds.of_inside (h : part.Holds read a) (hpart : part.Inside d) : d.Holds read a := by
  obtain ⟨inner, hinner, hread⟩ := h
  exact ⟨inner, hinner.trans hpart, hread⟩

/-- What whatever is read has, a value has that is read from some part. -/
theorem Holds.imp {P : α → Prop} (h : d.Holds read a)
    (hread : ∀ part a, read part = .ok a → P a) : P a := by
  obtain ⟨part, -, hpart⟩ := h
  exact hread part a hpart

theorem holds_of_mem_toListOf {values : List α} (h : d.toListOf read = .ok values)
    (ha : a ∈ values) : d.Holds read a := by
  unfold toListOf at h
  split at h
  · obtain ⟨item, hitem, hread⟩ := exists_of_mem_mapM h ha
    exact ⟨item, .item hitem (.refl item), hread⟩
  · cases h

/-- Every step leaves a part as it is or reads it from its entry, so the part was read from
one of them. -/
theorem holds_of_readEntries {start last : α} {step : α → String → Document → Decoded α}
    (field : α → Option β) (readField : Document → Decoded β)
    (hstep : ∀ parts name entry next, step parts name entry = .ok next →
      field next = field parts ∨ ∃ b, readField entry = .ok b ∧ field next = some b)
    (hstart : field start = none) {names : List String} {fields : List (String × Document)}
    (hfields : d.fields? names = some fields) (h : readEntries start step fields = .ok last)
    {b : β} (hb : field last = some b) : d.Holds readField b := by
  refine foldlM_keeps_of_mem (P := fun parts => ∀ b, field parts = some b → d.Holds readField b)
    (fun entry hentry parts next hparts hnext b hb => ?_) (by simp [hstart]) h b hb
  rcases hstep parts entry.1 entry.2 next hnext with hsame | ⟨b', hb', hsome⟩
  · exact hparts b (hsame ▸ hb)
  · obtain rfl := Option.some.inj (hsome.symm.trans hb)
    exact ⟨entry.2, inside_field hfields hentry, hb'⟩

end Holds

end Document

section Numbers

variable {d : Document}

theorem ComplexFloat.holds_of_decode {z : ComplexFloat} (h : ComplexFloat.decode d = .ok z) :
    d.Holds toFloat z.re ∧ d.Holds toFloat z.im := by
  unfold ComplexFloat.decode at h
  split at h
  · rename_i re im
    simp only [bind_eq_ok_iff] at h
    obtain ⟨x, hx, y, hy, hz⟩ := h
    obtain rfl := Except.ok.inj hz
    exact ⟨⟨re, .item (by simp) (.refl re), hx⟩, ⟨im, .item (by simp) (.refl im), hy⟩⟩
  · cases h

/-- What a parameter consists of. -/
theorem Scalar.holds_of_decode {s : Scalar} (h : Scalar.decode d = .ok s) :
    (∃ z, s = .concrete z ∧ d.Holds ComplexFloat.decode z) ∨
      ∃ e, s = .symbolic e ∧ d.Holds Expression.decode e := by
  unfold Scalar.decode at h
  split at h
  · rename_i value
    obtain ⟨z, hz, hs⟩ := bind_eq_ok_iff.1 h
    obtain rfl := Except.ok.inj hs
    exact Or.inl ⟨z, rfl, value, .entry List.mem_cons_self (.refl value), hz⟩
  · rename_i expression
    obtain ⟨e, he, hs⟩ := bind_eq_ok_iff.1 h
    obtain rfl := Except.ok.inj hs
    exact Or.inr ⟨e, rfl, expression, .entry List.mem_cons_self (.refl expression), he⟩
  · cases h

end Numbers

section Leaves

variable {d : Document}

theorem Gate.holds_of_decode {g : Gate} (h : Gate.decode d = .ok g) :
    ∀ s ∈ g.parameters, d.Holds Scalar.decode s := by
  have hangle : ∀ {name content} {angle : Scalar}, d.variant? = some (name, content) →
      Scalar.decode content = .ok angle → ∀ s ∈ [angle], d.Holds Scalar.decode s := by
    intro name content angle hd hcontent s hs
    obtain rfl := List.mem_singleton.1 hs
    exact (holds_of_read hcontent).of_inside (inside_variant hd)
  unfold Gate.decode at h
  split at h <;> rename_i hd <;>
    simp only [bind_eq_ok_iff, pure, Except.pure, Except.ok.injEq, malformed, reduceCtorEq] at h
  case h_18 theta phi lambda =>
    obtain ⟨a, ha, b, hb, c, hc, rfl⟩ := h
    intro s hs
    have hitem : ∀ {item}, item ∈ [theta, phi, lambda] → item.Inside d := fun hitem =>
      (Inside.item hitem (.refl _)).trans (inside_variant hd)
    simp only [Gate.parameters, List.mem_cons, List.not_mem_nil, or_false] at hs
    rcases hs with rfl | rfl | rfl
    · exact ⟨theta, hitem (by simp), ha⟩
    · exact ⟨phi, hitem (by simp), hb⟩
    · exact ⟨lambda, hitem (by simp), hc⟩
  all_goals first
    | obtain ⟨angle, hcontent, rfl⟩ := h
      exact hangle hd hcontent
    | obtain rfl := h
      exact List.forall_mem_nil _

/-- A field at a time. -/
theorem CustomGateParts.read_cases {parts next : CustomGateParts} {name : String}
    (h : parts.read name d = .ok next) :
    (∃ title, d.toText = .ok title ∧ next = { parts with name := some title }) ∨
    (∃ n, d.toIndex = .ok n ∧ next = { parts with numQubits := some n }) ∨
    (∃ params, d.toListOf Scalar.decode = .ok params ∧
      next = { parts with params := some params }) ∨
    (∃ entries, d.toListOf ComplexFloat.decode = .ok entries ∧
      next = { parts with entries := some entries }) ∨
    next = parts := by
  unfold CustomGateParts.read at h
  split at h <;>
    simp only [bind_eq_ok_iff, pure, Except.pure, Except.ok.injEq, eq_comm (b := next)] at h <;>
    grind

theorem CustomGate.eq_of_ofEntries {name : String} {n : Nat} {entries : Array ComplexFloat}
    {g : CustomGate} (h : CustomGate.ofEntries name n entries = .ok g) :
    g = ⟨name, n, [], entries⟩ := by
  unfold CustomGate.ofEntries at h
  grind

/-- The matrix is checked again, and the parameters are not. -/
theorem CustomGate.holds_of_decode {g : CustomGate} (h : CustomGate.decode d = .ok g) :
    CustomGate.ofEntries g.name g.numQubits g.entries = .ok (g.withParams []) ∧
      (∀ s ∈ g.params, d.Holds Scalar.decode s) ∧
      ∀ z ∈ g.entries, d.Holds ComplexFloat.decode z := by
  unfold CustomGate.decode at h
  simp only [bind_eq_ok_iff, required_eq_ok_iff, admitted_eq_ok_iff] at h
  obtain ⟨fields, hfields, parts, hparts, title, -, n, -, params, hparams, entries, hentries, -, -,
    made, hmade, hg⟩ := h
  obtain rfl := Except.ok.inj hg
  obtain rfl := CustomGate.eq_of_ofEntries hmade
  refine ⟨hmade, fun s hs => ?_, fun z hz => ?_⟩
  · obtain ⟨part, hpart, hread⟩ := holds_of_readEntries CustomGateParts.params
      (toListOf Scalar.decode)
      (fun parts name entry next h => by
        rcases CustomGateParts.read_cases h with h | h | h | h | h <;> grind)
      rfl hfields hparts hparams
    exact (holds_of_mem_toListOf hread hs).of_inside hpart
  · obtain ⟨part, hpart, hread⟩ := holds_of_readEntries CustomGateParts.entries
      (toListOf ComplexFloat.decode)
      (fun parts name entry next h => by
        rcases CustomGateParts.read_cases h with h | h | h | h | h <;> grind)
      rfl hfields hparts hentries
    exact (holds_of_mem_toListOf hread (List.mem_toArray.1 hz)).of_inside hpart

/-- Both kinds of exponents passed the checks of their constructors. -/
theorem Exponent.cases_of_decode {e : Exponent} (h : Exponent.decode d = .ok e) :
    (∃ numer denom : Int, Exponent.ofFraction numer denom = .ok e) ∨
      ∃ value : Float, Exponent.ofFloat value = .ok e := by
  unfold Exponent.decode at h
  split at h
  · simp only [bind_eq_ok_iff] at h
    obtain ⟨n, -, m, -, h⟩ := h
    split at h
    · cases h
    · exact Or.inl ⟨n, m, admitted_eq_ok_iff.1 h⟩
  · obtain ⟨value, -, h⟩ := bind_eq_ok_iff.1 h
    exact Or.inr ⟨value, admitted_eq_ok_iff.1 h⟩
  · cases h

/-- A Pauli string that is read is not empty. -/
theorem Observable.cases_of_decode {o : Observable} (h : Observable.decode d = .ok o) :
    (∃ factors, Observable.ofPaulis factors = .ok o) ∨ ∀ factors, o ≠ .pauliString factors := by
  unfold Observable.decode at h
  split at h
  case h_5 =>
    obtain ⟨factors, -, h⟩ := bind_eq_ok_iff.1 h
    exact Or.inl ⟨factors, admitted_eq_ok_iff.1 h⟩
  case h_6 => cases h
  all_goals
    obtain rfl := Except.ok.inj h
    exact Or.inr nofun

theorem Channel.holds_of_decode {c : Channel} (h : Channel.decode d = .ok c) :
    Channel.make c.noise c.parameter = .ok c ∧ d.Holds Scalar.decode c.parameter := by
  unfold Channel.decode at h
  simp only [bind_eq_ok_iff, required_eq_ok_iff, admitted_eq_ok_iff] at h
  obtain ⟨⟨name, content⟩, hd, noise, -, entries, hentries, parameter, hparameter, s, hs,
    hmade⟩ := h
  obtain ⟨-, -, hc⟩ := bind_eq_ok_iff.1 hmade
  obtain rfl := Except.ok.inj hc
  obtain ⟨known, hknown⟩ := mem_of_lookup hparameter
  have hcontent : parameter.Inside content := by
    cases content with
    | record fields =>
        obtain rfl := Option.some.inj hentries
        exact .entry hknown (.refl parameter)
    | _ => cases hentries
  exact ⟨hmade, parameter, hcontent.trans (inside_variant hd), hs⟩

end Leaves

section Operations

variable {d part : Document} {op : Operation}

namespace Operation

/-- An operation all of whose parts are read from parts of a document. -/
inductive Read (d : Document) : Operation → Prop where
  | gate {g : Gate} (h : d.Holds Gate.decode g) : Read d (gate g)
  | custom {g : CustomGate} (h : d.Holds CustomGate.decode g) : Read d (custom g)
  | controlled {n : Nat} {w : Operation} (hn : 0 < n) (hindex : d.Holds toIndex n)
      (hunitary : w.isUnitary = true) (hw : Read d w) : Read d (controlled n w)
  | powered {e : Exponent} {w : Operation} (he : d.Holds Exponent.decode e)
      (hunitary : w.isUnitary = true) (hw : Read d w) : Read d (powered e w)
  | inverted {w : Operation} (hunitary : w.isUnitary = true) (hw : Read d w) :
      Read d (inverted w)
  | repeated {n : Nat} {w : Operation} (hn : 0 < n) (hindex : d.Holds toIndex n)
      (hunitary : w.isUnitary = true) (hw : Read d w) : Read d (repeated n w)
  | measure : Read d measure
  | reset : Read d reset
  | barrier {width : Nat} (h : d.Holds toIndex width) : Read d (barrier width)
  | channel {c : Channel} (h : d.Holds Channel.decode c) : Read d (channel c)
  | observable {o : Observable} (h : d.Holds Observable.decode o) : Read d (observable o)
  | expectation {o : Observable} (h : d.Holds Observable.decode o) : Read d (expectation o)

theorem Read.of_inside (h : Read part op) (hpart : part.Inside d) : Read d op := by
  induction h with
  | gate h => exact .gate (h.of_inside hpart)
  | custom h => exact .custom (h.of_inside hpart)
  | controlled hn hindex hunitary _ ih => exact .controlled hn (hindex.of_inside hpart) hunitary ih
  | powered he hunitary _ ih => exact .powered (he.of_inside hpart) hunitary ih
  | inverted hunitary _ ih => exact .inverted hunitary ih
  | repeated hn hindex hunitary _ ih => exact .repeated hn (hindex.of_inside hpart) hunitary ih
  | measure => exact .measure
  | reset => exact .reset
  | barrier h => exact .barrier (h.of_inside hpart)
  | channel h => exact .channel (h.of_inside hpart)
  | observable h => exact .observable (h.of_inside hpart)
  | expectation h => exact .expectation (h.of_inside hpart)

theorem read_of_decodeLeaf {name : String} (h : decodeLeaf name d = .ok op) : Read d op := by
  unfold decodeLeaf at h
  split at h
  case h_8 =>
    simp only [bind_eq_ok_iff, required_eq_ok_iff] at h
    obtain ⟨fields, hfields, content, hcontent, o, ho, -, -, hop⟩ := h
    obtain rfl := Except.ok.inj hop
    exact .expectation ((holds_of_read ho).of_inside (inside_lookup hfields hcontent))
  all_goals simp only [bind_eq_ok_iff, pure, Except.pure, Except.ok.injEq, malformed,
    reduceCtorEq] at h
  · obtain ⟨g, hg, rfl⟩ := h
    exact .gate (holds_of_read hg)
  · obtain ⟨g, hg, rfl⟩ := h
    exact .custom (holds_of_read hg)
  · obtain rfl := h
    exact .measure
  · obtain rfl := h
    exact .reset
  · obtain ⟨width, hwidth, rfl⟩ := h
    exact .barrier (holds_of_read hwidth)
  · obtain ⟨c, hc, rfl⟩ := h
    exact .channel (holds_of_read hc)
  · obtain ⟨o, ho, rfl⟩ := h
    exact .observable (holds_of_read ho)

theorem holds_of_readWrapped {α : Type} {name : String} {read : Document → Decoded α}
    {names : List String} {fields : List (String × Document)}
    (hfields : d.fields? names = some fields) {wrapped : Option (Decoded Operation)} {a : α}
    {w : Operation} (h : readWrapped name read fields wrapped = .ok (a, w)) :
    d.Holds read a ∧ wrapped.getD malformed = .ok w := by
  unfold readWrapped at h
  simp only [bind_eq_ok_iff, required_eq_ok_iff] at h
  obtain ⟨parameter, hparameter, w', hw, a', ha', hpair⟩ := h
  obtain ⟨rfl, rfl⟩ := Prod.mk.inj (Except.ok.inj hpair)
  refine ⟨?_, hw⟩
  obtain rfl := ha'
  unfold readOptional at hparameter
  split at hparameter
  · rename_i content hcontent
    obtain ⟨b, hb, hsome⟩ := map_eq_ok_iff.1 hparameter
    obtain rfl := Option.some.inj hsome
    exact (holds_of_read hb).of_inside (inside_lookup hfields hcontent)
  · cases hparameter

section Nodes

variable {w : Operation} {n : Nat} {e : Exponent}

theorem controlNode_eq_ok_iff :
    controlNode n w = .ok op ↔ 0 < n ∧ w.isUnitary = true ∧ controlled n w = op := by
  unfold controlNode
  split <;> grind

theorem powerNode_eq_ok_iff :
    powerNode e w = .ok op ↔ w.isUnitary = true ∧ powered e w = op := by
  unfold powerNode
  split <;> grind

theorem inverseNode_eq_ok_iff :
    inverseNode w = .ok op ↔ w.isUnitary = true ∧ inverted w = op := by
  unfold inverseNode
  split <;> grind

theorem repeatNode_eq_ok_iff :
    repeatNode n w = .ok op ↔ 0 < n ∧ w.isUnitary = true ∧ repeated n w = op := by
  unfold repeatNode
  split <;> grind

end Nodes

theorem read_of_decodeModifier {name : String} {content : Document} {names : List String}
    {fields : List (String × Document)} (hfields : content.fields? names = some fields)
    {wrapped : Option (Decoded Operation)}
    (h : decodeModifier name content fields wrapped = .ok op)
    (hwrapped : ∀ w, wrapped.getD malformed = .ok w → Read content w) : Read content op := by
  unfold decodeModifier at h
  split at h <;> simp only [bind_eq_ok_iff, admitted_eq_ok_iff, malformed, reduceCtorEq] at h
  · obtain ⟨⟨n, w⟩, hread, -, -, hnode⟩ := h
    obtain ⟨hindex, hw⟩ := holds_of_readWrapped hfields hread
    obtain ⟨hn, hunitary, rfl⟩ := controlNode_eq_ok_iff.1 hnode
    exact .controlled hn hindex hunitary (hwrapped w hw)
  · obtain ⟨⟨e, w⟩, hread, -, -, hnode⟩ := h
    obtain ⟨he, hw⟩ := holds_of_readWrapped hfields hread
    obtain ⟨hunitary, rfl⟩ := powerNode_eq_ok_iff.1 hnode
    exact .powered he hunitary (hwrapped w hw)
  · obtain ⟨w, hw, -, -, hnode⟩ := h
    obtain ⟨hunitary, rfl⟩ := inverseNode_eq_ok_iff.1 hnode
    exact .inverted hunitary (hwrapped w hw)
  · obtain ⟨⟨n, w⟩, hread, -, -, hnode⟩ := h
    obtain ⟨hindex, hw⟩ := holds_of_readWrapped hfields hread
    obtain ⟨hn, hunitary, rfl⟩ := repeatNode_eq_ok_iff.1 hnode
    exact .repeated hn hindex hunitary (hwrapped w hw)

/-- Whatever is decoded consists of what is read from the document. -/
theorem read_of_decode (h : decode d = .ok op) : Read d op := by
  -- What a modifier wraps is decoded from a smaller document.
  induction hsize : sizeOf d using Nat.strongRecOn generalizing d op with
  | ind size ih =>
      unfold decode at h
      split at h
      · cases h
      · rename_i name content hd
        refine Read.of_inside ?_ (inside_variant hd)
        split at h
        · exact read_of_decodeLeaf h
        · split at h
          · cases h
          · rename_i fields hfields
            split at h
            · exact read_of_decodeModifier hfields h fun w hw => by cases hw
            · rename_i document hdocument
              have hlt := sizeOf_wrapped_lt hd hfields hdocument
              exact read_of_decodeModifier hfields h fun w hw =>
                (ih _ (hsize ▸ hlt) hw rfl).of_inside (inside_lookup hfields hdocument)

end Operation

end Operations

section Circuits

variable {d : Document}

/-- A field at a time. -/
theorem InstructionParts.read_cases {parts next : InstructionParts} {name : String}
    (h : parts.read name d = .ok next) :
    (∃ op, Operation.decode d = .ok op ∧ next = { parts with operation := some op }) ∨
    (∃ qubits, d.toListOf toIndex = .ok qubits ∧ next = { parts with qubits := some qubits }) ∨
    (∃ bits, d.toListOf toIndex = .ok bits ∧ next = { parts with bits := some bits }) ∨
    (∃ zvars, d.toListOf toIndex = .ok zvars ∧ next = { parts with zvars := some zvars }) ∨
    next = parts := by
  unfold InstructionParts.read at h
  split at h <;>
    simp only [bind_eq_ok_iff, pure, Except.pure, Except.ok.injEq, eq_comm (b := next)] at h <;>
    grind

/-- The targets are checked when everything has been read. -/
theorem Instruction.holds_of_decode {inst : Instruction} (h : Instruction.decode d = .ok inst) :
    inst.Valid ∧ d.Holds Operation.decode inst.operation ∧
      ∀ i ∈ inst.qubits ++ inst.bits ++ inst.zvars, d.Holds toIndex i := by
  unfold Instruction.decode at h
  simp only [bind_eq_ok_iff, required_eq_ok_iff, admitted_eq_ok_iff] at h
  obtain ⟨fields, hfields, parts, hparts, op, hop, qubits, hqubits, bits, hbits, zvars, hzvars,
    -, -, hmade⟩ := h
  obtain ⟨rfl, hvalid⟩ := Instruction.make_eq_ok_iff.1 hmade
  have hoperation : d.Holds Operation.decode op := by
    refine holds_of_readEntries InstructionParts.operation Operation.decode
      (fun parts name entry next h => ?_) rfl hfields hparts hop
    rcases InstructionParts.read_cases h with h | h | h | h | h <;> grind
  -- The three lists of targets are read alike.
  have htargets : ∀ field ∈ [InstructionParts.qubits, InstructionParts.bits,
      InstructionParts.zvars], ∀ {targets}, field parts = some targets →
      ∀ i ∈ targets, d.Holds toIndex i := by
    intro field hfield targets htargets i hi
    obtain ⟨part, hpart, hread⟩ := holds_of_readEntries field (toListOf toIndex)
      (fun parts name entry next h => by
        simp only [List.mem_cons, List.not_mem_nil, or_false] at hfield
        rcases hfield with rfl | rfl | rfl <;>
          rcases InstructionParts.read_cases h with h | h | h | h | h <;> grind)
      (by
        simp only [List.mem_cons, List.not_mem_nil, or_false] at hfield
        rcases hfield with rfl | rfl | rfl <;> rfl)
      hfields hparts htargets
    exact (holds_of_mem_toListOf hread hi).of_inside hpart
  refine ⟨hvalid, hoperation, fun i hi => ?_⟩
  simp only [List.append_assoc, List.mem_append] at hi
  rcases hi with hi | hi | hi
  · exact htargets _ (by simp) hqubits i hi
  · exact htargets _ (by simp) hbits i hi
  · exact htargets _ (by simp) hzvars i hi

/-- A field at a time. -/
theorem CircuitParts.read_cases {parts next : CircuitParts} {name : String}
    (h : parts.read name d = .ok next) :
    (∃ title, d.toText = .ok title ∧ next = { parts with name := some title }) ∨
    (∃ list, d.toListOf Instruction.decode = .ok list ∧
      next = { parts with instructions := some list }) ∨
    next = parts := by
  unfold CircuitParts.read at h
  split at h <;>
    simp only [bind_eq_ok_iff, pure, Except.pure, Except.ok.injEq, eq_comm (b := next)] at h <;>
    grind

theorem Circuit.holds_of_decode {c : Circuit} (h : Circuit.decode d = .ok c) :
    ∀ inst ∈ c.instructions, d.Holds Instruction.decode inst := by
  unfold Circuit.decode at h
  simp only [bind_eq_ok_iff, required_eq_ok_iff] at h
  obtain ⟨fields, hfields, parts, hparts, title, -, list, hlist, -, -, hc⟩ := h
  obtain rfl := Except.ok.inj hc
  intro inst hinst
  obtain ⟨part, hpart, hread⟩ := holds_of_readEntries CircuitParts.instructions
    (toListOf Instruction.decode)
    (fun parts name entry next h => by
      rcases CircuitParts.read_cases h with h | h | h <;> grind)
    rfl hfields hparts hlist
  exact (holds_of_mem_toListOf hread hinst).of_inside hpart

end Circuits

end GateAlgebra
