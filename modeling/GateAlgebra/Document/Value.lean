import GateAlgebra.CircuitError
import GateAlgebra.Word
/-!
Documents: trees of numbers, texts, lists and records in which every value of
the library can be written down.  A variant is a record with one entry, named
after the variant, or just the name where nothing else belongs to it.  A
structure is a record, or a list of its fields in their declared order.
-/

namespace GateAlgebra

/-- A tree of data.  The entries of a record stand in ascending order of their
names, each name once. -/
inductive Document where
  | null
  | bool (value : Bool)
  | integer (value : Int)
  | number (value : Float)
  | string (value : String)
  | list (items : List Document)
  | record (entries : List (String × Document))
deriving Inhabited, BEq

/-- Why a document is not read: it has the wrong shape, or it describes a value
that the library refuses. -/
inductive DecodeError where
  | malformed
  | invalid (error : CircuitError)
deriving BEq

/-- The outcome of reading a document. -/
abbrev Decoded (α : Type) := Except DecodeError α

/-- The wrong shape. -/
def malformed {α : Type} : Decoded α :=
  .error .malformed

/-- Refuse what the library refuses. -/
def admitted {α : Type} (result : Except CircuitError α) : Decoded α :=
  result.mapError .invalid

/-- A value that has to be there. -/
def required {α : Type} : Option α → Decoded α
  | some value => .ok value
  | none => malformed

namespace Document

/-- A name alone is read as a variant with nothing in it. -/
def variant? : Document → Option (String × Document)
  | string name => some (name, null)
  | record [(name, content)] => some (name, content)
  | _ => none

/-- The fields of a structure with the names they are read under: the entries of
a record, or the items of a list under the declared names. -/
def fields? (names : List String) : Document → Option (List (String × Document))
  | record entries => some entries
  | list items => some (names.zip items)
  | _ => none

/-- A list must not be longer than the declared names.  This is noticed after the
fields are read. -/
def checkLength (names : List String) : Document → Decoded Unit
  | list items => if items.length ≤ names.length then .ok () else malformed
  | _ => .ok ()

/-- The entries of a record. -/
def entries? : Document → Option (List (String × Document))
  | record entries => some entries
  | _ => none

theorem sizeOf_lt_of_mem_entries {entries : List (String × Document)}
    {entry : String × Document} (h : entry ∈ entries) :
    sizeOf entry.2 < sizeOf entries := by
  have hlt := List.sizeOf_lt_of_mem h
  cases entry with
  | mk name content =>
      simp only [Prod.mk.sizeOf_spec] at hlt ⊢
      omega

/-- The content of a variant is smaller than its document, or is nothing. -/
theorem sizeOf_variant_lt {d : Document} {name : String} {content : Document}
    (h : d.variant? = some (name, content)) :
    content = null ∨ sizeOf content < sizeOf d := by
  unfold variant? at h
  split at h
  · simp only [Option.some.injEq, Prod.mk.injEq] at h
    exact Or.inl h.2.symm
  · simp only [Option.some.injEq, Prod.mk.injEq] at h
    obtain ⟨rfl, rfl⟩ := h
    right
    simp
    omega
  · exact absurd h (by simp)

/-- A field is smaller than the document it is read from. -/
theorem sizeOf_field_lt {names : List String} {d : Document}
    {fields : List (String × Document)} (h : d.fields? names = some fields)
    {entry : String × Document} (hmem : entry ∈ fields) :
    sizeOf entry.2 < sizeOf d := by
  unfold fields? at h
  split at h
  · obtain rfl := Option.some.inj h
    have := sizeOf_lt_of_mem_entries hmem
    simp
    omega
  · obtain rfl := Option.some.inj h
    have hitem : entry.2 ∈ _ := (List.of_mem_zip hmem).2
    have := List.sizeOf_lt_of_mem hitem
    simp
    omega
  · exact absurd h (by simp)

/-- Looking a name up finds one of the entries. -/
theorem mem_of_lookup {name : String} {content : Document}
    {entries : List (String × Document)} (h : entries.lookup name = some content) :
    ∃ known, (known, content) ∈ entries := by
  induction entries with
  | nil => exact absurd h (by simp)
  | cons head tail ih =>
      obtain ⟨known, value⟩ := head
      rw [List.lookup_cons] at h
      split at h
      · exact ⟨known, by simp [Option.some.inj h]⟩
      · obtain ⟨found, hfound⟩ := ih h
        exact ⟨found, List.mem_cons_of_mem _ hfound⟩

/-- A field that is looked up is smaller than its document. -/
theorem sizeOf_lookup_lt {names : List String} {d : Document}
    {fields : List (String × Document)} (h : d.fields? names = some fields)
    {name : String} {content : Document}
    (hlookup : fields.lookup name = some content) : sizeOf content < sizeOf d := by
  obtain ⟨known, hmem⟩ := mem_of_lookup hlookup
  exact sizeOf_field_lt h hmem

/-- Read the entries one after the other into partial results.  The first entry
that fails decides. -/
def readEntries {α : Type} (start : α) (read : α → String → Document → Decoded α)
    (entries : List (String × Document)) : Decoded α :=
  entries.foldlM (fun parts entry => read parts entry.1 entry.2) start

/-- A double; a whole number is rounded to one. -/
def toFloat : Document → Decoded Float
  | number x => .ok x
  | integer n => .ok (Float.ofInt n)
  | _ => malformed

def toIndex : Document → Decoded Nat
  | integer n => if fitsIndex n then .ok n.toNat else malformed
  | _ => malformed

/-- A signed 64-bit word. -/
def toWord : Document → Decoded Int
  | integer n => if fitsWord n then .ok n else malformed
  | _ => malformed

def toText : Document → Decoded String
  | string s => .ok s
  | _ => malformed

/-- A list, each item read alike. -/
def toListOf {α : Type} (read : Document → Decoded α) : Document → Decoded (List α)
  | list items => items.mapM read
  | _ => malformed

/-- A double, or nothing if it is not finite. -/
def ofFloat (x : Float) : Document :=
  if x.isFinite then number x else null

def ofIndex (n : Nat) : Document :=
  integer n

def ofIndices (indices : List Nat) : Document :=
  list (indices.map ofIndex)

end Document

end GateAlgebra
