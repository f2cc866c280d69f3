import GateAlgebra.Proofs.RoundTrip
/-!
Documents all of whose numbers are finite doubles.  Texts hold no others.  What is read from
such a document can be written down again.
-/

namespace GateAlgebra

open Document

namespace Document

/-- Every number in the document is a finite double, once it is rounded. -/
structure Finite (d : Document) : Prop where
  number : ∀ x, (number x).Inside d → x.isFinite = true
  integer : ∀ n, (integer n).Inside d → (Float.ofInt n).isFinite = true

variable {d part : Document}

theorem Finite.of_inside (h : d.Finite) (hpart : part.Inside d) : part.Finite :=
  ⟨fun x hx => h.number x (hx.trans hpart), fun n hn => h.integer n (hn.trans hpart)⟩

/-- What a value has that is read from a document like this, it has that is read from a part. -/
theorem Holds.of_finite {α : Type} {read : Document → Decoded α} {P : α → Prop} {a : α}
    (h : d.Holds read a) (hd : d.Finite)
    (hread : ∀ part a, part.Finite → read part = .ok a → P a) : P a := by
  obtain ⟨part, hpart, ha⟩ := h
  exact hread part a (hd.of_inside hpart) ha

theorem finite_string (text : String) : (string text).Finite :=
  ⟨nofun, nofun⟩

theorem finite_integer {n : Int} (h : (Float.ofInt n).isFinite = true) : (integer n).Finite := by
  refine ⟨nofun, fun m hm => ?_⟩
  cases hm
  exact h

theorem finite_list {items : List Document} (h : ∀ item ∈ items, item.Finite) :
    (list items).Finite := by
  refine ⟨fun x hx => ?_, fun n hn => ?_⟩
  · cases hx with
    | item hitem hinside => exact (h _ hitem).number x hinside
  · cases hn with
    | item hitem hinside => exact (h _ hitem).integer n hinside

theorem finite_variant {content : Document} (h : content.Finite) (name : String) :
    (variant name content).Finite := by
  have hentry : ∀ entry ∈ [(name, content)], entry.2.Finite := List.forall_mem_singleton.2 h
  refine ⟨fun x hx => ?_, fun n hn => ?_⟩
  · cases hx with
    | entry hmem hinside => exact (hentry _ hmem).number x hinside
  · cases hn with
    | entry hmem hinside => exact (hentry _ hmem).integer n hinside

theorem Finite.isFinite_of_holds (h : d.Finite) {x : Float} (hx : d.Holds toFloat x) :
    x.isFinite = true := by
  obtain ⟨part, hpart, hread⟩ := hx
  unfold toFloat at hread
  split at hread
  · obtain rfl := Except.ok.inj hread
    exact h.number _ hpart
  · obtain rfl := Except.ok.inj hread
    exact h.integer _ hpart
  · cases hread

/-- Any document gives indices of 64 bits only. -/
theorem le_maxIndex_of_holds {n : Nat} (h : d.Holds toIndex n) : n ≤ maxIndex := by
  obtain ⟨part, -, hread⟩ := h
  unfold toIndex at hread
  split at hread
  · split at hread
    · rename_i value hfits
      obtain rfl := Except.ok.inj hread
      simp only [fitsIndex, Bool.and_eq_true, decide_eq_true_eq] at hfits
      omega
    · cases hread
  · cases hread

end Document

section Numbers

variable {d : Document}

theorem ComplexFloat.writable_of_decode {z : ComplexFloat} (hd : d.Finite)
    (h : ComplexFloat.decode d = .ok z) : z.Writable :=
  ⟨hd.isFinite_of_holds (holds_of_decode h).1, hd.isFinite_of_holds (holds_of_decode h).2⟩

theorem Expression.writable_of_decode {e : Expression} (hd : d.Finite)
    (h : Expression.decode d = .ok e) : e.Writable := by
  have hcontent : ∀ {name : String} {content : Document}, (variant name content).Finite →
      content.Finite := fun h => h.of_inside (.entry List.mem_cons_self (.refl _))
  have hleft : ∀ {left right : Document}, (list [left, right]).Finite → left.Finite :=
    fun h => h.of_inside (.item (by simp) (.refl _))
  have hright : ∀ {left right : Document}, (list [left, right]).Finite → right.Finite :=
    fun h => h.of_inside (.item (by simp) (.refl _))
  fun_induction Expression.decode d generalizing e with
  | case1 value =>
      obtain ⟨z, hz, he⟩ := bind_eq_ok_iff.1 h
      obtain rfl := Except.ok.inj he
      exact ComplexFloat.writable_of_decode (hcontent hd) hz
  | case2 name =>
      obtain rfl := Except.ok.inj h
      trivial
  | case3 operand ih =>
      obtain ⟨a, ha, he⟩ := bind_eq_ok_iff.1 h
      obtain rfl := Except.ok.inj he
      have hoperand : a.Writable := ih (hcontent hd) ha
      exact hoperand
  | case4 left right ihl ihr | case5 left right ihl ihr | case6 left right ihl ihr
  | case7 left right ihl ihr =>
      obtain ⟨a, ha, h⟩ := bind_eq_ok_iff.1 h
      obtain ⟨b, hb, he⟩ := bind_eq_ok_iff.1 h
      obtain rfl := Except.ok.inj he
      have hitems := hcontent hd
      exact ⟨ihl (hleft hitems) ha, ihr (hright hitems) hb⟩
  | case8 => cases h

theorem Scalar.writable_of_decode {s : Scalar} (hd : d.Finite) (h : Scalar.decode d = .ok s) :
    s.Writable := by
  rcases holds_of_decode h with ⟨z, rfl, hz⟩ | ⟨e, rfl, he⟩
  · have hvalue : z.Writable := hz.of_finite hd fun _ _ => ComplexFloat.writable_of_decode
    exact hvalue
  · have hexpression : e.Writable := he.of_finite hd fun _ _ => Expression.writable_of_decode
    exact hexpression

end Numbers

section Leaves

variable {d : Document}

theorem Gate.writable_of_decode {g : Gate} (hd : d.Finite) (h : Gate.decode d = .ok g) :
    g.Writable :=
  fun s hs => (holds_of_decode h s hs).of_finite hd fun _ _ => Scalar.writable_of_decode

theorem CustomGate.writable_of_decode {g : CustomGate} (hd : d.Finite)
    (h : CustomGate.decode d = .ok g) : g.Writable := by
  obtain ⟨-, hparams, hentries⟩ := holds_of_decode h
  exact ⟨fun s hs => (hparams s hs).of_finite hd fun _ _ => Scalar.writable_of_decode,
    fun z hz => (hentries z hz).of_finite hd fun _ _ => ComplexFloat.writable_of_decode⟩

/-- The constructor refuses what is not finite in any case. -/
theorem Exponent.writable_of_decode {e : Exponent} (h : Exponent.decode d = .ok e) :
    e.Writable := by
  rcases cases_of_decode h with ⟨numer, denom, he⟩ | ⟨value, he⟩
  · unfold ofFraction at he
    grind [Exponent.Writable]
  · unfold Exponent.ofFloat at he
    grind [Exponent.Writable]

theorem Channel.writable_of_decode {c : Channel} (hd : d.Finite) (h : Channel.decode d = .ok c) :
    c.Writable :=
  (holds_of_decode h).2.of_finite hd fun _ _ => Scalar.writable_of_decode

end Leaves

section Operations

variable {d : Document}

theorem Operation.Read.writable {op : Operation} (hd : d.Finite) (h : Read d op) :
    op.Writable := by
  induction h with
  | gate h => exact h.of_finite hd fun _ _ => Gate.writable_of_decode
  | custom h => exact h.of_finite hd fun _ _ => CustomGate.writable_of_decode
  | controlled _ hindex _ _ ih | repeated _ hindex _ _ ih =>
      exact ⟨le_maxIndex_of_holds hindex, ih⟩
  | powered he _ _ ih => exact ⟨he.imp fun _ _ => Exponent.writable_of_decode, ih⟩
  | inverted _ _ ih => exact ih
  | barrier h => exact le_maxIndex_of_holds h
  | channel h => exact h.of_finite hd fun _ _ => Channel.writable_of_decode
  | measure | reset | observable | expectation => trivial

theorem Operation.writable_of_decode {op : Operation} (hd : d.Finite)
    (h : Operation.decode d = .ok op) : op.Writable :=
  (read_of_decode h).writable hd

theorem Instruction.writable_of_decode {inst : Instruction} (hd : d.Finite)
    (h : Instruction.decode d = .ok inst) : inst.Writable := by
  obtain ⟨-, hop, hindices⟩ := holds_of_decode h
  exact ⟨hop.of_finite hd fun _ _ => Operation.writable_of_decode,
    fun i hi => le_maxIndex_of_holds (hindices i hi)⟩

theorem Circuit.writable_of_decode {c : Circuit} (hd : d.Finite) (h : Circuit.decode d = .ok c) :
    c.Writable :=
  fun inst hinst => (holds_of_decode h inst hinst).of_finite hd
    fun _ _ => Instruction.writable_of_decode

end Operations

end GateAlgebra
