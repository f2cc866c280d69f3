import GateAlgebra.Proofs.Returns
/-!
Complete lowerings, without depths.  What a complete lowering did is one of the cases of one
level, over instructions that were called and lowered completely themselves.
-/

namespace GateAlgebra

variable {free : List Nat} {inst : Instruction} {emitted : List Instruction}

section Calls

variable {Sub : Instruction → List Instruction → Prop}

/-- What is lowered to find out that no rule applies is called. -/
theorem Kept.calls (hkept : Kept Sub inst) :
    Kept (fun part list => Calls free inst part ∧ Sub part list) inst := by
  cases hkept with
  | gate hop hsteps => exact .gate hop hsteps
  | leaf hgate hmodifier => exact .leaf hgate hmodifier
  | powered hop hnone hroot hvalid hsub hsame =>
      exact .powered hop hnone hroot hvalid ⟨.powered hop hnone hroot hvalid, hsub⟩ hsame
  | single hop hone => exact .single hop hone
  | controlled hop hmany hvalid hsub hsame hfew =>
      exact .controlled hop hmany hvalid ⟨.controlled hop hmany hvalid, hsub⟩ hsame hfew

theorem exists_of_forall₂ {α β : Type} {R : α → β → Prop} {items : List α} {images : List β}
    (h : List.Forall₂ R items images) : ∀ item ∈ items, ∃ image, R item image := by
  induction h with
  | nil => simp
  | cons hhead _ ih => exact List.forall_mem_cons.2 ⟨⟨_, hhead⟩, ih⟩

/-- What is lowered within a complete lowering is called. -/
theorem LowerStep.calls (hsub : ∀ part list, Sub part list → Lowers free part list)
    (h : LowerStep Sub free inst emitted) :
    LowerStep (fun part list => Calls free inst part ∧ Sub part list) free inst emitted := by
  cases h with
  | keep hinverted hrepeated hkept => exact .keep hinverted hrepeated hkept.calls
  | @expand g steps lists hop hsteps hlists =>
      have hall := exists_of_forall₂ hlists
      refine .expand hop hsteps (((List.forall₂_and_left _ _).2 ⟨fun step hstep => hstep,
        hlists⟩).imp fun step list hlist => ⟨hlist.2.1, ?_, hlist.2.2⟩)
      obtain ⟨before, after, rfl⟩ := List.append_of_mem hlist.1
      refine .step hop hsteps (fun other hother => ?_) fun other hother => ?_
      · obtain ⟨lowered, hlowered⟩ := hall other hother
        exact hlowered.1
      · obtain ⟨lowered, hlowered⟩ := hall other (List.mem_append_left _ hother)
        exact ⟨lowered, hsub _ _ hlowered.2⟩
  | invert hop hvalid hpart hinverses =>
      exact .invert hop hvalid ⟨.inverted hop hvalid, hpart⟩ hinverses
  | @blocks n w lists hop hwidth hlists =>
      have hall := exists_of_forall₂ hlists
      refine .blocks hop hwidth (((List.forall₂_and_left _ _).2 ⟨fun block hblock => hblock,
        hlists⟩).imp fun block list hlist => ⟨hlist.2.1, ?_, hlist.2.2⟩)
      obtain ⟨before, after, hsplit⟩ := List.append_of_mem hlist.1
      refine .block hop hwidth hsplit hlist.2.1 fun other hother => ?_
      rw [hsplit] at hall
      obtain ⟨lowered, hlowered⟩ := hall other (List.mem_append_left _ hother)
      exact ⟨hlowered.1, lowered, hsub _ _ hlowered.2⟩
  | zeroth hop hzero => exact .zeroth hop hzero
  | times hop hn hvalid hpart => exact .times hop hn hvalid ⟨.times hop hn hvalid, hpart⟩
  | root hop hroot hvalid hpart hnone =>
      exact .root hop hroot hvalid ⟨.root hop hnone hroot hvalid, hpart⟩ hnone
  | powerOf hop hvalid hpart hpowered hvalid' hpart' hnone hroot hchanged =>
      exact .powerOf hop hvalid ⟨.powered hop hnone hroot hvalid, hpart⟩ hpowered hvalid'
        ⟨.powerOf hop hnone hroot hvalid (hsub _ _ hpart) hchanged hpowered hvalid', hpart'⟩
        hnone hroot hchanged
  | controlX hn hop hemitted hvalid hpart hsame =>
      exact .controlX hn hop hemitted hvalid
        ⟨.controlled hop (fun hone => hn hone.2) hvalid, hpart⟩ hsame
  | controlRoot hn hop hqubit hvalid hpart hsame hemitted hother =>
      exact .controlRoot hn hop hqubit hvalid
        ⟨.controlled hop (fun hone => hn hone.2) hvalid, hpart⟩ hsame hemitted hother
  | controlEach hop hvalid hpart hcontrolled hmany hchanged =>
      exact .controlEach hop hvalid ⟨.controlled hop hmany hvalid, hpart⟩ hcontrolled hmany
        hchanged

end Calls

section Depth

/-! A level is complete from some depth on if what is lowered within it is. -/

theorem Lowers.eventually {lowered : List Instruction} (h : Lowers free inst lowered) :
    ∃ depth, ∀ deeper, depth ≤ deeper → lowerWithin free deeper inst = .done lowered := by
  obtain ⟨depth, hdepth⟩ := h
  refine ⟨depth, fun deeper hle => ?_⟩
  rw [lowerWithin_of_le hle (by rw [hdepth]; exact Emission.finished_done), hdepth]

theorem eventually_forall₂ {α : Type} {part : α → Instruction} {P : α → Prop} {items : List α}
    {lists : List (List Instruction)}
    (h : List.Forall₂ (fun item list => P item ∧ Lowers free (part item) list) items lists) :
    ∃ depth, ∀ deeper, depth ≤ deeper → List.Forall₂ (fun item list =>
      P item ∧ lowerWithin free deeper (part item) = .done list) items lists := by
  induction h with
  | nil => exact ⟨0, fun _ _ => .nil⟩
  | cons hhead _ ih =>
      obtain ⟨depth, hdepth⟩ := hhead.2.eventually
      obtain ⟨depth', hdepth'⟩ := ih
      exact ⟨max depth depth', fun deeper hle => .cons
        ⟨hhead.1, hdepth deeper (le_of_max_le_left hle)⟩
        (hdepth' deeper (le_of_max_le_right hle))⟩

theorem Kept.eventually (h : Kept (Lowers free) inst) : ∃ depth, ∀ deeper, depth ≤ deeper →
    Kept (fun part list => lowerWithin free deeper part = .done list) inst := by
  cases h with
  | gate hop hsteps => exact ⟨0, fun _ _ => .gate hop hsteps⟩
  | leaf hgate hmodifier => exact ⟨0, fun _ _ => .leaf hgate hmodifier⟩
  | powered hop hnone hroot hvalid hsub hsame =>
      obtain ⟨depth, hdepth⟩ := hsub.eventually
      exact ⟨depth, fun deeper hle =>
        .powered hop hnone hroot hvalid (hdepth deeper hle) hsame⟩
  | single hop hone => exact ⟨0, fun _ _ => .single hop hone⟩
  | controlled hop hmany hvalid hsub hsame hfew =>
      obtain ⟨depth, hdepth⟩ := hsub.eventually
      exact ⟨depth, fun deeper hle =>
        .controlled hop hmany hvalid (hdepth deeper hle) hsame hfew⟩

theorem LowerStep.exists_depth (h : LowerStep (Lowers free) free inst emitted) :
    ∃ depth, LowerStep (fun part list => lowerWithin free depth part = .done list) free inst
      emitted := by
  cases h with
  | keep hinverted hrepeated hkept =>
      obtain ⟨depth, hdepth⟩ := hkept.eventually
      exact ⟨depth, .keep hinverted hrepeated (hdepth depth le_rfl)⟩
  | expand hop hsteps hlists =>
      obtain ⟨depth, hdepth⟩ := eventually_forall₂ hlists
      exact ⟨depth, .expand hop hsteps (hdepth depth le_rfl)⟩
  | invert hop hvalid hsub hinverses =>
      obtain ⟨depth, hdepth⟩ := hsub
      exact ⟨depth, .invert hop hvalid hdepth hinverses⟩
  | blocks hop hwidth hlists =>
      obtain ⟨depth, hdepth⟩ := eventually_forall₂ hlists
      exact ⟨depth, .blocks hop hwidth (hdepth depth le_rfl)⟩
  | zeroth hop hzero => exact ⟨0, .zeroth hop hzero⟩
  | times hop hn hvalid hsub =>
      obtain ⟨depth, hdepth⟩ := hsub
      exact ⟨depth, .times hop hn hvalid hdepth⟩
  | root hop hroot hvalid hsub hnone =>
      obtain ⟨depth, hdepth⟩ := hsub
      exact ⟨depth, .root hop hroot hvalid hdepth hnone⟩
  | powerOf hop hvalid hsub hpowered hvalid' hsub' hnone hroot hchanged =>
      obtain ⟨depth, hdepth⟩ := hsub.eventually
      obtain ⟨depth', hdepth'⟩ := hsub'.eventually
      exact ⟨max depth depth', .powerOf hop hvalid (hdepth _ (le_max_left _ _)) hpowered hvalid'
        (hdepth' _ (le_max_right _ _)) hnone hroot hchanged⟩
  | controlX hn hop hemitted hvalid hsub hsame =>
      obtain ⟨depth, hdepth⟩ := hsub
      exact ⟨depth, .controlX hn hop hemitted hvalid hdepth hsame⟩
  | controlRoot hn hop hqubit hvalid hsub hsame hemitted hother =>
      obtain ⟨depth, hdepth⟩ := hsub
      exact ⟨depth, .controlRoot hn hop hqubit hvalid hdepth hsame hemitted hother⟩
  | controlEach hop hvalid hsub hcontrolled hmany hchanged =>
      obtain ⟨depth, hdepth⟩ := hsub
      exact ⟨depth, .controlEach hop hvalid hdepth hcontrolled hmany hchanged⟩

/-- A complete level over complete lowerings is a complete lowering. -/
theorem LowerStep.lowers (hinst : inst.Valid) (h : LowerStep (Lowers free) free inst emitted) :
    Lowers free inst emitted := by
  obtain ⟨depth, hdepth⟩ := h.exists_depth
  exact ⟨depth + 1, lowerStep_eq_done hinst hdepth⟩

end Depth

namespace Lowers

/-- A property of complete lowerings that holds if it holds of those within. -/
theorem induction {P : Instruction → List Instruction → Prop}
    (hstep : ∀ inst emitted, LowerStep (fun part list => Calls free inst part ∧
      Lowers free part list ∧ P part list) free inst emitted → P inst emitted)
    (h : Lowers free inst emitted) : P inst emitted := by
  obtain ⟨depth, hdepth⟩ := h
  induction depth generalizing inst emitted with
  | zero => exact absurd hdepth Emission.unfinished_ne_done
  | succ depth ih =>
      have hlevel : LowerStep (fun part list => Lowers free part list ∧ P part list) free inst
          emitted :=
        (lowerStep_cases hdepth).mono fun part list hlist => ⟨⟨depth, hlist⟩, ih hlist⟩
      exact hstep inst emitted (hlevel.calls fun part list hlist => hlist.1)

/-- What the last level of a complete lowering did. -/
theorem cases_on (h : Lowers free inst emitted) :
    LowerStep (fun part list => Calls free inst part ∧ Lowers free part list) free inst
      emitted := by
  obtain ⟨depth, hdepth⟩ := h
  cases depth with
  | zero => exact absurd hdepth Emission.unfinished_ne_done
  | succ depth =>
      have hlevel : LowerStep (Lowers free) free inst emitted :=
        (lowerStep_cases hdepth).mono fun part list hlist => ⟨depth, hlist⟩
      exact hlevel.calls fun part list hlist => hlist

theorem unique {other : List Instruction} (h : Lowers free inst emitted)
    (hother : Lowers free inst other) : emitted = other := by
  obtain ⟨depth, hdepth⟩ := h
  rcases hother.at_depth depth with hnot | hdone
  · rw [hdepth] at hnot
    exact absurd Emission.finished_done hnot
  · rw [hdepth] at hdone
    exact Emission.done_inj.1 hdone

section Modifiers

/-! The same for each form of operation. -/

variable {n : Nat} {e : Exponent} {w : Operation}

theorem of_gate {g : Gate} (hop : inst.operation = .gate g) (h : Lowers free inst emitted) :
    g.expansionSteps inst.qubits = none ∧ emitted = [inst] ∨
    ∃ steps lists, g.expansionSteps inst.qubits = some steps ∧
      List.Forall₂ (fun step list => (step.1.on step.2).Valid ∧
        Lowers free (step.1.on step.2) list) steps lists ∧ emitted = lists.flatten := by
  cases h.cases_on
  case keep hinverted hrepeated hkept =>
    left
    cases hkept
    case gate g' hop' hsteps =>
      obtain rfl := Operation.gate.inj (hop.symm.trans hop')
      exact ⟨hsteps, rfl⟩
    case leaf hgate _ => exact absurd (by rw [hop]; rfl) hgate
    all_goals cases hop.symm.trans ‹inst.operation = _›
  case expand g' steps lists hop' hsteps hlists =>
    obtain rfl := Operation.gate.inj (hop.symm.trans hop')
    exact Or.inr ⟨steps, lists, hsteps, hlists.imp fun _ _ hlist => ⟨hlist.1, hlist.2.2⟩, rfl⟩
  all_goals cases hop.symm.trans ‹inst.operation = _›

theorem of_leaf (hgate : inst.operation.kind ≠ .gate) (hleaf : inst.operation.isModifier = false)
    (h : Lowers free inst emitted) : emitted = [inst] := by
  cases h.cases_on
  case keep => rfl
  case expand g steps lists hop hsteps hlists => exact absurd (by rw [hop]; rfl) hgate
  all_goals
    rw [‹inst.operation = _›] at hleaf
    cases hleaf

theorem of_inverted (hop : inst.operation = .inverted w) (h : Lowers free inst emitted) :
    (w.on inst.qubits).Valid ∧ ∃ lowered, Lowers free (w.on inst.qubits) lowered ∧
      List.Forall₂ (fun part inverse => part.inverse = .ok inverse) lowered.reverse emitted := by
  cases h.cases_on
  case keep hinverted _ _ => exact absurd (by rw [hop]; rfl) hinverted
  case invert w' lowered hop' hvalid hsub hinverses =>
    obtain rfl := Operation.inverted.inj (hop.symm.trans hop')
    exact ⟨hvalid, lowered, hsub.2, hinverses⟩
  all_goals cases hop.symm.trans ‹inst.operation = _›

theorem of_repeated (hop : inst.operation = .repeated n w) (h : Lowers free inst emitted) :
    w.numQubits ≠ 0 ∧
    ∃ lists, List.Forall₂ (fun block list => (w.on block).Valid ∧ Lowers free (w.on block) list)
      (blocks w.numQubits inst.qubits inst.qubits.length) lists ∧ emitted = lists.flatten := by
  cases h.cases_on
  case keep _ hrepeated _ => exact absurd (by rw [hop]; rfl) hrepeated
  case blocks n' w' lists hop' hwidth hlists =>
    obtain ⟨rfl, rfl⟩ := Operation.repeated.inj (hop.symm.trans hop')
    exact ⟨hwidth, lists, hlists.imp fun _ _ hlist => ⟨hlist.1, hlist.2.2⟩, rfl⟩
  all_goals cases hop.symm.trans ‹inst.operation = _›

theorem of_powered (hop : inst.operation = .powered e w) (h : Lowers free inst emitted) :
    e.natural? = some 0 ∧ emitted = [] ∨
    (∃ n lowered, e.natural? = some (n + 1) ∧ (w.on inst.qubits).Valid ∧
      Lowers free (w.on inst.qubits) lowered ∧
      emitted = (List.replicate (n + 1) lowered).flatten) ∨
    e.natural? = none ∧
      ((∃ root, w.root? e = some root ∧ ((Operation.gate root).on inst.qubits).Valid ∧
        Lowers free ((Operation.gate root).on inst.qubits) emitted) ∨
      w.root? e = none ∧ (w.on inst.qubits).Valid ∧
        ∃ lowered, Lowers free (w.on inst.qubits) lowered ∧
          ((∀ only, lowered = [only] → isUnchanged [only] w inst.qubits = true) ∧
            emitted = [inst] ∨
          ∃ only powered, lowered = [only] ∧ isUnchanged [only] w inst.qubits = false ∧
            only.operation.power e = .ok powered ∧ (powered.on only.qubits).Valid ∧
            Lowers free (powered.on only.qubits) emitted)) := by
  cases h.cases_on
  case keep hinverted hrepeated hkept =>
    cases hkept
    case leaf _ hmodifier =>
      rw [hop] at hmodifier
      cases hmodifier
    case powered e' w' lowered hop' hnone hroot hvalid hsub hsame =>
      obtain ⟨rfl, rfl⟩ := Operation.powered.inj (hop.symm.trans hop')
      exact Or.inr (Or.inr ⟨hnone, Or.inr ⟨hroot, hvalid, lowered, hsub.2,
        Or.inl ⟨hsame, rfl⟩⟩⟩)
    all_goals cases hop.symm.trans ‹inst.operation = _›
  case zeroth e' w' hop' hzero =>
    obtain ⟨rfl, rfl⟩ := Operation.powered.inj (hop.symm.trans hop')
    exact Or.inl ⟨hzero, rfl⟩
  case times e' w' n lowered hop' hn hvalid hsub =>
    obtain ⟨rfl, rfl⟩ := Operation.powered.inj (hop.symm.trans hop')
    exact Or.inr (Or.inl ⟨n, lowered, hn, hvalid, hsub.2, rfl⟩)
  case root e' g root hop' hroot hvalid hnone hsub =>
    obtain ⟨rfl, rfl⟩ := Operation.powered.inj (hop.symm.trans hop')
    exact Or.inr (Or.inr ⟨hnone, Or.inl ⟨root, hroot, hvalid, hsub.2⟩⟩)
  case powerOf e' w' powered only hop' hvalid hsub hpowered hvalid' hnone hroot hchanged hsub' =>
    obtain ⟨rfl, rfl⟩ := Operation.powered.inj (hop.symm.trans hop')
    exact Or.inr (Or.inr ⟨hnone, Or.inr ⟨hroot, hvalid, [only], hsub.2,
      Or.inr ⟨only, powered, rfl, hchanged, hpowered, hvalid', hsub'.2⟩⟩⟩)
  all_goals cases hop.symm.trans ‹inst.operation = _›

/-- A power without a rule of its own is lowered through what it is a power of. -/
theorem of_open_power (hop : inst.operation = .powered e w) (hnone : e.natural? = none)
    (hroot : w.root? e = none) (h : Lowers free inst emitted) :
    (w.on inst.qubits).Valid ∧ ∃ lowered, Lowers free (w.on inst.qubits) lowered ∧
      ((∀ only, lowered = [only] → isUnchanged [only] w inst.qubits = true) ∧ emitted = [inst] ∨
      ∃ only powered, lowered = [only] ∧ isUnchanged [only] w inst.qubits = false ∧
        only.operation.power e = .ok powered ∧ (powered.on only.qubits).Valid ∧
        Lowers free (powered.on only.qubits) emitted) := by
  rcases h.of_powered hop with ⟨hzero, -⟩ | ⟨n, list, hn, -⟩ | ⟨-, ⟨root, hroot', -⟩ | ⟨-, hopen⟩⟩
  · cases hnone.symm.trans hzero
  · cases hnone.symm.trans hn
  · cases hroot.symm.trans hroot'
  · exact hopen

theorem of_controlled (hop : inst.operation = .controlled n w) (h : Lowers free inst emitted) :
    (w.numQubits = 1 ∧ n = 1) ∧ emitted = [inst] ∨
    ¬(w.numQubits = 1 ∧ n = 1) ∧ (w.on (inst.qubits.drop n)).Valid ∧
      ∃ lowered, Lowers free (w.on (inst.qubits.drop n)) lowered ∧
        (isUnchanged lowered w (inst.qubits.drop n) = true ∧
          ((w.numQubits ≠ 1 ∨ (inst.qubits.take n).length = 1) ∧ emitted = [inst] ∨
          w.numQubits = 1 ∧ n ≠ 1 ∧
            (w = .gate .x ∧ controlledX (inst.qubits.take n)
              ((inst.qubits.drop n).headD 0) free = .done emitted ∨
            (w == .gate .x) = false ∧ controlledRoot w (inst.qubits.take n)
              ((inst.qubits.drop n).headD 0) free = .done emitted)) ∨
        isUnchanged lowered w (inst.qubits.drop n) = false ∧
          List.Forall₂ (fun part other =>
            controlInstruction (inst.qubits.take n) part = .done [other]) lowered emitted) := by
  cases h.cases_on
  case keep hinverted hrepeated hkept =>
    cases hkept
    case leaf _ hmodifier =>
      rw [hop] at hmodifier
      cases hmodifier
    case single n' w' hop' hone =>
      obtain ⟨rfl, rfl⟩ := Operation.controlled.inj (hop.symm.trans hop')
      exact Or.inl ⟨hone, rfl⟩
    case controlled n' w' lowered hop' hmany hvalid hsub hsame hfew =>
      obtain ⟨rfl, rfl⟩ := Operation.controlled.inj (hop.symm.trans hop')
      exact Or.inr ⟨hmany, hvalid, lowered, hsub.2, Or.inl ⟨hsame, Or.inl ⟨hfew, rfl⟩⟩⟩
    all_goals cases hop.symm.trans ‹inst.operation = _›
  case controlX n' hn hop' lowered hvalid hsub hsame hemitted =>
    obtain ⟨rfl, rfl⟩ := Operation.controlled.inj (hop.symm.trans hop')
    exact Or.inr ⟨fun hone => hn hone.2, hvalid, lowered, hsub.2,
      Or.inl ⟨hsame, Or.inr ⟨rfl, hn, Or.inl ⟨rfl, hemitted⟩⟩⟩⟩
  case controlRoot n' w' lowered hn hop' hqubit hvalid hsub hsame hother hemitted =>
    obtain ⟨rfl, rfl⟩ := Operation.controlled.inj (hop.symm.trans hop')
    exact Or.inr ⟨fun hone => hn hone.2, hvalid, lowered, hsub.2,
      Or.inl ⟨hsame, Or.inr ⟨hqubit, hn, Or.inr ⟨hother, hemitted⟩⟩⟩⟩
  case controlEach n' w' lowered hop' hvalid hsub hmany hchanged hcontrolled =>
    obtain ⟨rfl, rfl⟩ := Operation.controlled.inj (hop.symm.trans hop')
    exact Or.inr ⟨hmany, hvalid, lowered, hsub.2, Or.inr ⟨hchanged, hcontrolled⟩⟩
  all_goals cases hop.symm.trans ‹inst.operation = _›

end Modifiers

end Lowers

end GateAlgebra
