import Mathlib.Data.List.Forall2
/-!
Computations that may fail, and what is known of them if they succeed.
-/

namespace GateAlgebra

variable {ε α β : Type}

theorem ok_bind (a : α) (next : α → Except ε β) : Except.ok a >>= next = next a :=
  rfl

theorem bind_eq_ok_iff {value : Except ε α} {next : α → Except ε β} {b : β} :
    value >>= next = .ok b ↔ ∃ a, value = .ok a ∧ next a = .ok b := by
  cases value with
  | ok a => simp [bind, Except.bind]
  | error e => simp [bind, Except.bind]

theorem bind_eq_error_iff {value : Except ε α} {next : α → Except ε β} {e : ε} :
    value >>= next = .error e ↔ value = .error e ∨ ∃ a, value = .ok a ∧ next a = .error e := by
  cases value with
  | ok a => simp [bind, Except.bind]
  | error e => simp [bind, Except.bind]

theorem map_eq_ok_iff {f : α → β} {value : Except ε α} {b : β} :
    f <$> value = .ok b ↔ ∃ a, value = .ok a ∧ f a = b := by
  cases value with
  | ok a => simp [Functor.map, Except.map]
  | error e => simp [Functor.map, Except.map]

theorem map_eq_error_iff {f : α → β} {value : Except ε α} {e : ε} :
    f <$> value = .error e ↔ value = .error e := by
  cases value with
  | ok a => simp [Functor.map, Except.map]
  | error e => simp [Functor.map, Except.map]

theorem exists_eq_ok_iff {value : Except ε α} :
    (∃ a, value = .ok a) ↔ ∀ e, value ≠ .error e := by
  cases value with
  | ok a => simp
  | error e => simp

theorem mapError_eq_error_iff {ε' : Type} {f : ε → ε'} {value : Except ε α} {e' : ε'} :
    value.mapError f = .error e' ↔ ∃ e, value = .error e ∧ f e = e' := by
  cases value with
  | ok a => simp [Except.mapError]
  | error e => simp [Except.mapError]

theorem exists_map_eq_ok_iff {f : α → β} {value : Except ε α} :
    (∃ b, f <$> value = .ok b) ↔ ∃ a, value = .ok a := by
  simp only [map_eq_ok_iff]
  exact ⟨fun ⟨_, a, h, _⟩ => ⟨a, h⟩, fun ⟨a, h⟩ => ⟨f a, a, h, rfl⟩⟩

theorem mapM_eq_ok_map {f : α → Except ε β} {g : α → β} {items : List α}
    (h : ∀ item ∈ items, f item = .ok (g item)) : items.mapM f = .ok (items.map g) := by
  induction items with
  | nil => rfl
  | cons item items ih =>
      obtain ⟨hitem, hitems⟩ := List.forall_mem_cons.1 h
      rw [List.mapM_cons, hitem, ih hitems]
      rfl

/-- The results belong to the items one by one. -/
theorem mapM_eq_ok_iff {f : α → Except ε β} {items : List α} {results : List β} :
    items.mapM f = .ok results ↔
      List.Forall₂ (fun item result => f item = .ok result) items results := by
  induction items generalizing results with
  | nil => exact ⟨fun h => Except.ok.inj h ▸ .nil, fun h => by cases h; rfl⟩
  | cons item items ih =>
      rw [List.mapM_cons, List.forall₂_cons_left_iff, bind_eq_ok_iff]
      constructor
      · rintro ⟨first, hfirst, h⟩
        obtain ⟨others, hothers, h⟩ := bind_eq_ok_iff.1 h
        exact ⟨first, others, hfirst, ih.1 hothers, (Except.ok.inj h).symm⟩
      · rintro ⟨first, others, hfirst, hothers, rfl⟩
        exact ⟨first, hfirst, bind_eq_ok_iff.2 ⟨others, ih.2 hothers, rfl⟩⟩

theorem exists_mapM_eq_ok_iff {f : α → Except ε β} {items : List α} :
    (∃ results, items.mapM f = .ok results) ↔ ∀ item ∈ items, ∃ result, f item = .ok result := by
  simp only [mapM_eq_ok_iff]
  induction items with
  | nil => exact iff_of_true ⟨[], .nil⟩ nofun
  | cons item items ih =>
      rw [List.forall_mem_cons, ← ih]
      constructor
      · rintro ⟨_, hall⟩
        obtain ⟨result, others, hresult, hothers, rfl⟩ := List.forall₂_cons_left_iff.1 hall
        exact ⟨⟨result, hresult⟩, others, hothers⟩
      · rintro ⟨⟨result, hresult⟩, others, hothers⟩
        exact ⟨result :: others, .cons hresult hothers⟩

/-- One step after the other on every item is both steps on every item. -/
theorem mapM_mapM_eq_ok_iff {γ : Type} {f : α → Except ε β} {g : β → Except ε γ}
    {both : α → Except ε γ}
    (h : ∀ item result, f item >>= g = .ok result ↔ both item = .ok result) (items : List α)
    (results : List γ) :
    items.mapM f >>= (·.mapM g) = .ok results ↔ items.mapM both = .ok results := by
  simp only [bind_eq_ok_iff, mapM_eq_ok_iff] at h ⊢
  constructor
  · rintro ⟨middle, hfirst, hsecond⟩
    induction hfirst generalizing results with
    | nil => cases hsecond; exact .nil
    | cons hitem _ ih =>
        obtain ⟨result, others, hresult, hothers, rfl⟩ := List.forall₂_cons_left_iff.1 hsecond
        exact .cons ((h _ _).1 ⟨_, hitem, hresult⟩) (ih others hothers)
  · intro hboth
    induction hboth with
    | nil => exact ⟨[], .nil, .nil⟩
    | cons hitem _ ih =>
        obtain ⟨middle, hfirst, hsecond⟩ := (h _ _).2 hitem
        obtain ⟨others, hothers, hrest⟩ := ih
        exact ⟨middle :: others, .cons hfirst hothers, .cons hsecond hrest⟩

/-- Every result comes from an item. -/
theorem exists_of_mem_mapM {f : α → Except ε β} {items : List α} {results : List β}
    (h : items.mapM f = .ok results) {b : β} (hb : b ∈ results) :
    ∃ item ∈ items, f item = .ok b := by
  induction items generalizing results with
  | nil =>
      obtain rfl := Except.ok.inj h
      cases hb
  | cons item items ih =>
      rw [List.mapM_cons, bind_eq_ok_iff] at h
      obtain ⟨first, hfirst, h⟩ := h
      obtain ⟨others, hothers, h⟩ := bind_eq_ok_iff.1 h
      obtain rfl := Except.ok.inj h
      rcases List.mem_cons.1 hb with rfl | hb
      · exact ⟨item, List.mem_cons_self, hfirst⟩
      · obtain ⟨other, hother, hresult⟩ := ih hothers hb
        exact ⟨other, List.mem_cons_of_mem item hother, hresult⟩

/-- A failure comes from an item. -/
theorem exists_of_mapM_eq_error {f : α → Except ε β} {items : List α} {e : ε}
    (h : items.mapM f = .error e) : ∃ item ∈ items, f item = .error e := by
  induction items with
  | nil => cases h
  | cons item items ih =>
      rw [List.mapM_cons, bind_eq_error_iff] at h
      rcases h with hitem | ⟨first, -, h⟩
      · exact ⟨item, List.mem_cons_self, hitem⟩
      · rcases bind_eq_error_iff.1 h with hitems | ⟨others, -, hnever⟩
        · obtain ⟨other, hother, he⟩ := ih hitems
          exact ⟨other, List.mem_cons_of_mem item hother, he⟩
        · cases hnever

/-- What the step at every item keeps, the fold keeps. -/
theorem foldlM_keeps_of_mem {P : α → Prop} {f : α → β → Except ε α} {items : List β}
    {start last : α}
    (hstep : ∀ item ∈ items, ∀ a next, P a → f a item = .ok next → P next) (hstart : P start)
    (h : items.foldlM f start = .ok last) : P last := by
  induction items generalizing start with
  | nil =>
      obtain rfl := Except.ok.inj h
      exact hstart
  | cons item items ih =>
      obtain ⟨hitem, hitems⟩ := List.forall_mem_cons.1 hstep
      rw [List.foldlM_cons, bind_eq_ok_iff] at h
      obtain ⟨next, hnext, hrest⟩ := h
      exact ih hitems (hitem start next hstart hnext) hrest

/-- What every step keeps, the fold keeps. -/
theorem foldlM_keeps {P : α → Prop} {f : α → β → Except ε α} {items : List β} {start last : α}
    (hstep : ∀ a item next, P a → f a item = .ok next → P next) (hstart : P start)
    (h : items.foldlM f start = .ok last) : P last :=
  foldlM_keeps_of_mem (fun item _ a next => hstep a item next) hstart h

/-- A loop over a range comes to its end, and to what holds there, if every round does. -/
theorem exists_foldlM_range {P : Nat → α → Prop} {f : α → Nat → Except ε α} {start : α}
    {count : Nat} (hstart : P 0 start)
    (hstep : ∀ k < count, ∀ a, P k a → ∃ next, f a k = .ok next ∧ P (k + 1) next) :
    ∃ last, (List.range count).foldlM f start = .ok last ∧ P count last := by
  induction count with
  | zero => exact ⟨start, rfl, hstart⟩
  | succ count ih =>
      obtain ⟨before, hbefore, hP⟩ := ih fun k hk => hstep k (Nat.lt_succ_of_lt hk)
      obtain ⟨last, hlast, hend⟩ := hstep count (Nat.lt_succ_self count) before hP
      refine ⟨last, ?_, hend⟩
      rw [List.range_succ, List.foldlM_append, hbefore]
      change (f before count >>= pure) = _
      rw [hlast]
      rfl

end GateAlgebra
