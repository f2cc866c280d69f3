import GateAlgebra.DenseMatrix.Schur
/-!
The basis of a Schur decomposition has as many rows as the matrix: every step reflects or
rotates it in place.
-/

namespace GateAlgebra

namespace SchurState

theorem rows_basis_hessenberg (m : FloatMatrix) : (hessenberg m).basis.rows = m.rows := by
  refine List.foldlRecOn (motive := fun q : FloatMatrix => q.rows = m.rows) _ _ rfl
    fun q hq col _ => ?_
  split
  · exact hq
  · exact hq

theorem rows_basis_chase (start stop : Nat) (step : SchurState × Array ComplexFloat) (k : Nat) :
    (chase start stop step k).1.basis.rows = step.1.basis.rows := by
  unfold chase
  dsimp only
  split <;> rfl

theorem rows_basis_doubleShift (state : SchurState) (start stop : Nat) :
    (doubleShift state start stop).basis.rows = state.basis.rows := by
  have hchase : ∀ (ks : List Nat) (v : Array ComplexFloat),
      (ks.foldl (chase start stop) (state, v)).1.basis.rows = state.basis.rows := fun ks v =>
    List.foldlRecOn (motive := fun step : SchurState × Array ComplexFloat =>
      step.1.basis.rows = state.basis.rows) ks _ rfl
      fun step hstep k _ => (rows_basis_chase start stop step k).trans hstep
  unfold doubleShift
  dsimp only
  split
  · exact hchase _ _
  · exact hchase _ _

theorem rows_basis_splitBlock (state : SchurState) (start : Nat) :
    (splitBlock state start).basis.rows = state.basis.rows := by
  unfold splitBlock
  split <;> rfl

theorem rows_basis_iterate {state last : SchurState} {start stop steps : Nat}
    (h : iterate state start stop steps = some last) : last.basis.rows = state.basis.rows := by
  induction steps generalizing state start stop with
  | zero => cases h
  | succ steps ih =>
      unfold iterate at h
      dsimp only at h
      split at h
      · obtain rfl := Option.some.inj h
        rfl
      · split at h
        · exact (ih h).trans (rows_basis_doubleShift state start stop)
        · split at h
          · obtain rfl := Option.some.inj h
            exact rows_basis_splitBlock state start
          · exact (ih h).trans (rows_basis_splitBlock state start)

end SchurState

theorem DenseMatrix.rows_basis_schur {m : FloatMatrix} {state : SchurState}
    (h : m.schur? = some state) : state.basis.rows = m.rows := by
  unfold schur? at h
  dsimp only at h
  split at h
  · obtain rfl := Option.some.inj h
    rfl
  · split at h
    · rename_i htwo
      obtain rfl := Option.some.inj h
      exact (SchurState.rows_basis_splitBlock _ 0).trans htwo.symm
    · obtain ⟨last, hlast, rfl⟩ := Option.map_eq_some_iff.1 h
      exact (SchurState.rows_basis_iterate hlast).trans (SchurState.rows_basis_hessenberg _)

end GateAlgebra
