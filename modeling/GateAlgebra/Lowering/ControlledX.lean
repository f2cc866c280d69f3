import GateAlgebra.Lowering.Emission
/-!
Multi-controlled gates from gates with few controls.

X under `c` controls borrows qubits in any state and gives them back unchanged.
With at least `c - 2` of them a ladder of Toffoli gates is enough.  With fewer,
but at least one, the controls are split in two groups around one borrowed qubit,
and each group finds enough qubits to borrow in the other.  Any other single-qubit
operation, and X with nothing to borrow, is built from square roots.
-/

namespace GateAlgebra

def toffoli (a b target : Nat) : Emission :=
  .apply .ccx [a, b, target]

/-- The rungs of a ladder: each has a control of its own and the target of the
rung before as controls, and hits the next target. -/
def ladderRungs (carry : Nat) : List Nat → List Nat → List Emission
  | control :: controls, target :: targets =>
      toffoli control carry target :: ladderRungs target controls targets
  | _, _ => []

/-- The ladder: down the rungs from the target, over the first two controls, and up
again to the rung before the target; all of it twice, which undoes every change
of a borrowed qubit. -/
def toffoliLadder (controls : List Nat) (target : Nat) (borrowed : List Nat) :
    Emission :=
  match controls, borrowed with
  | first :: second :: controls, carry :: borrowed =>
      let rungs := ladderRungs carry controls (borrowed ++ [target])
      (Emission.sequence
        (rungs.reverse ++ toffoli first second carry :: rungs.dropLast)).times 2
  | _, _ => .done []

/-- X under controls, with enough qubits to borrow for a ladder if there are three
controls or more. -/
def directX (controls : List Nat) (target : Nat) (free : List Nat) : Emission :=
  match controls with
  | [] => .apply (.gate .x) [target]
  | [a] => .apply .cx [a, target]
  | [a, b] => .apply .ccx [a, b, target]
  | _ => toffoliLadder controls target (free.take (controls.length - 2))

/-- X under controls in two groups.  The first group acts on the borrowed qubit,
the second together with it on the target, and both twice. -/
def halvedX (controls : List Nat) (target borrowed : Nat) (rest : List Nat) :
    Emission :=
  let half := (controls.length + 2 + rest.length) / 2
  let first := controls.take half
  let second := controls.drop half
  ((directX first borrowed (second ++ target :: rest)).andThen
    (directX (second ++ [borrowed]) target (first ++ rest))).times 2

/-- X under controls, with at least one qubit to borrow. -/
def borrowingX (controls : List Nat) (target borrowed : Nat) (rest : List Nat) :
    Emission :=
  if controls.length ≤ rest.length + 3 then directX controls target (borrowed :: rest)
  else halvedX controls target borrowed rest

/-- An operation on a target under controls, the last of them first in the list.
A root under the last control, the inverse root where the other controls flip that
control, and the root under the other controls make up the operation. -/
def rootLadder (op : Operation) : List Nat → Nat → List Nat → Emission
  | [], target, _ => .apply op [target]
  | [control], target, _ =>
      .build (op.control 1) fun controlled => .apply controlled [control, target]
  | last :: rest, target, free =>
      .build op.sqrt fun root =>
      .build root.inverse fun unroot =>
        let flip := borrowingX rest.reverse last target free
        .sequence [
          .build (root.control 1) fun controlled => .apply controlled [last, target],
          flip,
          .build (unroot.control 1) fun controlled => .apply controlled [last, target],
          flip,
          rootLadder root rest target (free ++ [last])]

/-- An operation on a target under controls, by square roots. -/
def controlledRoot (op : Operation) (controls : List Nat) (target : Nat)
    (free : List Nat) : Emission :=
  rootLadder op controls.reverse target free

/-- X under controls, with any number of qubits to borrow. -/
def controlledX (controls : List Nat) (target : Nat) (free : List Nat) : Emission :=
  if controls.length ≤ free.length + 2 then directX controls target free
  else
    match free with
    | borrowed :: rest => halvedX controls target borrowed rest
    | [] => controlledRoot (.gate .x) controls target []

end GateAlgebra
