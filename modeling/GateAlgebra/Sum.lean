/-!
Finite sums, added from the first term to the last or on eight lanes.  Where sums are
rounded the order shows.
-/

namespace GateAlgebra

/-- The sum of `f 0`, …, `f (n - 1)`, starting from zero. -/
def sumBelow {α : Type} [Zero α] [Add α] (f : Nat → α) : Nat → α
  | 0 => 0
  | n + 1 => sumBelow f n + f n

/-- A sum depends only on its terms. -/
theorem sumBelow_congr {α : Type} [Zero α] [Add α] {f g : Nat → α} {n : Nat}
    (h : ∀ k, k < n → f k = g k) : sumBelow f n = sumBelow g n := by
  induction n with
  | zero => rfl
  | succ n ih =>
      have hinit := ih fun k hk => h k (by omega)
      simp only [sumBelow, hinit, h n (by omega)]

/-- The sum of `f 0`, …, `f (n - 1)` on eight lanes.  Lane `k` adds the terms with rest
`k` modulo eight, lanes four apart are joined, and the fewer than eight terms that
remain follow in order. -/
def laneSum {α : Type} [Zero α] [Add α] (f : Nat → α) (n : Nat) : α :=
  let rounds := n / 8
  let lane (k : Nat) : α := sumBelow (fun round => f (8 * round + k)) rounds
  let joined := sumBelow (fun k => lane k + lane (k + 4)) 4
  (List.range (n % 8)).foldl (fun sum k => sum + f (8 * rounds + k)) joined

end GateAlgebra
