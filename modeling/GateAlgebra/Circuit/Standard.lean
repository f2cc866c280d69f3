import GateAlgebra.Circuit.Broadcast
/-!
Ready-made circuits: the Bell pair, the GHZ state and the quantum Fourier
transform.
-/

namespace GateAlgebra

namespace Circuit

def h (c : Circuit) (qubit : Nat) : Except CircuitError Circuit :=
  c.push (.gate .h) [.index qubit]

def cx (c : Circuit) (control target : Nat) : Except CircuitError Circuit :=
  c.push .cx [.index control, .index target]

/-- Apply a phase to a target under one control. -/
def cp (c : Circuit) (angle : Scalar) (control target : Nat) :
    Except CircuitError Circuit :=
  c.push (.cp angle) [.index control, .index target]

def swap (c : Circuit) (left right : Nat) : Except CircuitError Circuit :=
  c.push (.gate .swap) [.index left, .index right]

/-- Measure the first `n` qubits into the first `n` bits. -/
def measureFirst (c : Circuit) (n : Nat) : Except CircuitError Circuit :=
  c.push .measure [.through 1 n, .through 1 n]

/-- A Bell pair, measured. -/
def bell : Except CircuitError Circuit := do
  let c ← (empty "bell").h 1
  let c ← c.cx 1 2
  c.measureFirst 2

/-- A GHZ state on `n` qubits, measured.  On no qubits the circuit is empty. -/
def ghz (n : Nat) : Except CircuitError Circuit :=
  if n = 0 then .ok (empty "ghz")
  else do
    let c ← (empty "ghz").h 1
    let c ← (List.range (n - 1)).foldlM (fun c i => c.cx (i + 1) (i + 2)) c
    c.measureFirst n

/-- The angle `π / 2 ^ k`. -/
def halvedPi (k : Nat) : Scalar :=
  .real (Scalar.piValue / Float.ofNat (Nat.pow 2 k))

/-- Hadamard on a qubit, then the phases that the qubits after it control. -/
def qftRow (n : Nat) (c : Circuit) (i : Nat) : Except CircuitError Circuit := do
  (List.range (n - i)).foldlM
    (fun c k => c.cp (halvedPi (k + 1)) (i + k + 1) i) (← c.h i)

/-- The quantum Fourier transform on `n` qubits, without measurement. -/
def qft (n : Nat) : Except CircuitError Circuit := do
  let c ← (List.range n).foldlM (fun c i => qftRow n c (i + 1)) (empty "qft")
  (List.range (n / 2)).foldlM (fun c i => c.swap (i + 1) (n - i)) c

end Circuit

end GateAlgebra
