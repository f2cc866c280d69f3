import GateAlgebra.CircuitError
import GateAlgebra.Scalar
/-!
Single-qubit noise channels.  A channel is a kind of noise with one parameter
between zero and one.  The range is checked whenever the parameter is a number;
an expression is accepted until a substitution gives it a value.
-/

namespace GateAlgebra

/-- A kind of noise. -/
inductive Noise where
  /-- The state is replaced by the maximally mixed one with a probability. -/
  | depolarizing
  /-- X is applied with a probability. -/
  | bitFlip
  /-- Z is applied with a probability. -/
  | phaseFlip
  /-- Loss of energy. -/
  | amplitudeDamping
  /-- Loss of phase without loss of energy. -/
  | phaseDamping
deriving DecidableEq, Inhabited, Repr

namespace Noise

/-- The name of the kind. -/
def name : Noise → String
  | depolarizing => "depolarizing"
  | bitFlip => "bit_flip"
  | phaseFlip => "phase_flip"
  | amplitudeDamping => "amplitude_damping"
  | phaseDamping => "phase_damping"

/-- What the parameter of the kind is called: a probability or a damping. -/
def parameterName : Noise → String
  | depolarizing | bitFlip | phaseFlip => "p"
  | amplitudeDamping | phaseDamping => "gamma"

end Noise

/-- A kind of noise with its parameter. -/
structure Channel where
  noise : Noise
  parameter : Scalar
deriving Inhabited, BEq

namespace Channel

/-- The name of a channel is that of its kind of noise. -/
def name (channel : Channel) : String :=
  channel.noise.name

/-- The double that stands for a parameter without a real value. -/
def notANumber : Float := 0.0 / 0.0

/-- Succeeds on an expression and on a number in the closed unit interval. -/
def check (channel : Channel) : Except CircuitError Unit :=
  let outside (value : Float) : CircuitError :=
    .outOfRange channel.noise.parameterName value 0 1
  match channel.parameter with
  | .symbolic _ => .ok ()
  | .concrete value =>
      if value.isReal then
        if 0 ≤ value.re && value.re ≤ 1 then .ok () else .error (outside value.re)
      else .error (outside notANumber)

/-- A channel whose parameter passes the check. -/
def make (noise : Noise) (parameter : Scalar) : Except CircuitError Channel := do
  let channel : Channel := ⟨noise, parameter⟩
  channel.check
  return channel

/-- Replace bound symbols and check the range again. -/
def substitute (bindings : Bindings) (channel : Channel) :
    Except CircuitError Channel :=
  make channel.noise (channel.parameter.substitute bindings)

/-- The name with the parameter, such as `bit_flip(p=0.25)`. -/
def text (channel : Channel) : String :=
  channel.name ++ "(" ++ channel.noise.parameterName ++ "=" ++
    channel.parameter.text ++ ")"

end Channel

end GateAlgebra
