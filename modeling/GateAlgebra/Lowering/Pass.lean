import GateAlgebra.Lowering.Config
import GateAlgebra.Lowering.Lower
/-!
Lowering of circuits: every instruction once, or again and again until a pass
changes none of them.
-/

namespace GateAlgebra

namespace LoweringConfig

/-- The circuit that an instruction lowers to. -/
def lowerInstruction (config : LoweringConfig) (inst : Instruction) :
    Except Stop Circuit := do
  return ⟨"decomposed", ← (inst.lower config.ancillae).result⟩

/-- Whether an instruction was lowered to anything but itself. -/
def isChanged (inst : Instruction) (lowered : List Instruction) : Bool :=
  match lowered with
  | [only] => !(only == inst)
  | _ => true

/-- Lower every instruction, and tell whether one of them was changed. -/
def pass (config : LoweringConfig) : List Instruction →
    Except Stop (List Instruction × Bool)
  | [] => .ok ([], false)
  | inst :: rest => do
      let lowered ← (inst.lower config.ancillae).result
      let (others, changed) ← config.pass rest
      return (lowered ++ others, isChanged inst lowered || changed)

/-- Lower every instruction of a circuit once. -/
def lowerCircuit (config : LoweringConfig) (c : Circuit) : Except Stop Circuit := do
  return { c with instructions := (← config.pass c.instructions).1 }

/-- At most `passes` passes, up to the first that changes nothing. -/
def fixWithin (config : LoweringConfig) : Nat → List Instruction →
    Except Stop (List Instruction)
  | 0, _ => .error (.failed (.passLimit config.maxPasses))
  | passes + 1, current => do
      let (next, changed) ← config.pass current
      if changed then config.fixWithin passes next else return next

/-- Lower a circuit until nothing changes. -/
def lowerUntilFixed (config : LoweringConfig) (c : Circuit) : Except Stop Circuit := do
  return { c with instructions := ← config.fixWithin config.maxPasses c.instructions }

end LoweringConfig

end GateAlgebra
