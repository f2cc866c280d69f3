import GateAlgebra.Circuit.Depth
import GateAlgebra.Circuit.Standard
import GateAlgebra.DenseMatrix.Circuit
import GateAlgebra.Document.Decode
import GateAlgebra.Lowering.Pass
import GateAlgebra.Proofs.Emission
import GateAlgebra.Proofs.Canonical
import GateAlgebra.Proofs.ControlledRoot
import GateAlgebra.Proofs.Exact
import GateAlgebra.Proofs.ExactSemantics
import GateAlgebra.Proofs.LowerExact
import GateAlgebra.Proofs.LowerSound
import GateAlgebra.Proofs.PassSound
import GateAlgebra.Proofs.Finished
import GateAlgebra.Proofs.LowerSingle
import GateAlgebra.Proofs.Returns
import GateAlgebra.Proofs.Lowers
import GateAlgebra.Proofs.Rungs
import GateAlgebra.Proofs.WellFormed
import GateAlgebra.Proofs.Parts
import GateAlgebra.Proofs.NormalForm
import GateAlgebra.Proofs.Alike
import GateAlgebra.Proofs.Total
import GateAlgebra.Proofs.Comparable
import GateAlgebra.Proofs.LowerTotal
import GateAlgebra.Proofs.Overflow
import GateAlgebra.Proofs.Settled
import GateAlgebra.Proofs.Stages
import GateAlgebra.Proofs.Convergence
import GateAlgebra.Proofs.HandedOut
import GateAlgebra.Proofs.ModifierLaws
import GateAlgebra.Proofs.ModifierMatrix
import GateAlgebra.Proofs.LadderLoops
import GateAlgebra.Proofs.Borrowing
import GateAlgebra.Proofs.CircuitMatrix
import GateAlgebra.Proofs.Calculation
import GateAlgebra.Proofs.Issued
import GateAlgebra.Proofs.ExponentRange
import GateAlgebra.Proofs.ChannelRange
import GateAlgebra.Proofs.Broadcast
import GateAlgebra.Proofs.PowerFamily
import GateAlgebra.Proofs.GateCount
import GateAlgebra.Proofs.Binding
import GateAlgebra.Proofs.FailedLowering
import GateAlgebra.Proofs.PassChain
import GateAlgebra.Proofs.LoweredGate
import GateAlgebra.Proofs.PowerBranch
import GateAlgebra.Proofs.RewrittenPower
import GateAlgebra.Proofs.LoweredMeaning
import GateAlgebra.Proofs.LongestChain
import GateAlgebra.Proofs.CheckedAccess
import GateAlgebra.Proofs.KnownRoot
import GateAlgebra.Proofs.AcceptedGate
import GateAlgebra.Proofs.RepeatedInstruction
import GateAlgebra.Proofs.FractionWords
import GateAlgebra.Proofs.FourierTransform
