import BlockLowering.Json.Declarations
import BlockLowering.Json.Parser
import BlockLowering.Json.Printer
import BlockLowering.Proofs.ConstantFolding
import BlockLowering.Proofs.Convergence
import BlockLowering.Proofs.DeclarationOrder
import BlockLowering.Proofs.ExceptionEdges
import BlockLowering.Proofs.InstanceTests
import BlockLowering.Proofs.InvokeResults
import BlockLowering.Proofs.JsonForm
import BlockLowering.Proofs.Sessions
import BlockLowering.Proofs.SignatureKeys
import BlockLowering.Proofs.StringPools
import BlockLowering.Proofs.Verified
import BlockLowering.Proofs.FreshNumbers
