import ValueFlow.CommandLine.Directory
import ValueFlow.Main
import ValueFlow.Proofs.BlockNumbers
import ValueFlow.Proofs.BranchFolding
import ValueFlow.Proofs.ConstantTables
import ValueFlow.Proofs.DeferredIsolation
import ValueFlow.Proofs.FieldPaths
import ValueFlow.Proofs.ForwardCopies
import ValueFlow.Proofs.Forwarding
import ValueFlow.Proofs.KeptDefinitions
import ValueFlow.Proofs.NestedWrites
import ValueFlow.Proofs.ScalarFunctions
import ValueFlow.Proofs.SharedComputations
import ValueFlow.Proofs.SharedStorage
import ValueFlow.Proofs.SignatureInputs
import ValueFlow.Proofs.SingleAssignment
