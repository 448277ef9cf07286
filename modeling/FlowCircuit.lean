import FlowCircuit.Circuit.Builder
import FlowCircuit.Circuit.Sharing
import FlowCircuit.Options.Read
import FlowCircuit.RowLayout
import FlowCircuit.Visit.Print
import FlowCircuit.Visit.Trace
import FlowCircuit.Proofs.Meaning
import FlowCircuit.Proofs.Obtained
import FlowCircuit.Proofs.PassOrder
import FlowCircuit.Proofs.Weights
import FlowCircuit.Proofs.ZSetGroup
import FlowCircuit.Proofs.ZSetRuns
import FlowCircuit.Proofs.Rebuilding
import FlowCircuit.Proofs.PlainEdit
import FlowCircuit.Proofs.EditedOnce
import FlowCircuit.Proofs.SharedSites
import FlowCircuit.Proofs.Leftovers
import FlowCircuit.Proofs.Frame
import FlowCircuit.Proofs.Building
import FlowCircuit.Proofs.AskedOnce
import FlowCircuit.Proofs.ValidEdits
import FlowCircuit.Proofs.References
import FlowCircuit.Proofs.FirstFault
import FlowCircuit.Proofs.GraphQueries
import FlowCircuit.Proofs.TopologicalOrder
import FlowCircuit.Proofs.SecondRun
import FlowCircuit.Proofs.Lookup
import FlowCircuit.Proofs.Refusals
import FlowCircuit.Proofs.Failures
import FlowCircuit.Proofs.TypeTexts
import FlowCircuit.Proofs.Disagreements
import FlowCircuit.Proofs.Copies
import FlowCircuit.Proofs.ExprTexts
import FlowCircuit.Proofs.Processed
import FlowCircuit.Proofs.MergeCounts
import FlowCircuit.Proofs.Traversal
import FlowCircuit.Proofs.Statistics
import FlowCircuit.Proofs.Structure
import FlowCircuit.Proofs.Fates
import FlowCircuit.Proofs.Files
import FlowCircuit.Proofs.RowLayouts
import FlowCircuit.Proofs.PrintedFiles
import FlowCircuit.Proofs.KeyOrder
