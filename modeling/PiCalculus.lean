import PiCalculus.Main
import PiCalculus.Proofs.Reduction.Faithful
import PiCalculus.Proofs.Text.RoundTrip
import PiCalculus.Session
import PiCalculus.TypeTable
import PiCalculus.Proofs.Binding.Enclosing
import PiCalculus.Proofs.Binding.Unbound
import PiCalculus.Proofs.Reduction.Privacy
import PiCalculus.Proofs.Store.Agreement
import PiCalculus.Proofs.Typing.Filling
import PiCalculus.Proofs.Typing.Inference
import PiCalculus.Proofs.Typing.Unification
import PiCalculus.Proofs.Typing.Checking
import PiCalculus.Proofs.Typing.Judgement
import PiCalculus.Proofs.Typing.Soundness
import PiCalculus.Proofs.Reduction.Simplification
import PiCalculus.Proofs.Operation.WellFormed
import PiCalculus.Proofs.Text.Reported
import PiCalculus.Proofs.Operation.Rechecking
import PiCalculus.Proofs.Store.Loops
import PiCalculus.Proofs.Typing.Assignments
import PiCalculus.Proofs.Store.Sorting
import PiCalculus.Proofs.Operation.Untyped
import PiCalculus.Proofs.Repl.Inspection
import PiCalculus.Proofs.Reduction.Selection
import PiCalculus.Proofs.Reduction.Locality
import PiCalculus.Proofs.Labelling.InPlace
import PiCalculus.Proofs.Reduction.InPlace
import PiCalculus.Proofs.Process.Places
import PiCalculus.Proofs.Labelling.Simultaneous
import PiCalculus.Proofs.Reduction.Variables
import PiCalculus.Proofs.Process.Gathering
import PiCalculus.Proofs.Reduction.Retained
import PiCalculus.Proofs.Reduction.Ending
import PiCalculus.Proofs.CommandLine.SingleSteps
import PiCalculus.Proofs.Binding.Stable
import PiCalculus.Proofs.Reduction.NormalForm
import PiCalculus.Proofs.Binding.Settled
import PiCalculus.Proofs.Binding.Restricted
import PiCalculus.Proofs.Binding.Classified
import PiCalculus.Proofs.Labelling.Renumbered
import PiCalculus.Proofs.Process.Listing
import PiCalculus.Proofs.Reduction.ByLabels
import PiCalculus.Proofs.Reduction.BoundFirst
import PiCalculus.Proofs.Binding.Sorted
import PiCalculus.Proofs.Store.Visiting
import PiCalculus.Proofs.Store.Comparing
import PiCalculus.Proofs.Typing.ByUse
import PiCalculus.Proofs.Text.Relaid
import PiCalculus.Proofs.Text.Caret
import PiCalculus.Proofs.Text.Naming
import PiCalculus.Proofs.Code.Blocks
import PiCalculus.Proofs.Typing.Wording
import PiCalculus.Proofs.Code.Sending
import PiCalculus.Proofs.Typing.Variables
import PiCalculus.Proofs.Process.FreeLists
import PiCalculus.Proofs.Process.Traversal
import PiCalculus.Proofs.CommandLine.Reports
import PiCalculus.Proofs.Code.Limit
