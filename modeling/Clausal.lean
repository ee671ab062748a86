import Clausal.Assignment.Scan
import Clausal.Clause.Scan
import Clausal.Computation.Execution
import Clausal.Literal.Word
import Clausal.Main
import Clausal.Proofs.Assignment.Cleaning
import Clausal.Proofs.Assignment.Composition
import Clausal.Proofs.Assignment.Readings
import Clausal.Proofs.Assignment.Selection
import Clausal.Proofs.Assignment.ThroughNames
import Clausal.Proofs.Assignment.Union
import Clausal.Proofs.Assignment.Values
import Clausal.Proofs.Clause.Counting
import Clausal.Proofs.Clause.Entailment
import Clausal.Proofs.Clause.Members
import Clausal.Proofs.Clause.Propagation
import Clausal.Proofs.Clause.Resolution
import Clausal.Proofs.ClauseList.Coverage
import Clausal.Proofs.CommandLine.FileTree
import Clausal.Proofs.CommandLine.Passes
import Clausal.Proofs.CommandLine.Run
import Clausal.Proofs.Computation.Calls
import Clausal.Proofs.Dimacs.ClauseLine
import Clausal.Proofs.Dimacs.Layout
import Clausal.Proofs.Dimacs.WellFormed
import Clausal.Proofs.Extraction.Canonical
import Clausal.Proofs.Extraction.Constants
import Clausal.Proofs.Extraction.Deferred
import Clausal.Proofs.Literal.Range
import Clausal.Proofs.ValueAssignment
import Clausal.Proofs.ValueAssignment.Building
import Clausal.Proofs.VariableMap.Numbering
import Clausal.Proofs.VariableMap.RoundTrip
import Clausal.Proofs.VariableMap.Sorting
