import SoftError.Ascending
import SoftError.Buckets
import SoftError.Circuit.Ascii
import SoftError.Circuit.Basic
import SoftError.Circuit.Binary
import SoftError.Circuit.Error
import SoftError.Circuit.Evaluation
import SoftError.Circuit.File
import SoftError.Circuit.Header
import SoftError.Circuit.Order
import SoftError.Circuit.Signal
import SoftError.Circuit.Table
import SoftError.Circuit.Traversal
import SoftError.Circuit.WellFormed
import SoftError.Decision.Backend
import SoftError.Decision.Canonical
import SoftError.Decision.Certificate
import SoftError.Decision.DiagramSession
import SoftError.Decision.Error
import SoftError.Decision.Problem
import SoftError.Decision.Procedure
import SoftError.Decision.Refinement
import SoftError.Decision.Search
import SoftError.Decision.SearchSession
import SoftError.Decision.Solver
import SoftError.Decision.Transcript
import SoftError.Diagram.Basic
import SoftError.Diagram.Chooser
import SoftError.Diagram.Evaluation
import SoftError.Diagram.Sharing
import SoftError.Encoding.Conjunctions
import SoftError.Encoding.Encoder
import SoftError.Encoding.OneHot
import SoftError.Encoding.Pool
import SoftError.Encoding.Transition
import SoftError.Error
import SoftError.Fault.Component
import SoftError.Fault.Replay
import SoftError.Formula.Basic
import SoftError.Formula.Dimacs
import SoftError.Formula.Error
import SoftError.Formula.LitSet
import SoftError.Formula.Literal
import SoftError.Formula.Model
import SoftError.Formula.Propagation
import SoftError.Formula.Resolution
import SoftError.Formula.Substitution
import SoftError.Formula.Subsumption
import SoftError.Learning.Basic
import SoftError.Learning.Conflict
import SoftError.Learning.Order
import SoftError.Learning.Propagation
import SoftError.Learning.State
import SoftError.Options
import SoftError.Path
import SoftError.Proofs.Ascending
import SoftError.Proofs.Circuit.Acceptance
import SoftError.Proofs.Circuit.Deltas
import SoftError.Proofs.Circuit.Order
import SoftError.Proofs.Circuit.Pointwise
import SoftError.Proofs.Circuit.Reading
import SoftError.Proofs.Circuit.Runs
import SoftError.Proofs.Circuit.Semantics
import SoftError.Proofs.Circuit.Settled
import SoftError.Proofs.Circuit.Values
import SoftError.Proofs.Circuit.Written
import SoftError.Proofs.Decision.Answering
import SoftError.Proofs.Decision.Cores
import SoftError.Proofs.Decision.Diagrams
import SoftError.Proofs.Decision.Machine
import SoftError.Proofs.Decision.Progress
import SoftError.Proofs.Decision.ReturnedModels
import SoftError.Proofs.Decision.Search
import SoftError.Proofs.Decision.Session
import SoftError.Proofs.Diagram.Ordered
import SoftError.Proofs.Diagram.Pointwise
import SoftError.Proofs.Diagram.Reduced
import SoftError.Proofs.Encoding.Calls
import SoftError.Proofs.Encoding.Cardinality
import SoftError.Proofs.Encoding.Encoder
import SoftError.Proofs.Encoding.Functional
import SoftError.Proofs.Encoding.OneHot
import SoftError.Proofs.Encoding.Remembered
import SoftError.Proofs.Encoding.Transition
import SoftError.Proofs.Fault.Choice
import SoftError.Proofs.Fault.Injection
import SoftError.Proofs.Fault.Recovery
import SoftError.Proofs.Fault.Replay
import SoftError.Proofs.Fault.Restart
import SoftError.Proofs.Formula.AcceptedText
import SoftError.Proofs.Formula.Addition
import SoftError.Proofs.Formula.Canonical
import SoftError.Proofs.Formula.Dimacs
import SoftError.Proofs.Formula.Elimination
import SoftError.Proofs.Formula.Models
import SoftError.Proofs.Formula.NormalForm
import SoftError.Proofs.Formula.Substitution
import SoftError.Proofs.Formula.Subsumption
import SoftError.Proofs.Outcome
import SoftError.Proofs.Protection.Exact
import SoftError.Proofs.Protection.Exposure
import SoftError.Proofs.Protection.ManySteps
import SoftError.Proofs.Protection.OneStep
import SoftError.Proofs.Protection.QuietStep
import SoftError.Proofs.Protection.Soundness
import SoftError.Proofs.Protection.Unrolled
import SoftError.Proofs.Protection.Windows
import SoftError.Proofs.Stimulus.Admits
import SoftError.Proofs.Stimulus.Expansion
import SoftError.Proofs.Stimulus.Written
import SoftError.Proofs.Superfluous.Exact
import SoftError.Proofs.Superfluous.GoldenAlarm
import SoftError.Proofs.Superfluous.Harmless
import SoftError.Proofs.Superfluous.Search
import SoftError.Proofs.Superfluous.Shortcut
import SoftError.Proofs.Superfluous.Stages
import SoftError.Proofs.Superfluous.Step
import SoftError.Proofs.Text.Line
import SoftError.Proofs.Text.Numeral
import SoftError.Proofs.Unrolling.Alarms
import SoftError.Proofs.Unrolling.Constant
import SoftError.Proofs.Unrolling.Ensemble
import SoftError.Proofs.Unrolling.Inputs
import SoftError.Proofs.Unrolling.Sharing
import SoftError.Proofs.Unrolling.Values
import SoftError.Proofs.Vulnerability.Diagrammatic
import SoftError.Proofs.Vulnerability.DiagrammaticNames
import SoftError.Proofs.Vulnerability.DiagrammaticStep
import SoftError.Proofs.Vulnerability.Engines
import SoftError.Proofs.Vulnerability.Errors
import SoftError.Proofs.Vulnerability.Explicit
import SoftError.Proofs.Vulnerability.FreeInputs
import SoftError.Proofs.Vulnerability.Incremental
import SoftError.Proofs.Vulnerability.IncrementalStep
import SoftError.Proofs.Vulnerability.OneShot
import SoftError.Proofs.Vulnerability.OneShotNames
import SoftError.Proofs.Vulnerability.OneShotStep
import SoftError.Proofs.Vulnerability.OneShotTracks
import SoftError.Proofs.Vulnerability.Results
import SoftError.Proofs.Vulnerability.Traces
import SoftError.Protection.Basic
import SoftError.Protection.ManySteps
import SoftError.Protection.OneStep
import SoftError.Stimulus.Basic
import SoftError.Stimulus.Error
import SoftError.Stimulus.Expansion
import SoftError.Stimulus.Parse
import SoftError.Stimulus.Random
import SoftError.Storage
import SoftError.Superfluous.Basic
import SoftError.Superfluous.Report
import SoftError.Superfluous.Runs
import SoftError.Text.Blank
import SoftError.Text.Hidden
import SoftError.Text.Line
import SoftError.Text.Numeral
import SoftError.Text.Quoted
import SoftError.Unrolling.Basic
import SoftError.Vulnerability.Basic
import SoftError.Vulnerability.Diagrammatic
import SoftError.Vulnerability.Explicit
import SoftError.Vulnerability.Incremental
import SoftError.Vulnerability.OneShot
import SoftError.Vulnerability.Report
import SoftError.Witness.ErrorTrace
import SoftError.Witness.Rows
import SoftError.Witness.SuperfluousTrace
