import NilGuard.Main
import NilGuard.Program.Builder
import NilGuard.Proofs.Idoms
import NilGuard.Proofs.Search
import NilGuard.Proofs.DomTree
import NilGuard.Proofs.Link
import NilGuard.Proofs.Valuation
import NilGuard.Proofs.Walk
import NilGuard.Proofs.History
import NilGuard.Proofs.Validator
import NilGuard.Proofs.Findings
import NilGuard.Proofs.Feasible
import NilGuard.Proofs.Run
import NilGuard.Proofs.Copy
import NilGuard.Proofs.DeadCode
import NilGuard.Proofs.Renumber
import NilGuard.Proofs.Sort
import NilGuard.Proofs.Pool
import NilGuard.Proofs.Evaluation
import NilGuard.Proofs.Layout
import NilGuard.Proofs.Loaded
import NilGuard.Proofs.Checked
import NilGuard.Proofs.Expression
import NilGuard.Proofs.Closure
import NilGuard.Proofs.Table
import NilGuard.Proofs.Header
import NilGuard.Proofs.Declaration
import NilGuard.Proofs.Extension
import NilGuard.Proofs.Bounds
import NilGuard.Proofs.Cause
import NilGuard.Proofs.Meaning
import NilGuard.Proofs.Growth
import NilGuard.Proofs.Answers
import NilGuard.Proofs.Filling
import NilGuard.Proofs.Placement
import NilGuard.Proofs.Calls
import NilGuard.Proofs.Decimal
import NilGuard.Proofs.Specification
import NilGuard.Proofs.Writing
import NilGuard.Proofs.Provenance
import NilGuard.Proofs.Matching
import NilGuard.Proofs.Numerals
import NilGuard.Proofs.Relabel
import NilGuard.Proofs.Renaming
import NilGuard.Proofs.Mirror
import NilGuard.Proofs.Wording
import NilGuard.Proofs.RenamedBody
import NilGuard.Proofs.RenamedLoad
import NilGuard.Proofs.JsonLine
import NilGuard.Proofs.Records
import NilGuard.Proofs.Preorder
import NilGuard.Proofs.Convergence
import NilGuard.Proofs.Grammar
import NilGuard.Proofs.Demand
import NilGuard.Proofs.WellFormed
import NilGuard.Proofs.Circular
import NilGuard.Proofs.Recall
import NilGuard.Proofs.Persistence
import NilGuard.Proofs.Delivery
import NilGuard.Proofs.Reading
import NilGuard.Proofs.Occurrence
import NilGuard.Proofs.Agreement
import NilGuard.Proofs.Scan
import NilGuard.Proofs.Analysis
import NilGuard.Proofs.Isolation
import NilGuard.Proofs.Settings
import NilGuard.Proofs.Respelling
import NilGuard.Proofs.DepthFirst
import NilGuard.Proofs.Logging
import NilGuard.Proofs.Requirements
import NilGuard.Proofs.Emission
import NilGuard.Proofs.Outcome
