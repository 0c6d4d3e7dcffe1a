import OnePass.Main
import OnePass.Proofs.Munch
import OnePass.Proofs.Refill
import OnePass.Proofs.Emission
import OnePass.Proofs.Rules
import OnePass.Proofs.Reductions
import OnePass.Proofs.Execution
import OnePass.Proofs.Shift
import OnePass.Proofs.Balance
import OnePass.Proofs.Depth
import OnePass.Proofs.ShiftReduce
import OnePass.Proofs.Generation
import OnePass.Proofs.Lockstep
import OnePass.Proofs.Rejection
import OnePass.Proofs.Parsing
import OnePass.Proofs.Conclusion
import OnePass.Proofs.Statements
import OnePass.Proofs.Layouts
import OnePass.Proofs.Tiling
import OnePass.Proofs.Discipline
import OnePass.Proofs.Conduct
import OnePass.Proofs.Boundaries
import OnePass.Proofs.StackShape
import OnePass.Proofs.Programs
import OnePass.Proofs.Reading
import OnePass.Proofs.Meaning
import OnePass.Proofs.Simulation
import OnePass.Proofs.Preservation
import OnePass.Proofs.Direct
import OnePass.Proofs.Height
import OnePass.Proofs.Pointers
import OnePass.Proofs.Correspondence
import OnePass.Proofs.ScopeStack
import OnePass.Proofs.Alignment
import OnePass.Proofs.Naming
import OnePass.Proofs.Incremental
import OnePass.Proofs.Characters
import OnePass.Proofs.Spelling
import OnePass.Proofs.Acceptance
import OnePass.Proofs.SourceText
import OnePass.Proofs.Footprint
import OnePass.Proofs.StructSizes
import OnePass.Proofs.StructText
import OnePass.Proofs.Unharmed
import OnePass.Proofs.Breakdown
import OnePass.Proofs.Conservation
import OnePass.Proofs.Rows
import OnePass.Proofs.RowPrograms
import OnePass.Proofs.Rendering
import OnePass.Proofs.Budget
import OnePass.Proofs.Operands
import OnePass.Proofs.Citations
import OnePass.Proofs.Lookahead
