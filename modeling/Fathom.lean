import Fathom.Main
import Fathom.Table
import Fathom.Proofs.Answers
import Fathom.Proofs.Layers
import Fathom.Proofs.Lockstep
import Fathom.Proofs.Levelled
import Fathom.Proofs.Queue
import Fathom.Proofs.Rounds
import Fathom.Proofs.Paths
import Fathom.Proofs.Moves
import Fathom.Proofs.Minimize
import Fathom.Proofs.Layered
import Fathom.Proofs.PlainTable
import Fathom.Proofs.Optimality
import Fathom.Proofs.Life
import Fathom.Proofs.Improvement
import Fathom.Proofs.Contract
import Fathom.Proofs.Routing.Tableau
import Fathom.Proofs.Routing.Matching
import Fathom.Proofs.Routing.Tree
import Fathom.Proofs.Routing.Search
import Fathom.Proofs.Routing.Placement
import Fathom.Proofs.Routing.Optimum
import Fathom.Proofs.Routing.Decoding
import Fathom.Proofs.Routing.Routes
import Fathom.Proofs.Routing.Joining
import Fathom.Proofs.Routing.Completion
import Fathom.Proofs.Routing.Exploration
import Fathom.Proofs.Routing.Enumeration
import Fathom.Proofs.Routing.Precedence
import Fathom.Proofs.Routing.Relaxation
import Fathom.Proofs.Routing.Visiting
import Fathom.Proofs.Routing.Continuation
import Fathom.Proofs.Routing.Inference
import Fathom.Proofs.Routing.Folding
import Fathom.Proofs.Routing.FoldedLayers
import Fathom.Proofs.Routing.Formulation
import Fathom.Proofs.Routing.Agreement
import Fathom.Proofs.Routing.Equivalence
import Fathom.Proofs.Routing.Pairing
import Fathom.Proofs.Tracing
import Fathom.Proofs.Turns
import Fathom.Proofs.Accounting
import Fathom.Proofs.Product
import Fathom.Proofs.Faults
import Fathom.Proofs.Routing.Robust
import Fathom.Proofs.Routing.Safety
import Fathom.Proofs.Sorting
import Fathom.Proofs.PopOrder
import Fathom.Proofs.Merging
import Fathom.Proofs.ExactLayers
import Fathom.Proofs.ClosedGaps
import Fathom.Proofs.Floor
import Fathom.Proofs.Routing.Adjacency
import Fathom.Proofs.Routing.Loops
import Fathom.Proofs.Routing.Forcing
import Fathom.Proofs.Routing.Acceptance
import Fathom.Proofs.Output.Reading
import Fathom.Proofs.Routing.Consistency
import Fathom.Proofs.Routing.Ordering
import Fathom.Proofs.Truncation
