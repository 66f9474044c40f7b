import LinearRefutation.Json.Forms
import LinearRefutation.Meaning
import LinearRefutation.Problem.Goal
import LinearRefutation.Proofs.Replay
import LinearRefutation.Proofs.Relaxation
import LinearRefutation.Proofs.Elimination.Step
import LinearRefutation.Proofs.Elimination.Projection
import LinearRefutation.Proofs.Elimination.Search
import LinearRefutation.Proofs.Refuter
import LinearRefutation.Proofs.Soundness
import LinearRefutation.Proofs.Completeness
import LinearRefutation.Proofs.Encoding
import LinearRefutation.Proofs.Combination
import LinearRefutation.Proofs.Decision
import LinearRefutation.Proofs.Faults
import LinearRefutation.Proofs.Elimination.Cost
import LinearRefutation.Proofs.Elimination.Filter
import LinearRefutation.Proofs.Pruning
import LinearRefutation.Proofs.Elimination.Tracing
import LinearRefutation.Proofs.Elimination.Stage
import LinearRefutation.Proofs.Bookkeeping
import LinearRefutation.Proofs.Redundancy
import LinearRefutation.Proofs.Oracle
import LinearRefutation.Proofs.Checking
import LinearRefutation.Proofs.Budgets
import LinearRefutation.Proofs.Bound
import LinearRefutation.Proofs.Elimination.Relabelling
import LinearRefutation.Proofs.Elimination.Renumbering
import LinearRefutation.Proofs.Presentation
import LinearRefutation.Proofs.Json.Lexing
import LinearRefutation.Proofs.Json.Parsing
import LinearRefutation.Proofs.Json.RoundTrip
import LinearRefutation.Proofs.Elimination.Shortest
import LinearRefutation.Proofs.Elimination.Limits
import LinearRefutation.Proofs.Verification
import LinearRefutation.Proofs.Elimination.Cancelling
import LinearRefutation.Proofs.Canonical
import LinearRefutation.Proofs.Provenance
import LinearRefutation.Proofs.Elimination.Counts
import LinearRefutation.Proofs.Statistics
import LinearRefutation.Proofs.Order
import LinearRefutation.Proofs.Rendering
