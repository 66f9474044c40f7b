import LinearRefutation.Oracle
import LinearRefutation.Statistics

/-!
# The refuter

A `Refuter` decides by elimination whether homogeneous comparisons contradict each other, and keeps
statistics over its searches. `run` takes a bound on the variables and refuses hypotheses above it,
without counting that as a search; `runAuto` takes the largest variable that occurs.
-/

namespace LinearRefutation

/-- Searches under one config and keeps the statistics of all searches since the last reset. -/
structure Refuter where
  config : Config := {}
  statistics : Statistics := {}
deriving DecidableEq, Repr, Inhabited

namespace Refuter

/-- The refuter with its statistics set to zero. -/
def resetStatistics (r : Refuter) : Refuter := { r with statistics := {} }

/-- The first hypothesis that mentions a variable above `maxVar`, with its largest variable. -/
def unbound? (hypotheses : List Comparison) (maxVar : Nat) : Option (Nat × Nat) :=
  hypotheses.zipIdx.findSome? fun (c, index) =>
    c.maxVar?.bind fun var => if maxVar < var then some (index, var) else none

/-- One more than the largest variable that occurs, zero if none does. -/
def bound (hypotheses : List Comparison) : Nat :=
  ((hypotheses.filterMap Comparison.maxVar?).max?.map (· + 1)).getD 0

/-- Search for a contradiction by eliminating the variables below `bound`. -/
def search (r : Refuter) (hypotheses : List Comparison) (bound : Nat) :
    Logged (Except Fault Verdict) × Refuter :=
  let run := Run.search r.config (FactSet.ofHypotheses hypotheses) bound
  ({ value := run.verdict, events := run.events },
    { r with statistics := r.statistics + run.statistics })

/-- Search for a contradiction between hypotheses whose variables are at most `maxVar`. -/
def run (r : Refuter) (hypotheses : List Comparison) (maxVar : Nat) :
    Logged (Except Fault Verdict) × Refuter :=
  match unbound? hypotheses maxVar with
  | some (index, var) => ({ value := .error (.unboundVariable index var maxVar) }, r)
  | none => r.search hypotheses (maxVar + 1)

/-- Search for a contradiction between hypotheses. -/
def runAuto (r : Refuter) (hypotheses : List Comparison) : Logged (Except Fault Verdict) × Refuter :=
  r.search hypotheses (bound hypotheses)

/-- Search for a certificate. -/
def produce (r : Refuter) (hypotheses : List Comparison) (maxVar : Nat) :
    Logged (Except Fault (Option Certificate)) × Refuter :=
  let (answer, r) := r.run hypotheses maxVar
  ({ answer with value := answer.value.map Verdict.certificate? }, r)

instance : Oracle Refuter where
  name _ := "fourier-motzkin"
  produce := produce

end Refuter

end LinearRefutation
