import LinearRefutation.Elimination.Pass

/-!
# A search for a contradiction

A `Run` is one search on a set of facts. A pass with the minimality filter that eliminates all
variables without contradiction is repeated without the filter, from the same facts, so that
exhaustion is always the verdict of a pass that took in every combination. A pass that hits a limit
is not repeated.
-/

namespace LinearRefutation

/-- The record of one search on the facts `seed`: the first pass, and the repetition without the
filter if there was one. -/
structure Run where
  seed : FactSet
  first : Pass
  second : Option Pass

namespace Run

/-- Search for a contradiction by eliminating the variables below `bound`. -/
def search (config : Config) (seed : FactSet) (bound : Nat) : Run :=
  let first := Pass.start config seed bound
  let second :=
    if config.prune && first.isExhausted then
      some (Pass.start (config.withPruning false) seed bound)
    else
      none
  { seed, first, second }

/-- The passes in order. -/
def passes (run : Run) : List Pass := run.first :: run.second.toList

/-- The pass that decides. -/
def last (run : Run) : Pass := run.second.getD run.first

/-- The verdict of the search, or the fault that ended it. -/
def verdict (run : Run) : Except Fault Verdict := run.last.verdict

/-- All completed rounds. -/
def rounds (run : Run) : List Round := run.passes.flatMap Pass.rounds

end Run

end LinearRefutation
