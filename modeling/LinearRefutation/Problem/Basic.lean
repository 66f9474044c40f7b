import LinearRefutation.Config
import LinearRefutation.Hypothesis

/-!
# Problems

A `Problem` is a list of hypotheses, numbered in the order in which they were assumed, with the
budgets for refuting them.
-/

namespace LinearRefutation

/-- Hypotheses to refute or to prove goals from, and the config of the searches for that. -/
structure Problem where
  hypotheses : List Hypothesis := []
  config : Config := {}
deriving DecidableEq, Inhabited

namespace Problem

/-- The problem with one more hypothesis at the end. -/
def extend (p : Problem) (h : Hypothesis) : Problem := { p with hypotheses := p.hypotheses ++ [h] }

/-- Assume a hypothesis; it gets the number returned. -/
def assume (p : Problem) (h : Hypothesis) : Nat × Problem := (p.hypotheses.length, p.extend h)

/-- The number of hypotheses. -/
def size (p : Problem) : Nat := p.hypotheses.length

/-- Whether there are no hypotheses. -/
def isEmpty (p : Problem) : Bool := p.hypotheses.isEmpty

end Problem

end LinearRefutation
