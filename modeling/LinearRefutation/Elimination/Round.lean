import LinearRefutation.Config
import LinearRefutation.FactSet

/-!
# Eliminating one variable

To eliminate a variable from a set of facts, those that do not mention it are kept, and every fact
with a positive coefficient is combined with every fact with a negative one so that the variable
cancels. A combination may be discarded by the minimality filter; of facts with the same comparison
the first with the shortest history is kept.

An `Eliminator` counts the pairs it has combined, also those of rounds that failed. A round fails as
soon as a budget is used up, and an `Abort` tells how far it came.
-/

namespace LinearRefutation

/-- What has been gathered while the opposed pairs of a set of facts are worked off: the facts kept,
how many pairs were tried, how many combinations were new (`generated`) or had the comparison of a
fact already kept (`duplicates`), and those that the minimality filter took out, newest first. -/
structure Gathering where
  facts : FactSet
  tried : Nat := 0
  generated : Nat := 0
  duplicates : Nat := 0
  discarded : List Fact := []

/-- A round that was given up: the fault, and what had been gathered by then. -/
structure Abort where
  fault : Fault
  gathered : Gathering

namespace Gathering

/-- Take in a combination in which `var` was eliminated. -/
def take (g : Gathering) (prune : Bool) (var : Nat) (combined : Fact) : Gathering :=
  if prune && !combined.mayBeMinimal var then
    { g with discarded := combined :: g.discarded }
  else
    match g.facts.find? combined.comparison with
    | none => { g with facts := g.facts.insert combined, generated := g.generated + 1 }
    | some known =>
      let better := combined.history.size < known.history.size
      { g with
        facts := if better then g.facts.insert combined else g.facts
        duplicates := g.duplicates + 1 }

/-- Give up the round on a fault. -/
def guard {α : Type} (g : Gathering) : Except Fault α → Except Abort α
  | .ok a => .ok a
  | .error fault => .error ⟨fault, g⟩

end Gathering

/-- A completed round: the variable eliminated, the facts before, and what the round gathered. -/
structure Round where
  var : Nat
  before : FactSet
  gathered : Gathering

namespace Round

/-- The facts after the round. -/
def facts (round : Round) : FactSet := round.gathered.facts

/-- How many facts had a positive coefficient. -/
def positive (round : Round) : Nat := (FactSet.positive round.before round.var).size

/-- How many facts had a negative coefficient. -/
def negative (round : Round) : Nat := (FactSet.negative round.before round.var).size

/-- How many facts did not mention the variable. -/
def untouched (round : Round) : Nat := (FactSet.absent round.before round.var).size

/-- How many pairs were tried. -/
def pairs (round : Round) : Nat := round.gathered.tried

/-- How many combinations were new. -/
def generated (round : Round) : Nat := round.gathered.generated

/-- How many combinations the filter took out. -/
def pruned (round : Round) : Nat := round.gathered.discarded.length

/-- How many combinations repeated a comparison. -/
def duplicates (round : Round) : Nat := round.gathered.duplicates

end Round

/-- Runs rounds under one config and remembers how many pairs they tried. -/
structure Eliminator where
  config : Config
  spent : Nat := 0
deriving DecidableEq, Repr, Inhabited

namespace Eliminator

/-- The eliminator with the minimality filter off. -/
def withoutPruning (e : Eliminator) : Eliminator := { e with config := e.config.withPruning false }

/-- Work off one pair. It counts as tried even if it is the one that exceeds the budget. -/
def combine (e : Eliminator) (var : Nat) (g : Gathering) (pair : Fact × Fact) :
    Except Abort Gathering := do
  let g := { g with tried := g.tried + 1 }
  g.guard (e.config.checkPairs (e.spent + g.tried))
  match ← g.guard (pair.1.eliminate? pair.2 var) with
  | none => return g
  | some combined =>
    let g := g.take e.config.prune var combined
    g.guard (e.config.checkWorkingSet g.facts.size)
    return g

/-- What the elimination of `var` gathers from a set of facts. -/
def gather (e : Eliminator) (var : Nat) (facts : FactSet) : Except Abort Gathering := do
  let start : Gathering := { facts := FactSet.absent facts var }
  start.guard (e.config.checkWorkingSet start.facts.size)
  (FactSet.opposed facts var).foldlM (e.combine var) start

/-- Eliminate `var` from a set of facts; the eliminator is charged whether or not that succeeds. -/
def eliminate (e : Eliminator) (var : Nat) (facts : FactSet) : Except Abort Round × Eliminator :=
  match e.gather var facts with
  | .ok gathered =>
    (.ok ⟨var, facts, gathered⟩, { e with spent := e.spent + gathered.tried })
  | .error abort => (.error abort, { e with spent := e.spent + abort.gathered.tried })

end Eliminator

end LinearRefutation
