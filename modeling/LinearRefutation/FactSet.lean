import LinearRefutation.Fact

/-!
# Sets of facts

A `FactSet` holds facts in the order of their comparisons, at most one for each comparison: facts
with the same comparison are the same fact to it, whatever their derivations.
-/

namespace LinearRefutation

/-- Facts in the order of their comparisons, no two with the same one. -/
abbrev FactSet := Ascending Fact.comparison

namespace FactSet

/-- The facts of a list of hypotheses; of equal hypotheses the last one counts. -/
def ofHypotheses (hypotheses : List Comparison) : FactSet :=
  Ascending.ofList (hypotheses.mapIdx Fact.ofHypothesis)

/-- The first fact that states `0 < 0`. -/
def contradiction? (facts : FactSet) : Option Fact := facts.toList.find? Fact.isContradiction

/-- The facts in which a variable has a positive coefficient. -/
def positive (facts : FactSet) (var : Nat) : FactSet :=
  facts.filter fun p => 0 < p.comparison.coeff var

/-- The facts in which a variable has a negative coefficient. -/
def negative (facts : FactSet) (var : Nat) : FactSet :=
  facts.filter fun p => p.comparison.coeff var < 0

/-- The facts in which a variable does not occur. -/
def absent (facts : FactSet) (var : Nat) : FactSet :=
  facts.filter fun p => p.comparison.coeff var = 0

/-- Every fact with a positive coefficient paired with every fact with a negative one, in the order
of the set. -/
def opposed (facts : FactSet) (var : Nat) : List (Fact × Fact) :=
  let negatives := (negative facts var).toList
  (positive facts var).toList.flatMap fun p => negatives.map fun q => (p, q)

end FactSet

end LinearRefutation
