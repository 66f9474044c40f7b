import LinearRefutation.IndexMap

/-!
# Derivations

A `Derivation` records how a fact was built from hypotheses by sums and multiples. `multipliers`
reads off how often it uses each hypothesis. A multiple by zero keeps the hypotheses below it, with
multiplicity zero.
-/

namespace LinearRefutation

/-- How a fact was built: it is the hypothesis with a number, a sum, or a multiple. -/
inductive Derivation where
  | hypothesis (index : Nat)
  | sum (left right : Derivation)
  | multiple (factor : Nat) (of : Derivation)
deriving DecidableEq, Repr, Inhabited

namespace Derivation

/-- Count further uses of a hypothesis. -/
def addMultiplier (counts : IndexMap Nat) (entry : Nat × Nat) : IndexMap Nat :=
  IndexMap.alter counts entry.1 0 (· + entry.2)

/-- How often each hypothesis is used, counted with the factors above it. -/
def multipliers : Derivation → IndexMap Nat
  | .hypothesis index => Ascending.singleton (index, 1)
  | .sum left right => right.multipliers.toList.foldl addMultiplier left.multipliers
  | .multiple factor of => IndexMap.mapValues (· * factor) of.multipliers

/-- The text `#n`, `(a + b)` or `(k * a)`. -/
def render : Derivation → String
  | .hypothesis index => s!"#{index}"
  | .sum left right => s!"({left.render} + {right.render})"
  | .multiple factor of => s!"({factor} * {of.render})"

end Derivation

end LinearRefutation
