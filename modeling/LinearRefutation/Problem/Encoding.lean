import LinearRefutation.Comparison
import LinearRefutation.Problem.Basic

/-!
# Homogeneous encoding of a problem

An oracle knows only homogeneous comparisons. The encoding of a problem stands variable `0` for the
constant one and variable `i + 1` for variable `i` of the problem. A hypothesis becomes the
comparison of its normal form; an equality becomes two, one for each sign, so that it can be used
with either. The last comparison is `0 < 1`, written `-1·x₀ < 0`.
-/

namespace LinearRefutation

/-- Where a comparison of the encoding comes from: a hypothesis, with the signs changed or not, or
the fact `0 < 1`. -/
inductive Origin where
  | hypothesis (index : Nat) (negated : Bool)
  | positivity
deriving DecidableEq, Repr, Inhabited

/-- The comparisons that an oracle is asked about, in order, each with its origin. -/
structure Encoding where
  entries : List (Comparison × Origin)
deriving DecidableEq, Inhabited

namespace Encoding

/-- The comparisons in order. -/
def comparisons (encoding : Encoding) : List Comparison := encoding.entries.map Prod.fst

/-- The origins in order. -/
def origins (encoding : Encoding) : List Origin := encoding.entries.map Prod.snd

/-- The largest variable that occurs. -/
def maxVar (encoding : Encoding) : Nat :=
  (encoding.comparisons.filterMap Comparison.maxVar?).max?.getD 0

end Encoding

/-- The comparison of an expression with zero, with the constant as the coefficient of variable `0`
and all variables moved up by one. -/
def AffineExpr.encode (e : AffineExpr) (rel : Comparator) : Comparison :=
  ⟨rel, .ofTerms ((0, e.constant) :: e.form.terms.toList.map fun t => (t.1 + 1, t.2))⟩

/-- The comparisons of the hypothesis with number `index`. -/
def Hypothesis.encode (h : Hypothesis) (index : Nat) : List (Comparison × Origin) :=
  let (e, rel) := h.normalize
  let stated := (e.encode rel, .hypothesis index false)
  if rel = .eq then [stated, ((-e).encode rel, .hypothesis index true)] else [stated]

/-- The comparison `0 < 1`. -/
def Comparison.positivity : Comparison := ⟨.lt, .ofTerms [(0, -1)]⟩

/-- The comparisons of all hypotheses, and `0 < 1`. -/
def Problem.encode (p : Problem) : Encoding where
  entries := (p.hypotheses.mapIdx fun index h => h.encode index).flatten
    ++ [(.positivity, .positivity)]

end LinearRefutation
