import LinearRefutation.AffineExpr
import LinearRefutation.Comparator

/-!
# Hypotheses

A `Hypothesis` relates two affine expressions. Its normal form moves everything to one side and
turns `≥` and `>` around, so that only `=`, `≤` and `<` against zero remain.
-/

namespace LinearRefutation

/-- How the left side of a hypothesis relates to the right one. -/
inductive Relation where
  | lt
  | le
  | eq
  | ge
  | gt
deriving DecidableEq, Repr, Inhabited

namespace Relation

/-- The relation that holds exactly when this one fails. Equality has none. -/
def negate? : Relation → Option Relation
  | .lt => some .ge
  | .le => some .gt
  | .eq => none
  | .ge => some .lt
  | .gt => some .le

/-- The usual sign. -/
def symbol : Relation → String
  | .lt => "<"
  | .le => "≤"
  | .eq => "="
  | .ge => "≥"
  | .gt => ">"

end Relation

/-- A relation between two affine expressions. -/
@[ext]
structure Hypothesis where
  lhs : AffineExpr
  rel : Relation
  rhs : AffineExpr
deriving DecidableEq, Inhabited

namespace Hypothesis

/-- The expression and the comparator with which the hypothesis compares it with zero. -/
def normalize (h : Hypothesis) : AffineExpr × Comparator :=
  match h.rel with
  | .lt => (h.lhs - h.rhs, .lt)
  | .le => (h.lhs - h.rhs, .le)
  | .eq => (h.lhs - h.rhs, .eq)
  | .ge => (h.rhs - h.lhs, .le)
  | .gt => (h.rhs - h.lhs, .lt)

/-- The hypotheses one of which holds when this one fails: one for an inequality, `>` and `<` for an
equality. -/
def negations (h : Hypothesis) : List Hypothesis :=
  match h.rel.negate? with
  | some rel => [{ h with rel }]
  | none => [{ h with rel := .gt }, { h with rel := .lt }]

/-- The text `lhs R rhs`. -/
def render (h : Hypothesis) : String := s!"{h.lhs.render} {h.rel.symbol} {h.rhs.render}"

end Hypothesis

end LinearRefutation
