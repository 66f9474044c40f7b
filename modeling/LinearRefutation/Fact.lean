import LinearRefutation.Comparison
import LinearRefutation.Derivation

/-!
# Facts

A `Fact` is a comparison that follows from the hypotheses, together with what elimination has to
know about its past: its derivation, the hypotheses in it (`history`), the variables it mentions
(`vars`), those that were eliminated on purpose (`effective`) and those that cancelled in it or on
the way to it without ever being eliminated on purpose (`implicit`).

`mayBeMinimal` compares the length of the history with the number of eliminated variables. It is the
test by which elimination discards combinations that shorter ones make redundant.
-/

namespace LinearRefutation

/-- A comparison derived from hypotheses, with the record of its derivation. A variable that
cancelled on the way may have come back since, so `implicit` and `vars` need not be disjoint. -/
structure Fact where
  comparison : Comparison
  derivation : Derivation
  history : IndexSet
  effective : IndexSet
  implicit : IndexSet
  vars : IndexSet
deriving DecidableEq, Inhabited

namespace Fact

/-- The fact that is the hypothesis with the given number. -/
def ofHypothesis (index : Nat) (c : Comparison) : Fact where
  comparison := c
  derivation := .hypothesis index
  history := .singleton index
  effective := .empty
  implicit := .empty
  vars := c.vars

/-- The fact multiplied by a natural number, which must not be zero. -/
def scale (factor : Nat) (p : Fact) : Except Fault Fact := do
  return { p with
    comparison := ← p.comparison.scale factor
    derivation := .multiple factor p.derivation }

/-- The sum of two facts in which `var` is eliminated. -/
def add (p q : Fact) (var : Nat) : Fact :=
  let c := p.comparison + q.comparison
  let effective := (p.effective ∪ q.effective).insert var
  let vanished := (p.vars ∪ q.vars).filter fun v => !c.vars.contains v
  { comparison := c
    derivation := .sum p.derivation q.derivation
    history := p.history ∪ q.history
    effective
    implicit := (vanished ∪ p.implicit ∪ q.implicit).filter fun v => !effective.contains v
    vars := c.vars }

/-- The sum of multiples of two facts in which `var` cancels. There is none unless the coefficients
of `var` have opposite signs. -/
def eliminate? (p q : Fact) (var : Nat) : Except Fault (Option Fact) :=
  match p.comparison.cancel? q.comparison var with
  | none => .ok none
  | some (m, n) => do return some ((← p.scale m).add (← q.scale n) var)

/-- Whether the fact may be minimal once all variables from `var` upwards are eliminated: its
history has at most one hypothesis more than it has eliminated variables. -/
def mayBeMinimal (p : Fact) (var : Nat) : Bool :=
  p.history.size ≤ 1 + ((p.implicit.filter fun v => var ≤ v) ∪ p.effective).size

/-- Whether the fact states `0 < 0`. -/
def isContradiction (p : Fact) : Bool := p.comparison.isContradiction

end Fact

end LinearRefutation
