import LinearRefutation.Comparator
import LinearRefutation.LinearForm

/-!
# Homogeneous comparisons

A `Comparison` states that a linear form compares with zero. Comparisons are closed under sums and
under multiplication by positive numbers; `0 = 0` is the sum of none, and `0 < 0` is the only one
that contradicts itself. `cancel?` finds the least multipliers with which a variable disappears from
the sum of two comparisons.
-/

namespace LinearRefutation

/-- The statement that a linear form compares with zero. -/
@[ext]
structure Comparison where
  rel : Comparator
  form : LinearForm
deriving DecidableEq, Inhabited

namespace Comparison

/-- The statement `0 = 0`, which adds nothing to a sum. -/
def trivial : Comparison := ⟨.eq, 0⟩

/-- The coefficient of a variable. -/
def coeff (c : Comparison) (var : Nat) : Int := c.form.coeff var

/-- The variables that occur. -/
def vars (c : Comparison) : IndexSet := c.form.vars

/-- The largest variable that occurs. -/
def maxVar? (c : Comparison) : Option Nat := c.form.maxVar?

/-- The sum of two comparisons, as strong as the stronger of them. -/
def add (c d : Comparison) : Comparison := ⟨c.rel.join d.rel, c.form + d.form⟩

instance : Add Comparison := ⟨add⟩

/-- The comparison multiplied by a natural number, which must not be zero. -/
def scale (factor : Nat) (c : Comparison) : Except Fault Comparison := do
  return ⟨c.rel, ← c.form.scale factor⟩

/-- Whether the comparison is `0 < 0`. -/
def isContradiction (c : Comparison) : Bool := c.form.isZero && c.rel.isStrict

/-- The least positive multipliers with which a variable cancels in the sum of two comparisons. They
exist when its coefficients have opposite signs. -/
def cancel? (c d : Comparison) (var : Nat) : Option (Nat × Nat) :=
  let a := c.coeff var
  let b := d.coeff var
  if a * b < 0 then
    let common := a.natAbs.lcm b.natAbs
    some (common / a.natAbs, common / b.natAbs)
  else
    none

/-! ## Order

The comparator decides first, the form second. -/

instance : Ord Comparison := ⟨compareLex (compareOn rel) (compareOn form)⟩

instance : Std.TransOrd Comparison :=
  inferInstanceAs (Std.TransCmp (compareLex (compareOn rel) (compareOn form)))

instance : Std.LawfulEqOrd Comparison where
  eq_of_compare h := by
    obtain ⟨hr, hf⟩ := Ordering.then_eq_eq.mp h
    exact Comparison.ext (Std.LawfulEqOrd.eq_of_compare hr)
      (Std.LawfulEqOrd.eq_of_compare hf)

/-- The text of the form, the sign and `0`. -/
def render (c : Comparison) : String := s!"{c.form.render} {c.rel.symbol} 0"

end Comparison

end LinearRefutation
