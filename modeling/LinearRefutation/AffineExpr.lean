import LinearRefutation.LinearForm

/-!
# Affine expressions

An `AffineExpr` is a constant plus a linear form. These are the two sides of a hypothesis.
-/

namespace LinearRefutation

/-- A constant plus a linear form. -/
@[ext]
structure AffineExpr where
  constant : Int := 0
  form : LinearForm := 0
deriving DecidableEq, Inhabited

namespace AffineExpr

instance : Zero AffineExpr := ⟨{}⟩

/-- The expression without variables whose value is `c`. -/
def const (c : Int) : AffineExpr := { constant := c }

/-- A multiple of a variable. -/
def term (var : Nat) (coeff : Int) : AffineExpr := { form := .ofTerms [(var, coeff)] }

/-- A variable. -/
def var (index : Nat) : AffineExpr := term index 1

/-- The sum of two expressions. -/
def add (left right : AffineExpr) : AffineExpr :=
  ⟨left.constant + right.constant, left.form + right.form⟩

instance : Add AffineExpr := ⟨add⟩

/-- The expression with all signs changed. -/
def neg (e : AffineExpr) : AffineExpr := ⟨-e.constant, -e.form⟩

instance : Neg AffineExpr := ⟨neg⟩

instance : Sub AffineExpr := ⟨fun left right => left + -right⟩

/-- The expression multiplied by an integer. The form is scaled by the absolute value, and only if
that is not zero. -/
def scale (k : Int) (e : AffineExpr) : Except Fault AffineExpr :=
  if k = 0 then
    .ok 0
  else do
    let scaled : AffineExpr := ⟨e.constant * k.natAbs, ← e.form.scale k.natAbs⟩
    return if k < 0 then -scaled else scaled

/-- Whether no variable occurs. -/
def isConstant (e : AffineExpr) : Bool := e.form.isZero

/-- The terms, each followed by `+`, and the constant last. -/
def render (e : AffineExpr) : String :=
  String.join (e.form.terms.toList.map fun t => LinearForm.renderTerm t ++ " + ")
    ++ toString e.constant

end AffineExpr

end LinearRefutation
