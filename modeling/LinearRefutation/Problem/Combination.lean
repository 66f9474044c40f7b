import LinearRefutation.Certificate
import LinearRefutation.Problem.Encoding

/-!
# Combinations of hypotheses

A `Combination` is a certificate in terms of the hypotheses of a problem: a coefficient for each,
which may be negative for an equality, and the number of times that `0 < 1` is added. It checks when
the sum is a constant that fails its comparison with zero.

A combination may come from anywhere; checking it looks at every entry, also at those that are zero.
-/

namespace LinearRefutation

/-- A sum of multiples of hypotheses and of the fact `0 < 1`, which is added `positivity` times. -/
structure Combination where
  coefficients : IndexMap Int := .empty
  positivity : Nat := 0
deriving DecidableEq, Inhabited

namespace Combination

/-- Add a multiple of a comparison of the encoding, in terms of its origin. -/
def credit (origins : List Origin) (comb : Combination) (entry : Nat × Nat) : Combination :=
  match origins[entry.1]? with
  | some (.hypothesis index negated) =>
    let k : Int := if negated then -entry.2 else entry.2
    { comb with coefficients := IndexMap.alter comb.coefficients index 0 (· + k) }
  | some .positivity => { comb with positivity := comb.positivity + entry.2 }
  | none => comb

/-- The combination that a certificate over the comparisons of an encoding amounts to. Entries
without an origin are left out, and so are coefficients that cancel. -/
def ofCertificate (cert : Certificate) (origins : List Origin) : Combination :=
  let comb := cert.multipliers.toList.foldl (credit origins) {}
  { comb with coefficients := IndexMap.without comb.coefficients 0 }

/-- The coefficient of a hypothesis, zero when it is not listed. -/
def coefficient (comb : Combination) (hypothesis : Nat) : Int :=
  IndexMap.getD comb.coefficients hypothesis 0

/-! ## Checking -/

/-- Why a combination has no sum: it lists a hypothesis that the problem does not have, it takes an
inequality with a negative coefficient, or a multiple could not be formed. -/
inductive Flaw where
  | missing (hypothesis : Nat)
  | negative (hypothesis : Nat)
  | unscalable (fault : Fault)
deriving DecidableEq, Repr

/-- An expression and how it compares with zero: the sum of the hypotheses taken so far. -/
abbrev Residue := AffineExpr × Comparator

/-- Add one listed multiple to a sum of hypotheses. An entry that is zero must still be
admissible. -/
def addMultiple (hypotheses : List Hypothesis) (sum : Residue) (entry : Nat × Int) :
    Except Flaw Residue :=
  match hypotheses[entry.1]? with
  | none => .error (.missing entry.1)
  | some h =>
    let (e, rel) := h.normalize
    if rel ≠ .eq ∧ entry.2 < 0 then .error (.negative entry.1)
    else if entry.2 = 0 then .ok sum
    else
      match e.scale entry.2 with
      | .ok multiple => .ok (sum.1 + multiple, sum.2.join rel)
      | .error fault => .error (.unscalable fault)

/-- What `0 < 1`, taken `positivity` times, contributes to the sum. -/
def base (comb : Combination) : Residue :=
  (.const (-comb.positivity), if comb.positivity = 0 then .eq else .lt)

/-- The sum of the listed multiples. -/
def residue (comb : Combination) (hypotheses : List Hypothesis) : Except Flaw Residue :=
  comb.coefficients.toList.foldlM (addMultiple hypotheses) comb.base

/-- Whether the sum is a constant that fails its comparison with zero. -/
def check (comb : Combination) (p : Problem) : Bool :=
  match comb.residue p.hypotheses with
  | .ok (sum, rel) => sum.isConstant && rel.violatedBy sum.constant
  | .error _ => false

end Combination

end LinearRefutation
