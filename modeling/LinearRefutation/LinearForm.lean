import LinearRefutation.IndexMap
import LinearRefutation.Fault

/-!
# Linear forms with integer coefficients

A `LinearForm` is a sum `Σ cᵢ·xᵢ` kept as the map of its nonzero coefficients, so two forms with the
same coefficients are equal. Every operation is given by what it does to `coeff`: `ofTerms` sums the
terms of each variable, `+` adds coefficients, `-` negates them and `multiply k` multiplies them by
`k`.

`scale` is multiplication by a natural number that refuses the factor zero: a scaled form always
mentions the same variables.
-/

namespace LinearRefutation

/-- A sum of integer multiples of variables, without zero coefficients. -/
@[ext]
structure LinearForm where
  terms : IndexMap Int
  nonzero : ∀ term ∈ terms.toList, term.2 ≠ 0
deriving DecidableEq

namespace LinearForm

/-- The form without variables. -/
def zero : LinearForm := ⟨Ascending.empty, fun _ h => nomatch h⟩

instance : Zero LinearForm := ⟨zero⟩

instance : Inhabited LinearForm := ⟨zero⟩

/-- The coefficient of a variable, zero when the variable does not occur. -/
def coeff (form : LinearForm) (var : Nat) : Int := IndexMap.getD form.terms var 0

/-- Whether a variable occurs. -/
def contains (form : LinearForm) (var : Nat) : Bool := form.terms.contains var

/-- The variables that occur. -/
def vars (form : LinearForm) : IndexSet := IndexMap.keys form.terms

/-- The largest variable that occurs. -/
def maxVar? (form : LinearForm) : Option Nat := IndexMap.maxKey? form.terms

/-- The number of variables that occur. -/
def size (form : LinearForm) : Nat := form.terms.size

/-- Whether no variable occurs. -/
def isZero (form : LinearForm) : Bool := form.terms.isEmpty

/-! ## Arithmetic -/

/-- Add one term: the variable is stored with the new coefficient, or not at all if that is zero. -/
def addTerm (form : LinearForm) (term : Nat × Int) : LinearForm :=
  let sum := form.coeff term.1 + term.2
  if h : sum = 0 then
    ⟨form.terms.erase term.1, fun t ht => form.nonzero t (List.mem_filter.mp ht).1⟩
  else
    ⟨form.terms.insert (term.1, sum), fun t ht => by
      rcases Ascending.mem_of_mem_insert ht with rfl | ht
      · exact h
      · exact form.nonzero t ht⟩

/-- The sum of a list of terms; a variable may occur in several of them. -/
def ofTerms (terms : List (Nat × Int)) : LinearForm := terms.foldl addTerm 0

/-- The sum of two forms. -/
def add (left right : LinearForm) : LinearForm := right.terms.toList.foldl addTerm left

instance : Add LinearForm := ⟨add⟩

/-- The form with all coefficients multiplied by a nonzero integer. -/
def multiply (k : Int) (hk : k ≠ 0) (form : LinearForm) : LinearForm :=
  ⟨IndexMap.mapValues (k * ·) form.terms, fun t ht => by
    obtain ⟨s, hs, rfl⟩ := List.mem_map.mp ht
    exact Int.mul_ne_zero hk (form.nonzero s hs)⟩

/-- The form with all signs changed. -/
def neg (form : LinearForm) : LinearForm := form.multiply (-1) (by decide)

instance : Neg LinearForm := ⟨neg⟩

/-- The form multiplied by a natural number, which must not be zero. -/
def scale (factor : Nat) (form : LinearForm) : Except Fault LinearForm :=
  if h : factor = 0 then .error .zeroFactor
  else .ok (form.multiply factor (Int.natCast_ne_zero.mpr h))

/-! ## Order

Forms are ordered by their ascending sequences of (variable, coefficient) pairs, lexicographically;
a proper initial part comes first. -/

/-- Terms are compared by variable, then by coefficient. -/
instance : Ord (Nat × Int) := lexOrd

instance : Ord LinearForm := ⟨compareOn fun form => form.terms.toList⟩

instance : Std.TransOrd LinearForm :=
  inferInstanceAs (Std.TransCmp (compareOn fun form : LinearForm => form.terms.toList))

instance : Std.LawfulEqOrd LinearForm where
  eq_of_compare h :=
    LinearForm.ext (Ascending.ext (Std.LawfulEqOrd.eq_of_compare h))

/-! ## Text -/

/-- The text `c*xv` of a term. -/
def renderTerm (term : Nat × Int) : String := s!"{term.2}*x{term.1}"

/-- The terms joined by `+`, or `0` without any. -/
def render (form : LinearForm) : String :=
  if form.isZero then "0" else String.intercalate " + " (form.terms.toList.map renderTerm)

end LinearForm

end LinearRefutation
