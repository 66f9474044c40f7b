/-!
# Comparisons with zero

A `Comparator` says how a quantity compares with zero: equal, at most, or below. They are ordered by
strength in sums: adding facts gives one with the strongest comparator among them.
-/

namespace LinearRefutation

/-- How a quantity compares with zero. -/
inductive Comparator where
  | eq
  | le
  | lt
deriving DecidableEq, Repr, Inhabited

namespace Comparator

/-- The place in the order `=`, `≤`, `<`. -/
def rank : Comparator → Nat
  | .eq => 0
  | .le => 1
  | .lt => 2

/-- Different comparators have different ranks. -/
theorem rank_injective {a b : Comparator} (h : a.rank = b.rank) : a = b := by
  cases a <;> cases b <;> simp_all [rank]

instance : Ord Comparator := ⟨compareOn rank⟩

instance : Std.TransOrd Comparator := inferInstanceAs (Std.TransCmp (compareOn rank))

instance : Std.LawfulEqOrd Comparator where
  eq_of_compare h := rank_injective (Std.LawfulEqOrd.eq_of_compare h)

/-- The comparator of a sum: the stronger of the two. -/
def join (a b : Comparator) : Comparator := if a.rank ≤ b.rank then b else a

/-- Whether equality with zero is excluded. -/
def isStrict (a : Comparator) : Bool := a = .lt

/-- Whether the constant `k` fails to compare with zero in this way. -/
def violatedBy (a : Comparator) (k : Int) : Bool :=
  match a with
  | .eq => k ≠ 0
  | .le => 0 < k
  | .lt => 0 ≤ k

/-- The usual sign. -/
def symbol : Comparator → String
  | .eq => "="
  | .le => "≤"
  | .lt => "<"

/-- The name under which the comparator is stored. -/
def name : Comparator → String
  | .eq => "Eq"
  | .le => "Le"
  | .lt => "Lt"

/-- The comparator stored under this name. -/
def ofName? (name : String) : Option Comparator :=
  if name = "Eq" then some .eq
  else if name = "Le" then some .le
  else if name = "Lt" then some .lt
  else none

end Comparator

end LinearRefutation
