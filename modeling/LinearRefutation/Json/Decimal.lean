/-!
# Plain decimal numbers

A natural number has exactly one plain decimal form: its digits, without sign, leading zeros or
anything else. An integer has a minus sign in front if it is negative; zero has none. Reading
accepts what writing produces and nothing more.
-/

namespace LinearRefutation.Json.Decimal

/-- The plain decimal form of a natural number. -/
def write (n : Nat) : List Char := Nat.toDigits 10 n

/-- The number with this plain decimal form. -/
def read? (text : List Char) : Option Nat :=
  let n := Nat.ofDigitChars 10 text 0
  if write n = text then some n else none

/-- The plain decimal form of an integer. -/
def writeInt (k : Int) : List Char := if k < 0 then '-' :: write k.natAbs else write k.natAbs

/-- The integer with this plain decimal form. -/
def readInt? : List Char → Option Int
  | '-' :: text => (read? text).bind fun n => if n = 0 then none else some (-n)
  | text => (read? text).map Int.ofNat

/-- A number is read back from its plain form. -/
theorem read?_write (n : Nat) : read? (write n) = some n := by
  simp [read?, write, Nat.ofDigitChars_ten_toDigits]

end LinearRefutation.Json.Decimal
