import LinearRefutation.IndexMap
import LinearRefutation.Json.Decimal
import LinearRefutation.Json.Value

/-!
# Typed JSON

A `Codec` gives a type its JSON form. Writing always produces one form; reading accepts a few more,
but never takes a string for a number or the other way round, and never rounds.

* An index is a plain decimal number below `2 ^ 64`.
* A natural number is the array of its digits in base `2 ^ 32`, lowest first. Zeros at the end are
  accepted.
* An integer is the array of its sign `-1`, `0` or `1` and of the natural number that is its
  absolute value. With sign `0` the absolute value does not matter.
* A map is an object whose names are indices; of entries with the same index the last one counts.
* A record is an object with its fields by name, in any order and among others, or the array of its
  fields in order.
-/

namespace LinearRefutation.Json

/-- How values of a type are written as JSON, and read from it. -/
class Codec (α : Type) where
  encode : α → Value
  decode? : Value → Option α

namespace Codec

/-- The JSON text of a value. -/
def write {α : Type} [Codec α] (a : α) : String := String.ofList (encode a).text

/-- The value with this JSON text. -/
def read? {α : Type} [Codec α] (text : String) : Option α :=
  (Value.parse? text.toList).bind decode?

end Codec

/-! ## Numbers -/

namespace Value

/-- The form of a plain natural number. -/
def natural (n : Nat) : Value := .scalar (.number (Decimal.write n))

/-- The plain natural number below `limit` with this form. -/
def natural? (limit : Nat) : Value → Option Nat
  | .scalar (.number text) => (Decimal.read? text).filter (· < limit)
  | _ => none

/-- The form of a plain integer. -/
def integer (k : Int) : Value := .scalar (.number (Decimal.writeInt k))

/-- The plain integer with this form. -/
def integer? : Value → Option Int
  | .scalar (.number text) => Decimal.readInt? text
  | _ => none

/-- The form of a truth value. -/
def truth (b : Bool) : Value := .scalar (.bool b)

/-- The truth value with this form. -/
def truth? : Value → Option Bool
  | .scalar (.bool b) => some b
  | _ => none

/-- The form of an optional value: `null` stands for none. -/
def optional {α : Type} (encode : α → Value) : Option α → Value
  | none => .scalar .null
  | some a => encode a

/-- The optional value with this form. -/
def optional? {α : Type} (decode? : Value → Option α) : Value → Option (Option α)
  | .scalar .null => some none
  | value => (decode? value).map some

end Value

/-- Indices are below this number. -/
def indexLimit : Nat := 18446744073709551616

/-- The base in which natural numbers are written. -/
def base : Nat := 4294967296

/-- The digits of a natural number in base `base`, lowest first and without zeros at the end. -/
def digits (n : Nat) : List Nat :=
  if h : n = 0 then []
  else
    have : n / base < n := Nat.div_lt_self (Nat.pos_of_ne_zero h) (by decide)
    n % base :: digits (n / base)

/-- The natural number with these digits in base `base`, lowest first. -/
def ofDigits (digits : List Nat) : Nat := digits.foldr (fun digit high => digit + base * high) 0

instance : Codec Nat where
  encode n := .array ((digits n).map Value.natural)
  decode?
    | .array items => (items.mapM (Value.natural? base)).map ofDigits
    | _ => none

instance : Codec Int where
  encode k := .array [.integer k.sign, Codec.encode k.natAbs]
  decode?
    | .array [sign, magnitude] => do
      let sign ← Value.integer? sign
      let magnitude : Nat ← Codec.decode? magnitude
      if sign = -1 ∨ sign = 0 ∨ sign = 1 then some (sign * magnitude) else none
    | _ => none

/-! ## Maps -/

instance {β : Type} [Codec β] : Codec (IndexMap β) where
  encode m := .object (m.toList.map fun entry => (Decimal.write entry.1, Codec.encode entry.2))
  decode?
    | .object members => do
      let entries ← members.mapM fun (name, value) => do
        let index ← (Decimal.read? name).filter (· < indexLimit)
        return (index, ← Codec.decode? value)
      return Ascending.ofList entries
    | _ => none

/-! ## Records -/

namespace Value

/-- The form of a record. -/
def record (fields : List (String × Value)) : Value :=
  .object (fields.map fun (name, value) => (name.toList, value))

/-- The values of the fields of a record, none for those that are missing. Fields with other names
are passed over, but a field must not occur twice. -/
def fields? (names : List String) : Value → Option (List (Option Value))
  | .array items =>
    if items.length ≤ names.length then
      some (items.map some ++ List.replicate (names.length - items.length) none)
    else
      none
  | .object members => do
    let members ← members.mapM fun (name, value) => return (← Escape.read? name, value)
    names.mapM fun name =>
      match members.filter (·.1 = name) with
      | [] => some none
      | [(_, value)] => some (some value)
      | _ => none
  | .scalar _ => none

/-- The value of a field that must be there. -/
def required? {α : Type} (decode? : Value → Option α) (field : Option Value) : Option α :=
  field.bind decode?

/-- The value of a field, or `default` if it is missing. -/
def field? {α : Type} (default : α) (decode? : Value → Option α) : Option Value → Option α
  | none => some default
  | some value => decode? value

end Value

end LinearRefutation.Json
