/-!
# Strings as they are written

Between its quotes a JSON string is written in units: a plain character, an escaped one, or the
number of a UTF-16 unit in hexadecimal. `units?` reads the units and refuses control characters and
unknown escapes. `read?` goes on to the text: numbers of a surrogate pair stand for one character,
and a surrogate without its partner stands for none.
-/

namespace LinearRefutation.Json.Escape

/-- One unit of a written string: a character, plain or escaped, or a UTF-16 unit by its number. -/
inductive CodeUnit where
  | char (c : Char)
  | code (n : Nat)
deriving DecidableEq, Repr

/-- The value of a hexadecimal digit. -/
def hexDigit? (c : Char) : Option Nat :=
  if c.isDigit then some (c.toNat - '0'.toNat)
  else if 'a' ≤ c ∧ c ≤ 'f' then some (c.toNat - 'a'.toNat + 10)
  else if 'A' ≤ c ∧ c ≤ 'F' then some (c.toNat - 'A'.toNat + 10)
  else none

/-- The number written with four hexadecimal digits. -/
def code? (a b c d : Char) : Option Nat := do
  return (((← hexDigit? a) * 16 + (← hexDigit? b)) * 16 + (← hexDigit? c)) * 16 + (← hexDigit? d)

/-- The character that a one-letter escape stands for. -/
def short? : Char → Option Char
  | '"' => some '"'
  | '\\' => some '\\'
  | '/' => some '/'
  | 'b' => some '\x08'
  | 'f' => some '\x0c'
  | 'n' => some '\n'
  | 'r' => some '\r'
  | 't' => some '\t'
  | _ => none

/-- Whether a character must not be written plainly because it is a control character. -/
def isControl (c : Char) : Bool := c.toNat < 32

/-- The units of a written string. -/
def units? : List Char → Option (List CodeUnit)
  | [] => some []
  | '\\' :: 'u' :: a :: b :: c :: d :: rest => do
    return .code (← code? a b c d) :: (← units? rest)
  | '\\' :: c :: rest => do return .char (← short? c) :: (← units? rest)
  | c :: rest =>
    if c = '\\' ∨ isControl c then none else (units? rest).map (.char c :: ·)

/-- Whether a number is that of the first half of a surrogate pair. -/
def isHigh (n : Nat) : Bool := 0xD800 ≤ n && n < 0xDC00

/-- Whether a number is that of the second half of a surrogate pair. -/
def isLow (n : Nat) : Bool := 0xDC00 ≤ n && n < 0xE000

/-- The characters that units stand for. -/
def chars? : List CodeUnit → Option (List Char)
  | [] => some []
  | .char c :: rest => (chars? rest).map (c :: ·)
  | .code high :: .code low :: rest =>
    if isHigh high && isLow low then
      (chars? rest).map (Char.ofNat (0x10000 + (high - 0xD800) * 0x400 + (low - 0xDC00)) :: ·)
    else if isHigh high || isLow high then none
    else (chars? (.code low :: rest)).map (Char.ofNat high :: ·)
  | .code n :: rest =>
    if isHigh n || isLow n then none else (chars? rest).map (Char.ofNat n :: ·)

/-- The text of a written string. -/
def read? (body : List Char) : Option String := do
  return String.ofList (← chars? (← units? body))

end LinearRefutation.Json.Escape
