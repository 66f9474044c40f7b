import LinearRefutation.Json.Escape

/-!
# Tokens of JSON text

A JSON text is a sequence of tokens with blanks between them. A `Scalar` is a token that is a value
by itself; numbers and strings are kept as they are written, since what they stand for depends on
who reads them: a number may be a plain integer or not, a string may be a name or a number.
-/

namespace LinearRefutation.Json

/-- A value without parts, as it is written: a number by its text, a string by the text between its
quotes. -/
inductive Scalar where
  | null
  | bool (b : Bool)
  | number (text : List Char)
  | string (body : List Char)
deriving DecidableEq, Repr

/-- A token. -/
inductive Token where
  | scalar (s : Scalar)
  | openArray
  | closeArray
  | openObject
  | closeObject
  | colon
  | comma
deriving DecidableEq, Repr

/-! ## Writing -/

/-- The text of a scalar. -/
def Scalar.text : Scalar → List Char
  | .null => "null".toList
  | .bool true => "true".toList
  | .bool false => "false".toList
  | .number text => text
  | .string body => '"' :: body ++ ['"']

/-- The text of a token. -/
def Token.text : Token → List Char
  | .scalar s => s.text
  | .openArray => ['[']
  | .closeArray => [']']
  | .openObject => ['\x7b']
  | .closeObject => ['\x7d']
  | .colon => [':']
  | .comma => [',']

/-! ## Numbers -/

/-- What follows a nonempty run of digits. -/
def dropDigits? : List Char → Option (List Char)
  | [] => none
  | c :: rest => if c.isDigit then some (rest.dropWhile Char.isDigit) else none

/-- What follows the whole part of a number: a zero, or digits of which the first is not zero. -/
def dropWhole? : List Char → Option (List Char)
  | '0' :: rest => some rest
  | cs => dropDigits? cs

/-- What follows the fraction of a number, if it has one. -/
def dropFraction? : List Char → Option (List Char)
  | '.' :: rest => dropDigits? rest
  | cs => some cs

/-- What follows the exponent of a number, if it has one. -/
def dropExponent? : List Char → Option (List Char)
  | c :: rest =>
    if c = 'e' ∨ c = 'E' then
      match rest with
      | sign :: digits => dropDigits? (if sign = '+' ∨ sign = '-' then digits else rest)
      | [] => none
    else
      some (c :: rest)
  | [] => some []

/-- Whether a text is a number. -/
def isNumber (cs : List Char) : Bool :=
  let unsigned := match cs with
    | '-' :: rest => rest
    | _ => cs
  ((dropWhole? unsigned).bind dropFraction?).bind dropExponent? = some []

/-! ## Reading -/

/-- Whether a character may stand between tokens. -/
def isBlank (c : Char) : Bool := c = ' ' || c = '\n' || c = '\t' || c = '\r'

/-- Whether a character can continue a number or a name. -/
def isWordChar (c : Char) : Bool := c.isAlphanum || c = '+' || c = '-' || c = '.'

/-- The scalar that a word is. -/
def Scalar.ofWord? (word : List Char) : Option Scalar :=
  if word = "null".toList then some .null
  else if word = "true".toList then some (.bool true)
  else if word = "false".toList then some (.bool false)
  else if isNumber word then some (.number word)
  else none

/-- The token that a character is by itself. -/
def Token.ofChar? : Char → Option Token
  | '[' => some .openArray
  | ']' => some .closeArray
  | '\x7b' => some .openObject
  | '\x7d' => some .closeObject
  | ':' => some .colon
  | ',' => some .comma
  | _ => none

/-- The text up to the closing quote of a string, and what follows the quote. -/
def takeString? : List Char → Option (List Char × List Char)
  | [] => none
  | '"' :: rest => some ([], rest)
  | '\\' :: c :: rest => (takeString? rest).map fun (body, rest) => ('\\' :: c :: body, rest)
  | c :: rest => (takeString? rest).map fun (body, rest) => (c :: body, rest)

/-- What follows a string is shorter than what follows its opening quote. -/
theorem length_of_takeString? {cs body rest : List Char} (h : takeString? cs = some (body, rest)) :
    rest.length < cs.length := by
  fun_induction takeString? cs generalizing body rest with
  | case1 => cases h
  | case2 tail => cases h; exact Nat.lt_succ_self _
  | case3 c tail ih =>
    obtain ⟨p, hp, he⟩ := Option.map_eq_some_iff.mp h
    cases he
    exact Nat.lt_succ_of_lt (Nat.lt_succ_of_lt (ih hp))
  | case4 c tail _ _ ih =>
    obtain ⟨p, hp, he⟩ := Option.map_eq_some_iff.mp h
    cases he
    exact Nat.lt_succ_of_lt (ih hp)

/-- The tokens of a text. -/
def tokens? : List Char → Option (List Token)
  | [] => some []
  | c :: rest =>
    if isBlank c then
      tokens? rest
    else if c = '"' then
      match h : takeString? rest with
      | none => none
      | some (body, after) =>
        have := length_of_takeString? h
        if (Escape.units? body).isSome then
          (tokens? after).map (.scalar (.string body) :: ·)
        else
          none
    else
      match Token.ofChar? c with
      | some token => (tokens? rest).map (token :: ·)
      | none =>
        have := (List.dropWhile_suffix isWordChar (l := rest)).length_le
        match Scalar.ofWord? (c :: rest.takeWhile isWordChar) with
        | none => none
        | some s => (tokens? (rest.dropWhile isWordChar)).map (.scalar s :: ·)
termination_by cs => cs.length

end LinearRefutation.Json
