import LinearRefutation.Json.Token

/-!
# JSON values

A `Value` is read from tokens by a machine that looks at one token at a time: `step` takes what is
expected next and the arrays and objects that are still open. It has no limit on how deep values may
be nested. Objects keep all their members in the order of the text, repeated names included.

Values are written without blanks.
-/

namespace LinearRefutation.Json

/-- A JSON value. The members of an object have their names as they are written. -/
inductive Value where
  | scalar (s : Scalar)
  | array (items : List Value)
  | object (members : List (List Char × Value))

namespace Value

/-! ## Writing -/

mutual

/-- The tokens of a value. -/
def tokens : Value → List Token
  | .scalar s => [.scalar s]
  | .array items => .openArray :: (itemTokens items ++ [.closeArray])
  | .object members => .openObject :: (memberTokens members ++ [.closeObject])

/-- The tokens of the items of an array. -/
def itemTokens : List Value → List Token
  | [] => []
  | item :: rest => tokens item ++ moreItemTokens rest

/-- The tokens of items after the first. -/
def moreItemTokens : List Value → List Token
  | [] => []
  | item :: rest => .comma :: (tokens item ++ moreItemTokens rest)

/-- The tokens of the members of an object. -/
def memberTokens : List (List Char × Value) → List Token
  | [] => []
  | (name, value) :: rest =>
    .scalar (.string name) :: .colon :: (tokens value ++ moreMemberTokens rest)

/-- The tokens of members after the first. -/
def moreMemberTokens : List (List Char × Value) → List Token
  | [] => []
  | (name, value) :: rest =>
    .comma :: .scalar (.string name) :: .colon :: (tokens value ++ moreMemberTokens rest)

end

/-- The text of a value. -/
def text (value : Value) : List Char := value.tokens.flatMap Token.text

end Value

/-! ## Reading -/

/-- An array or object that is still open, an object with the name of the member that comes next.
Items and members are kept newest first. -/
inductive Frame where
  | array (items : List Value)
  | object (members : List (List Char × Value)) (name : List Char)

/-- What may come next: a value, the first item or name of a container or its end, another name in
an object, the colon after a name, or whatever can follow a complete value. -/
inductive Expecting where
  | value
  | firstItem
  | firstName
  | name (members : List (List Char × Value))
  | colon (members : List (List Char × Value)) (name : List Char)
  | following (value : Value)

/-- What may come next, and what is open, innermost first. -/
abbrev Machine := Expecting × List Frame

namespace Machine

/-- Take a token where a value may begin. -/
def beginValue (frames : List Frame) : Token → Option Machine
  | .scalar s => some (.following (.scalar s), frames)
  | .openArray => some (.firstItem, frames)
  | .openObject => some (.firstName, frames)
  | _ => none

/-- Take one token. -/
def step : Machine → Token → Option Machine
  | (.value, frames), token => beginValue frames token
  | (.firstItem, frames), .closeArray => some (.following (.array []), frames)
  | (.firstItem, frames), token => beginValue (.array [] :: frames) token
  | (.firstName, frames), .closeObject => some (.following (.object []), frames)
  | (.firstName, frames), .scalar (.string name) => some (.colon [] name, frames)
  | (.name members, frames), .scalar (.string name) => some (.colon members name, frames)
  | (.colon members name, frames), .colon => some (.value, .object members name :: frames)
  | (.following value, .array items :: frames), .comma =>
    some (.value, .array (value :: items) :: frames)
  | (.following value, .array items :: frames), .closeArray =>
    some (.following (.array (value :: items).reverse), frames)
  | (.following value, .object members name :: frames), .comma =>
    some (.name ((name, value) :: members), frames)
  | (.following value, .object members name :: frames), .closeObject =>
    some (.following (.object ((name, value) :: members).reverse), frames)
  | _, _ => none

end Machine

namespace Value

/-- The value that a list of tokens is. -/
def ofTokens? (tokens : List Token) : Option Value :=
  match tokens.foldlM Machine.step (.value, []) with
  | some (.following value, []) => some value
  | _ => none

/-- The value that a text is. -/
def parse? (text : List Char) : Option Value := (tokens? text).bind ofTokens?

end Value

end LinearRefutation.Json
