import Metamath.Json.Lexer

/-!
# Values of JSON

A value is put together from tokens by keeping the arrays and objects that are open. So the tokens
are read once, from left to right, and the number of open arrays and objects is the depth of
nesting, which is bounded.

Objects keep their members as they are written, also if a name occurs twice; what to make of that is
up to the one who reads the object.
-/

namespace Metamath.Json

inductive Value where
  | null
  | boolean (value : Bool)
  | number (number : Number)
  | string (text : String)
  | array (items : List Value)
  | object (members : List (String × Value))
  deriving Repr, Inhabited

/-- An array or object that is open, with its finished contents (the last one first). -/
inductive Container where
  | array (items : List Value)
  /-- an object in which the value of the given name comes next -/
  | object (members : List (String × Value)) (name : String)

/-- What may come next. -/
inductive Expected where
  /-- a value -/
  | value
  /-- a value or the end of an array -/
  | valueOrEnd
  /-- the name of a member -/
  | name (members : List (String × Value))
  /-- the name of a member or the end of an object -/
  | nameOrEnd
  /-- the colon after a name -/
  | colon (members : List (String × Value)) (name : String)
  /-- after this value a comma or the end of what it stands in -/
  | separator (value : Value)

/-- Arrays and objects nest at most this deep. -/
def maxDepth : Nat := 127

/-- The containers that are open, the innermost one first, and what may come next. -/
structure Parsing where
  containers : List Container
  expected : Expected

namespace Parsing

def start : Parsing := ⟨[], .value⟩

/-- The value that has been read, if it is complete. -/
def result? (parsing : Parsing) : Option Value :=
  match parsing with
  | ⟨[], .separator value⟩ => some value
  | _ => none

def beginValue? (containers : List Container) (token : Lexeme) : Option Parsing :=
  match token with
  | .null => some ⟨containers, .separator .null⟩
  | .boolean value => some ⟨containers, .separator (.boolean value)⟩
  | .number number => some ⟨containers, .separator (.number number)⟩
  | .string text => some ⟨containers, .separator (.string text)⟩
  | .mark .arrayOpen =>
    if containers.length < maxDepth then some ⟨.array [] :: containers, .valueOrEnd⟩ else none
  | .mark .objectOpen =>
    if containers.length < maxDepth then some ⟨containers, .nameOrEnd⟩ else none
  | .mark _ => none

def feed? (parsing : Parsing) (token : Lexeme) : Option Parsing :=
  match parsing.expected, token, parsing.containers with
  | .value, token, containers => beginValue? containers token
  | .valueOrEnd, .mark .arrayClose, .array items :: containers =>
    some ⟨containers, .separator (.array items.reverse)⟩
  | .valueOrEnd, token, containers => beginValue? containers token
  | .nameOrEnd, .mark .objectClose, containers => some ⟨containers, .separator (.object [])⟩
  | .nameOrEnd, .string name, containers => some ⟨containers, .colon [] name⟩
  | .name members, .string name, containers => some ⟨containers, .colon members name⟩
  | .colon members name, .mark .colon, containers =>
    some ⟨.object members name :: containers, .value⟩
  | .separator value, .mark .comma, .array items :: containers =>
    some ⟨.array (value :: items) :: containers, .value⟩
  | .separator value, .mark .arrayClose, .array items :: containers =>
    some ⟨containers, .separator (.array (value :: items).reverse)⟩
  | .separator value, .mark .comma, .object members name :: containers =>
    some ⟨containers, .name ((name, value) :: members)⟩
  | .separator value, .mark .objectClose, .object members name :: containers =>
    some ⟨containers, .separator (.object ((name, value) :: members).reverse)⟩
  | _, _, _ => none

end Parsing

/-- Read a value that makes up a whole text. -/
def Value.parse? (text : String) : Option Value := do
  let tokens ← lex? text
  let parsing ← tokens.foldlM Parsing.feed? Parsing.start
  parsing.result?

end Metamath.Json
