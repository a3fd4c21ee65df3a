import Metamath.Json.Value

/-!
# Writing JSON

Values are written on one line and without blanks. Only what must be escaped is escaped: quotes,
backslashes and control characters.
-/

namespace Metamath.Json

def hexDigit (n : Nat) : Char :=
  if n < 10 then Char.ofNat ('0'.toNat + n) else Char.ofNat ('a'.toNat + (n - 10))

/-- A character as it is written in a string. -/
def writeChar (c : Char) : List Char :=
  if c = '"' then ['\\', '"']
  else if c = '\\' then ['\\', '\\']
  else if c = '\x08' then ['\\', 'b']
  else if c = '\x0c' then ['\\', 'f']
  else if c = '\n' then ['\\', 'n']
  else if c = '\r' then ['\\', 'r']
  else if c = '\t' then ['\\', 't']
  else if c.toNat < 0x20 then
    ['\\', 'u', '0', '0', hexDigit (c.toNat / 16), hexDigit (c.toNat % 16)]
  else [c]

def writeString (text : String) : List Char :=
  '"' :: text.toList.flatMap writeChar ++ ['"']

def Number.write (number : Number) : List Char :=
  (if number.negative then ['-'] else []) ++ number.integer ++
    (match number.fraction with
      | none => []
      | some digits => '.' :: digits) ++
    (match number.exponent with
      | none => []
      | some (negative, digits) => 'e' :: (if negative then '-' :: digits else digits))

def Number.ofNat (n : Nat) : Number :=
  ⟨false, (toString n).toList, none, none⟩

def Value.write : Value → List Char
  | null => "null".toList
  | boolean value => (if value then "true" else "false").toList
  | number n => n.write
  | string text => writeString text
  | array items => '[' :: writeItems items ++ [']']
  | object members => '\x7b' :: writeMembers members ++ ['\x7d']
where
  /-- The items of an array, separated by commas. -/
  writeItems : List Value → List Char
    | [] => []
    | [item] => item.write
    | item :: rest => item.write ++ ',' :: writeItems rest
  /-- The members of an object, separated by commas. -/
  writeMembers : List (String × Value) → List Char
    | [] => []
    | [(name, value)] => writeString name ++ ':' :: value.write
    | (name, value) :: rest => writeString name ++ ':' :: value.write ++ ',' :: writeMembers rest

def Value.line (value : Value) : String :=
  String.ofList value.write

end Metamath.Json
