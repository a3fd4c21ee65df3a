import Metamath.Json.Number

/-!
# Tokens of JSON

The text is read character by character. Between tokens only the four blanks of JSON may stand.
Strings are decoded while they are read: a control character inside of a string is refused, and so
is an escaped surrogate that is not half of a pair.
-/

namespace Metamath.Json

inductive Mark where
  | objectOpen
  | objectClose
  | arrayOpen
  | arrayClose
  | comma
  | colon
  deriving DecidableEq, Repr

inductive Lexeme where
  | mark (mark : Mark)
  | string (text : String)
  | number (number : Number)
  | null
  | boolean (value : Bool)
  deriving DecidableEq, Repr

/-- The place between two characters. The characters read of a token are kept with the last one
first. -/
inductive Mode where
  /-- between tokens -/
  | blank
  /-- inside of a number -/
  | number (chars : List Char)
  /-- inside of a name -/
  | name (chars : List Char)
  /-- inside of a string -/
  | string (chars : List Char)
  /-- after a backslash -/
  | escape (chars : List Char)
  /-- inside of an escape by four hexadecimal digits, after a first half of a pair or not -/
  | code (chars : List Char) (high : Option Nat) (count value : Nat)
  /-- after the first half of a pair -/
  | high (chars : List Char) (high : Nat)
  /-- after the first half of a pair and a backslash -/
  | highEscape (chars : List Char) (high : Nat)
  deriving DecidableEq, Repr

def Mark.ofChar? : Char → Option Mark
  | '\x7b' => some objectOpen
  | '\x7d' => some objectClose
  | '[' => some arrayOpen
  | ']' => some arrayClose
  | ',' => some comma
  | ':' => some colon
  | _ => none

/-- Whether a character may stand between tokens. -/
def isJsonBlank (c : Char) : Bool :=
  c == ' ' || c == '\t' || c == '\n' || c == '\r'

def isNumeric (c : Char) : Bool :=
  c.isDigit || c == '-' || c == '+' || c == '.' || c == 'e' || c == 'E'

def hexDigit? (c : Char) : Option Nat :=
  if c.isDigit then some (c.toNat - '0'.toNat)
  else if 'a' ≤ c ∧ c ≤ 'f' then some (c.toNat - 'a'.toNat + 10)
  else if 'A' ≤ c ∧ c ≤ 'F' then some (c.toNat - 'A'.toNat + 10)
  else none

/-- The character that a letter after a backslash stands for. -/
def escaped? : Char → Option Char
  | '"' => some '"'
  | '\\' => some '\\'
  | '/' => some '/'
  | 'b' => some '\x08'
  | 'f' => some '\x0c'
  | 'n' => some '\n'
  | 'r' => some '\r'
  | 't' => some '\t'
  | _ => none

/-- The names that are values. -/
def Lexeme.ofName? (name : List Char) : Option Lexeme :=
  if name = ['n', 'u', 'l', 'l'] then some null
  else if name = ['t', 'r', 'u', 'e'] then some (boolean true)
  else if name = ['f', 'a', 'l', 's', 'e'] then some (boolean false)
  else none

/-- The mode and the finished token after a character between tokens. -/
def Mode.begin? (c : Char) : Option (Option Lexeme × Mode) :=
  if isJsonBlank c then some (none, blank)
  else if c = '"' then some (none, string [])
  else
    match Mark.ofChar? c with
    | some mark => some (some (.mark mark), blank)
    | none =>
      if c.isDigit || c == '-' then some (none, number [c])
      else if c.isLower then some (none, name [c])
      else none

/-- The mode after the last digit of an escape by four hexadecimal digits. -/
def Mode.afterCode? (chars : List Char) (first : Option Nat) (value : Nat) : Option Mode :=
  match first with
  | none =>
    if 0xD800 ≤ value ∧ value < 0xDC00 then some (high chars value)
    else if 0xDC00 ≤ value ∧ value < 0xE000 then none
    else some (string (Char.ofNat value :: chars))
  | some first =>
    if 0xDC00 ≤ value ∧ value < 0xE000 then
      some (string
        (Char.ofNat (0x10000 + (first - 0xD800) * 0x400 + (value - 0xDC00)) :: chars))
    else none

/-- The token that a number or a name is when it ends; other modes have no token to end. -/
def Mode.end? : Mode → Option (Option Lexeme)
  | blank => some none
  | number chars =>
    match Number.ofChars? chars.reverse with
    | some n => if n.isRepresentable then some (some (.number n)) else none
    | none => none
  | name chars => (Lexeme.ofName? chars.reverse).map some
  | _ => none

/-- The mode and the finished tokens after a character. -/
def Mode.step? (mode : Mode) (c : Char) : Option (List Lexeme × Mode) :=
  match mode with
  | blank => (begin? c).map fun (token, mode) => (token.toList, mode)
  | number chars =>
    if isNumeric c then some ([], number (c :: chars)) else leave (number chars)
  | name chars =>
    if c.isLower then some ([], name (c :: chars)) else leave (name chars)
  | string chars =>
    if c = '"' then some ([.string (String.ofList chars.reverse)], blank)
    else if c = '\\' then some ([], escape chars)
    else if c.toNat < 0x20 then none
    else some ([], string (c :: chars))
  | escape chars =>
    if c = 'u' then some ([], code chars none 0 0)
    else (escaped? c).map fun char => ([], string (char :: chars))
  | code chars first count value =>
    match hexDigit? c with
    | none => none
    | some digit =>
      if count = 3 then
        (afterCode? chars first (value * 16 + digit)).map fun mode => ([], mode)
      else some ([], code chars first (count + 1) (value * 16 + digit))
  | high chars first => if c = '\\' then some ([], highEscape chars first) else none
  | highEscape chars first => if c = 'u' then some ([], code chars (some first) 0 0) else none
where
  /-- The character ends a token and may begin the next one. -/
  leave (mode : Mode) : Option (List Lexeme × Mode) :=
    match mode.end?, begin? c with
    | some ended, some (token, mode) => some (ended.toList ++ token.toList, mode)
    | _, _ => none

/-- Cut a text into tokens, if it consists of tokens. -/
def lexFrom? (mode : Mode) : List Char → Option (List Lexeme)
  | [] => mode.end?.map Option.toList
  | c :: rest =>
    match mode.step? c with
    | none => none
    | some (tokens, mode) => (lexFrom? mode rest).map (tokens ++ ·)

def lex? (text : String) : Option (List Lexeme) :=
  lexFrom? .blank text.toList

end Metamath.Json
