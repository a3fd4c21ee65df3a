import Metamath.Token

/-!
# Cutting a text into tokens

Tokens are the maximal runs of characters other than space, tab, line feed, carriage return and
form feed. Every such run is a token, so cutting a text never fails.

There are two ways to read them. `lex` cuts a whole text and tells for each token the byte offset
where it ends. A `Cursor` stands somewhere in a text and hands out one token at a time, which is
what a reader needs that interrupts one file to read another. A cursor can be placed at any
character boundary by its byte offset.
-/

namespace Metamath

/-- The blanks that separate the tokens of a database. -/
def isSeparator (c : Char) : Bool :=
  c == ' ' || c == '\t' || c == '\n' || c == '\r' || c == '\x0c'

/-- The number of bytes that characters take in UTF-8. -/
def byteCount : List Char → Nat
  | [] => 0
  | c :: rest => c.utf8Size + byteCount rest

/-- A token together with the byte offset where it ends. -/
structure Lexeme where
  token : Token
  /-- the number of bytes of the source up to the end of the token -/
  stop : Nat
  deriving DecidableEq, Repr

/-- Cut a text into tokens, where `run` holds the characters (last one first) of the token that
is being read, and `offset` counts the bytes before the rest of the text. -/
def lexFrom (offset : Nat) (run : List Char) : List Char → List Lexeme
  | [] => if run.isEmpty then [] else [⟨Token.ofRun run.reverse, offset⟩]
  | c :: rest =>
    if isSeparator c then
      if run.isEmpty then lexFrom (offset + c.utf8Size) [] rest
      else ⟨Token.ofRun run.reverse, offset⟩ :: lexFrom (offset + c.utf8Size) [] rest
    else lexFrom (offset + c.utf8Size) (c :: run) rest

/-- The tokens of a source with their end offsets. -/
def lex (source : String) : List Lexeme :=
  lexFrom 0 [] source.toList

/-- What is left of a text after its first `n` bytes, unless they end inside of a character or
after the end of the text. -/
def dropBytes : Nat → List Char → Option (List Char)
  | 0, text => some text
  | _ + 1, [] => none
  | n + 1, c :: rest =>
    if c.utf8Size ≤ n + 1 then dropBytes (n + 1 - c.utf8Size) rest else none

/-- A place between two characters of a source. -/
structure Cursor where
  /-- the text after this place -/
  rest : List Char
  /-- the number of bytes before this place -/
  offset : Nat
  deriving DecidableEq, Repr

namespace Cursor

def start (source : String) : Cursor :=
  ⟨source.toList, 0⟩

/-- The place with the given byte offset, if there is one. -/
def at? (source : String) (offset : Nat) : Option Cursor :=
  (dropBytes offset source.toList).map fun rest => ⟨rest, offset⟩

/-- The tokens after this place. A place inside of a token starts with what is left of it. -/
def lexemes (cursor : Cursor) : List Lexeme :=
  lexFrom cursor.offset [] cursor.rest

def finish (cursor : Cursor) : Cursor :=
  ⟨[], cursor.offset + byteCount cursor.rest⟩

/-- The next token and the place after it, or nothing if only blanks are left. -/
def token? (cursor : Cursor) : Option (Token × Cursor) :=
  let blanks := cursor.rest.takeWhile isSeparator
  match cursor.rest.dropWhile isSeparator with
  | [] => none
  | c :: text =>
    let run := c :: text.takeWhile (!isSeparator ·)
    some (Token.ofRun run,
      ⟨text.dropWhile (!isSeparator ·), cursor.offset + byteCount blanks + byteCount run⟩)

/-- Reading a token uses up characters, so reading on and on comes to an end. -/
theorem length_rest_lt_of_token? {cursor next : Cursor} {token : Token}
    (hread : cursor.token? = some (token, next)) :
    next.rest.length < cursor.rest.length := by
  unfold token? at hread
  have hblanks := (List.dropWhile_sublist isSeparator (l := cursor.rest)).length_le
  split at hread
  · cases hread
  · rename_i c text hrest
    have hrun := (List.dropWhile_sublist (!isSeparator ·) (l := text)).length_le
    simp only [Option.some.injEq, Prod.mk.injEq] at hread
    rw [← hread.2]
    rw [hrest, List.length_cons] at hblanks
    simp only
    omega

end Cursor

end Metamath
