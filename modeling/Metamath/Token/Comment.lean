import Metamath.Token.Lexer

/-!
# Comments

A comment is everything from `$(` to the next `$)`. Comments are flat: inside of one, neither a
`$(` nor a word that contains one of the two delimiters may occur, which catches a forgotten blank
before the closing delimiter. A `$)` outside of a comment is an ordinary token here; the reader of
statements refuses it.

`uncomment` removes the comments of a list of tokens, and `Cursor.next?` finds the next token of a
source that is not part of a comment. Neither stops at a fault: the tokens after the place where
the fault was noticed are read as if the comment had ended there.
-/

namespace Metamath

/-- What is wrong with a comment. -/
inductive CommentFault where
  /-- the source ends inside of the comment -/
  | unclosed
  /-- a token of the comment holds a comment delimiter -/
  | nested (text : String)
  deriving DecidableEq, Repr

def CommentFault.message : CommentFault → String
  | unclosed => "unclosed comment at end of file"
  | nested text =>
    "encountered token '" ++ text ++ "' while reading a comment; comments do not nest"

/-- Whether one of the two comment delimiters occurs in a text. -/
def holdsDelimiter : List Char → Bool
  | [] => false
  | c :: rest =>
    (c == '$' && (rest.head? == some '(' || rest.head? == some ')')) || holdsDelimiter rest

/-- Whether a token other than `$)` must not occur inside of a comment. -/
def Token.nestsComment : Token → Bool
  | .keyword k => k == .commentOpen
  | .word w => holdsDelimiter w.toList

/-- A token of a source without comments, or the fault of a comment, with the byte offset where it
was found. -/
structure PlainLexeme where
  content : Except CommentFault Token
  /-- the number of bytes of the source up to the end of the last token read -/
  stop : Nat

/-- Remove the comments of a list of tokens, where `inComment` tells whether the list starts inside
of one and `length` is the offset at which an unclosed comment ends. -/
def uncommentFrom (length : Nat) : (inComment : Bool) → List Lexeme → List PlainLexeme
  | false, [] => []
  | true, [] => [⟨.error .unclosed, length⟩]
  | false, lexeme :: rest =>
    if lexeme.token = .keyword .commentOpen then uncommentFrom length true rest
    else ⟨.ok lexeme.token, lexeme.stop⟩ :: uncommentFrom length false rest
  | true, lexeme :: rest =>
    if lexeme.token = .keyword .commentClose then uncommentFrom length false rest
    else if lexeme.token.nestsComment then
      ⟨.error (.nested lexeme.token.text), lexeme.stop⟩ :: uncommentFrom length false rest
    else uncommentFrom length true rest

/-- Remove the comments of a list of tokens. -/
def uncomment (length : Nat) (lexemes : List Lexeme) : List PlainLexeme :=
  uncommentFrom length false lexemes

namespace Cursor

/-- The tokens after this place without comments. -/
def plainLexemes (cursor : Cursor) : List PlainLexeme :=
  uncomment cursor.finish.offset cursor.lexemes

/-- Read on, from inside or outside of a comment, until a token that is not part of a comment or a
fault is found. -/
def scan (inComment : Bool) (cursor : Cursor) : Option (Except CommentFault Token × Cursor) :=
  match _hread : cursor.token? with
  | none => if inComment then some (.error .unclosed, cursor.finish) else none
  | some (token, next) =>
    if inComment then
      if token = .keyword .commentClose then next.scan false
      else if token.nestsComment then some (.error (.nested token.text), next)
      else next.scan true
    else if token = .keyword .commentOpen then next.scan true
    else some (.ok token, next)
termination_by cursor.rest.length
decreasing_by all_goals exact length_rest_lt_of_token? _hread

/-- The next token that is not part of a comment, and the place after it. -/
def next? (cursor : Cursor) : Option (Except CommentFault Token × Cursor) :=
  cursor.scan false

/-- A token that is handed out uses up characters. -/
theorem length_rest_lt_of_scan {inComment : Bool} {cursor next : Cursor} {token : Token}
    (hread : cursor.scan inComment = some (.ok token, next)) :
    next.rest.length < cursor.rest.length := by
  fun_induction scan inComment cursor with
  | case1 | case2 | case4 => cases hread
  | case3 cursor following hfirst ih | case5 cursor _ following hfirst _ _ ih
  | case6 _ cursor following _ hfirst ih =>
    exact Nat.lt_trans (ih hread) (length_rest_lt_of_token? hfirst)
  | case7 _ cursor first following hfirst =>
    simp only [Option.some.injEq, Prod.mk.injEq] at hread
    rw [← hread.2]
    exact length_rest_lt_of_token? ‹_›

end Cursor

end Metamath
