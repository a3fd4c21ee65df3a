/-!
# Tokens of a database

A database is a sequence of tokens: fifteen keywords, each a dollar sign and one more character,
and words. A word is a label, a math symbol, a file name or a piece of a proof; which of these it
is depends on where it stands, so the token itself does not say.

Seven of the keywords introduce statements. They are grouped by whether the statement has a label,
because that is the first thing a reader decides about them: a declaration (`$c`, `$v`, `$d`) has
none, and a labelled statement (`$f`, `$e`, `$a`, `$p`) must have one.
-/

namespace Metamath

/-- The statements without label. -/
inductive Declaration where
  /-- `$c`: constants -/
  | constants
  /-- `$v`: variables -/
  | vars
  /-- `$d`: variables that are pairwise disjoint -/
  | disjoint
  deriving DecidableEq, Repr, Inhabited

/-- The statements with label. -/
inductive Labelled where
  /-- `$f`: the typecode of a variable -/
  | floating
  /-- `$e`: a hypothesis of the assertions in its block -/
  | essential
  /-- `$a`: an assertion taken for granted -/
  | axiomatic
  /-- `$p`: an assertion with a proof -/
  | provable
  deriving DecidableEq, Repr, Inhabited

/-- What a keyword that introduces a statement introduces. -/
inductive Kind where
  | declaration (declaration : Declaration)
  | labelled (labelled : Labelled)
  deriving DecidableEq, Repr, Inhabited

/-- The fifteen keywords. -/
inductive Keyword where
  /-- the first token of a statement, apart from its label -/
  | statement (kind : Kind)
  /-- opens a block -/
  | blockOpen
  /-- closes a block -/
  | blockClose
  /-- `$=`: separates a provable statement from its proof -/
  | proofStart
  /-- `$.`: ends a statement -/
  | terminator
  /-- `$[`: opens an inclusion -/
  | includeOpen
  /-- `$]`: closes an inclusion -/
  | includeClose
  /-- `$(`: opens a comment -/
  | commentOpen
  /-- `$)`: closes a comment -/
  | commentClose
  deriving DecidableEq, Repr, Inhabited

inductive Token where
  | keyword (keyword : Keyword)
  | word (text : String)
  deriving DecidableEq, Repr, Inhabited

def Declaration.text : Declaration → String
  | .constants => "$c"
  | .vars => "$v"
  | .disjoint => "$d"

def Labelled.text : Labelled → String
  | .floating => "$f"
  | .essential => "$e"
  | .axiomatic => "$a"
  | .provable => "$p"

def Kind.text : Kind → String
  | .declaration d => d.text
  | .labelled l => l.text

namespace Keyword

def text : Keyword → String
  | .statement kind => kind.text
  | blockOpen => "$\x7b"
  | blockClose => "$\x7d"
  | proofStart => "$="
  | terminator => "$."
  | includeOpen => "$["
  | includeClose => "$]"
  | commentOpen => "$("
  | commentClose => "$)"

/-- The keyword that is written with the given character after the dollar sign. -/
def ofChar? : Char → Option Keyword
  | 'c' => some (statement (.declaration .constants))
  | 'v' => some (statement (.declaration .vars))
  | 'd' => some (statement (.declaration .disjoint))
  | 'f' => some (statement (.labelled .floating))
  | 'e' => some (statement (.labelled .essential))
  | 'a' => some (statement (.labelled .axiomatic))
  | 'p' => some (statement (.labelled .provable))
  | '\x7b' => some blockOpen
  | '\x7d' => some blockClose
  | '=' => some proofStart
  | '.' => some terminator
  | '[' => some includeOpen
  | ']' => some includeClose
  | '(' => some commentOpen
  | ')' => some commentClose
  | _ => none

end Keyword

namespace Token

def text : Token → String
  | .keyword k => k.text
  | .word w => w

/-- The token that a run of non-blank characters is. Only a whole run can be a keyword: a longer
run that starts with one is a word. -/
def ofRun : List Char → Token
  | ['$', c] =>
    match Keyword.ofChar? c with
    | some k => keyword k
    | none => word (String.ofList ['$', c])
  | run => word (String.ofList run)

end Token

/-- Whether a word starts with a dollar sign. Such a word is no label, no symbol and no proof step,
because dollar signs are kept for keywords. -/
def startsWithDollar (word : String) : Bool :=
  word.toList.head? == some '$'

end Metamath
