import Metamath.Label
import Metamath.Token

/-!
# Log messages

What happens while a database is read and searched can be followed in a log. Each message has a
level, and a log of some level holds the messages of that level and of the more severe ones.
-/

namespace Metamath.Log

/-- How important a message is. -/
inductive Level where
  | warn
  | info
  | debug
  | trace
  deriving DecidableEq, Repr

/-- The levels from the most severe one. -/
def Level.rank : Level → Nat
  | warn => 0
  | info => 1
  | debug => 2
  | trace => 3

def Level.text : Level → String
  | warn => "WARN"
  | info => "INFO"
  | debug => "DEBUG"
  | trace => "TRACE"

inductive Message where
  /-- a file is read -/
  | importing (path : String)
  /-- a file was read before -/
  | skipping (path : String)
  /-- a token was read -/
  | token (token : Token)
  /-- a label was read -/
  | label (label : Symbol)
  /-- the label to stop at was read -/
  | stopping (label : Symbol)
  /-- a hypothesis or an axiom was read -/
  | defined (label : Symbol) (entry : Entry)
  /-- a proof is going to be verified -/
  | verifying (label : Symbol)
  /-- a proof step applied an assertion -/
  | applied (assertion : Assertion) (conclusion : Statement)
  /-- a proof was verified -/
  | verified (label : Symbol)
  /-- a search was started -/
  | started (label : Symbol)
  /-- a request asked for a namespace, of which there are none -/
  | ignored (scope : String)
  /-- a tactic failed -/
  | failed (reason : String)
  /-- a goal was deferred -/
  | deferred (goal : Statement)
  /-- a deferred goal was proved -/
  | redeemed (goal : Statement)
  /-- a goal was added -/
  | added (goal : Statement)
  /-- no goal is left, but some were deferred -/
  | unfinished (count : Nat)
  /-- a search was ended -/
  | cleared (search : Nat)
  deriving Repr

namespace Message

def level : Message → Level
  | unfinished _ => .warn
  | importing _ | stopping _ | verified _ => .info
  | token _ | label _ | ignored _ => .trace
  | _ => .debug

def text : Message → String
  | importing path => "importing " ++ path
  | skipping path => "skipping already imported " ++ path
  | .token t => "token " ++ t.text
  | .label l => "label " ++ l
  | stopping l => "stopping at " ++ l
  | defined l entry => l ++ " " ++ entry.text
  | verifying l => "verifying " ++ l
  | applied assertion conclusion =>
    "apply " ++ assertion.text ++ " yields " ++ Statement.text conclusion
  | verified l => "verified " ++ l
  | started l => "init search for " ++ l
  | ignored scope => "ignoring namespace " ++ scope
  | failed reason => "session failed: " ++ reason
  | deferred goal => "defer " ++ Statement.text goal
  | redeemed goal => "proved deferred goal " ++ Statement.text goal
  | added goal => "new goal " ++ Statement.text goal
  | unfinished count => "no goals left, but " ++ toString count ++ " deferred goals"
  | cleared search => "cleared search " ++ toString search

def line (message : Message) : String :=
  message.level.text ++ " " ++ message.text

end Message

/-- The lines of a log of the given level. -/
def lines (level : Level) (messages : List Message) : List String :=
  (messages.filter fun message => message.level.rank ≤ level.rank).map Message.line

end Metamath.Log
