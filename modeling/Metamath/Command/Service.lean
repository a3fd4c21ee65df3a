import Metamath.Json.Printer
import Metamath.Search.Server
import Metamath.Text.Blank

/-!
# Requests line by line

After a database has been read, requests are answered line by line. A blank line is no request and
has no reply. A line that is no request has a reply, too, and the lines after it are answered as
usual. A line that is not UTF-8 ends the service.
-/

namespace Metamath.Command

open Json (Value)
open Search (Request Response Server)

inductive Reply where
  | answered (response : Response)
  /-- the line is no request -/
  | unreadable
  deriving DecidableEq, Repr

inductive Ending where
  /-- the input ended -/
  | complete
  /-- a line is not UTF-8 -/
  | invalidText
  deriving DecidableEq, Repr

/-- Reply to a line, unless it is blank. -/
def replyTo (database : Database) (server : Server) (line : String) : Server × Option Reply :=
  if Text.isBlankText line then (server, none)
  else
    match Request.parse? line with
    | none => (server, some .unreadable)
    | some request =>
      let (server, response) := server.handle database request
      (server, some (.answered response))

def lineFeed : UInt8 := 10

def carriageReturn : UInt8 := 13

/-- A line without the carriage return before its line feed. -/
def withoutReturn (line : List UInt8) : List UInt8 :=
  if line.getLast? = some carriageReturn then line.dropLast else line

/-- The first line and the lines after it. What follows the last line feed is a line unless it is
empty, and a carriage return at its end belongs to it. -/
def linesFrom (line : List UInt8) : List UInt8 → List (List UInt8)
  | [] => if line.isEmpty then [] else [line.reverse]
  | byte :: rest =>
    if byte = lineFeed then withoutReturn line.reverse :: linesFrom [] rest
    else linesFrom (byte :: line) rest

def inputLines (input : ByteArray) : List ByteArray :=
  (linesFrom [] input.toList).map fun line => ⟨line.toArray⟩

/-- Reply to lines until one is not UTF-8. -/
def serveLines (database : Database) (server : Server) :
    List ByteArray → List Reply × Ending
  | [] => ([], .complete)
  | bytes :: rest =>
    match String.fromUTF8? bytes with
    | none => ([], .invalidText)
    | some line =>
      let (server, reply) := replyTo database server line
      let (replies, ending) := serveLines database server rest
      (reply.toList ++ replies, ending)

def serve (database : Database) (input : ByteArray) : List Reply × Ending :=
  serveLines database .new (inputLines input)

def optionalText : Option String → Value
  | none => .null
  | some text => .string text

def optionalNumber : Option Nat → Value
  | none => .null
  | some n => .number (.ofNat n)

def responseValue (response : Response) : Value :=
  .object [
    ("search_id", optionalNumber response.search),
    ("tactic_state", optionalText response.state),
    ("tactic_state_id", optionalNumber response.stateId),
    ("error", optionalText response.error)]

def Reply.response : Reply → Response
  | answered response => response
  | unreadable => { Response.empty with error := some "the line is not a request" }

def Reply.line (reply : Reply) : String :=
  (responseValue reply.response).line

end Metamath.Command
