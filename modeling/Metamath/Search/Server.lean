import Metamath.Search.Request
import Metamath.Search.Session

/-!
# Answering requests

A server keeps the sessions of a database, each under the number that its start was answered with.
Numbers count the sessions that were started, so the number of an ended session is not given away
again.
-/

namespace Metamath.Search

structure Response where
  search : Option Nat
  /-- the text of the latest tactic state -/
  state : Option String
  /-- the number of the latest tactic state -/
  stateId : Option Nat
  error : Option String
  deriving DecidableEq, Repr, Inhabited

def Response.empty : Response := ⟨none, none, none, none⟩

def Response.refusal (search : Option Nat) (error : Error) : Response :=
  ⟨search, none, none, some error.message⟩

/-- The answer that tells the latest tactic state. -/
def Response.progress (search : Nat) (session : Session) (stateId : Nat) : Response :=
  ⟨some search, some session.state, some stateId, none⟩

/-- Sessions by their numbers, and the number of the next one. -/
structure Server where
  sessions : Std.TreeMap Nat Session
  count : Nat

namespace Server

def new : Server := ⟨∅, 0⟩

def session? (server : Server) (search : Nat) : Option Session :=
  server.sessions[search]?

/-- Start to prove the axiom or theorem with the given label. -/
def initSearch (server : Server) (database : Database) (name : Symbol) : Server × Response :=
  match Session.init database name with
  | .error error => (server, .refusal none error)
  | .ok session =>
    (⟨server.sessions.insert server.count session, server.count + 1⟩,
      .progress server.count session session.stateId)

def runTactic (server : Server) (database : Database) (search state : Nat) (tactic : String) :
    Server × Response :=
  match server.session? search with
  | none => (server, .refusal (some search) (.unknownSearch search))
  | some session =>
    let (session, result) := session.runTactic database.facts state tactic
    let server := { server with sessions := server.sessions.insert search session }
    match result with
    | .ok stateId => (server, .progress search session stateId)
    | .error error => (server, .refusal (some search) error)

def clearSearch (server : Server) (search : Nat) : Server × Response :=
  match server.session? search with
  | none => (server, .refusal (some search) (.unknownSearch search))
  | some _ => ({ server with sessions := server.sessions.erase search }, .empty)

def handle (server : Server) (database : Database) : Request → Server × Response
  | .initSearch name _ => server.initSearch database name
  | .runTactic search state tactic => server.runTactic database search state tactic
  | .clearSearch search => server.clearSearch search

end Server

end Metamath.Search
