import Metamath.Log.Message
import Metamath.Search.Server

/-!
# The log of a search

As for reading, the messages are found by looking at what the operations of sessions return.
-/

namespace Metamath.Search

def Session.tacticMessages (session : Session) (facts : Facts) (id : Nat) (text : String) :
    List Log.Message :=
  if session.status = .active then
    match session.plan facts id text with
    | .error error => [.failed error.message]
    | .ok plan =>
      let next := session.execute plan
      (if plan.defers then [.deferred plan.statement]
        else if session.deferred.contains plan.statement then [.redeemed plan.statement]
        else [])
      ++ plan.subgoals.map .added
      ++ (if next.goals.isEmpty && !next.deferred.isEmpty then [.unfinished next.deferred.size]
        else [])
  else []

def Server.messages (server : Server) (database : Database) : Request → List Log.Message
  | .initSearch name scope =>
    (scope.map Log.Message.ignored).toList ++
      match Session.init database name with
      | .ok _ => [.started name]
      | .error _ => []
  | .runTactic search state tactic =>
    match server.session? search with
    | some session => session.tacticMessages database.facts state tactic
    | none => []
  | .clearSearch search => if (server.session? search).isSome then [.cleared search] else []

end Metamath.Search
