import Metamath.Json.Value
import Metamath.Statement

/-!
# Requests

There are three requests: to start a search, to run a tactic, and to end a search. Each is written
as a JSON object whose member `cmd` names the request, or as an array of the same values in a fixed
order. Members with other names than those of the request are ignored; a member of the request that
occurs twice makes the request unreadable.
-/

namespace Metamath.Search

inductive Request where
  | initSearch (name : Symbol) (scope : Option String)
  | runTactic (search state : Nat) (tactic : String)
  | clearSearch (search : Nat)
  deriving DecidableEq, Repr

namespace Request

open Json (Value)

def text? : Value → Option String
  | .string text => some text
  | _ => none

/-- The text that a value is, where there may be none. -/
def optionalText? : Value → Option (Option String)
  | .null => some none
  | .string text => some (some text)
  | _ => none

/-- The natural number of 64 bits that a value is. -/
def natural? : Value → Option Nat
  | .number number => number.natural?
  | _ => none

/-- The value of the member with the given name, if there is exactly one. -/
def member? (members : List (String × Value)) (name : String) : Option Value :=
  match members.filter (·.1 == name) with
  | [found] => some found.2
  | _ => none

/-- The member with the given name, or null if there is none. -/
def memberOrNull? (members : List (String × Value)) (name : String) : Option Value :=
  match members.filter (·.1 == name) with
  | [] => some .null
  | [found] => some found.2
  | _ => none

/-- The request that an object writes. -/
def ofMembers? (members : List (String × Value)) : Option Request := do
  match ← text? (← member? members "cmd") with
  | "init_search" =>
    return .initSearch (← text? (← member? members "name"))
      (← optionalText? (← memberOrNull? members "namespace"))
  | "run_tac" =>
    return .runTactic (← natural? (← member? members "search_id"))
      (← natural? (← member? members "tactic_state_id"))
      (← text? (← member? members "tactic"))
  | "clear_search" => return .clearSearch (← natural? (← member? members "search_id"))
  | _ => none

/-- The request that an array writes. -/
def ofItems? : List Value → Option Request
  | .string "init_search" :: [name, scope] => do
    return .initSearch (← text? name) (← optionalText? scope)
  | .string "run_tac" :: [search, state, tactic] => do
    return .runTactic (← natural? search) (← natural? state) (← text? tactic)
  | .string "clear_search" :: [search] => do
    return .clearSearch (← natural? search)
  | _ => none

def parse? (text : String) : Option Request :=
  match Value.parse? text with
  | some (.object members) => ofMembers? members
  | some (.array items) => ofItems? items
  | _ => none

end Request

end Metamath.Search
