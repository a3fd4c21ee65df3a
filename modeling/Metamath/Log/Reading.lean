import Metamath.Database
import Metamath.Log.Message

/-!
# The log of reading a database

The messages are determined by the moves that reading and verifying make, so they are not recorded
on the way. They are found by going through the same moves once more: the functions here call the
functions that do the work and look at what those return.
-/

namespace Metamath

/-- The successive states of a run with the inputs that led to them, up to the step that fails. -/
def Log.trail {σ ι ε : Type} (step : σ → ι → Except ε σ) (state : σ) : List ι → List (ι × σ)
  | [] => []
  | input :: rest =>
    match step state input with
    | .ok next => (input, next) :: trail step next rest
    | .error _ => []

namespace Proof

/-- The message about a step that led to the given stack. -/
def Step.messages (step : Step) (stack : Stack Statement) : List Log.Message :=
  match step, stack.top? with
  | .assertion a, some conclusion => [.applied a conclusion]
  | _, _ => []

namespace Context

def performMessages (context : Context) (step : Step) (stack : Stack Statement) :
    List Log.Message :=
  match context.perform step stack with
  | .ok next => step.messages next
  | .error _ => []

def replayMessages (context : Context) (floating : List Typing) (essential : List Statement)
    (proof : List Symbol) : List Log.Message :=
  match proof with
  | "(" :: rest =>
    match context.decompress floating essential rest with
    | .error _ => []
    | .ok (steps, codes) =>
      (Log.trail (context.execute steps) .empty codes).flatMap fun (code, memory) =>
        match code with
        | .save => []
        | .index number => ((steps[number]?).map (·.messages memory.stack)).getD []
  | _ =>
    (Log.trail context.advance .empty proof).flatMap fun (label, stack) =>
      match context.step label with
      | .ok step => step.messages stack
      | .error _ => []

end Context

end Proof

def Inclusion.Item.messages : Inclusion.Item → List Log.Message
  | token t => [.token t]
  | imported path => [.importing path]
  | skipped path => [.skipping path]
  | fault _ => []

namespace Database

def Check.messages (check : Check) : List Log.Message :=
  [.verifying check.label]
    ++ check.context.replayMessages check.assertion.floating check.assertion.essential check.proof
    ++ match check.run with
      | .ok () => [.verified check.label]
      | .error _ => []

namespace Reading

/-- The messages about a token that led from one reading to the next: it was a label, or it
completed a hypothesis or an axiom. -/
def feedMessages (reading next : Reading) : List Log.Message :=
  match reading.phase, next.phase with
  | .outer none, .outer (some label) =>
    .label label :: if reading.builder.bounds.stop == some label then [.stopping label] else []
  | .stating _ label _, .outer _ =>
    ((next.builder.labels.get? label).map fun entry => Log.Message.defined label entry).toList
  | _, _ => []

/-- The messages about reading items, where `verify` tells whether checks are run at once. -/
def messages (verify : Bool) (reading : Reading) : List Inclusion.Item → List Log.Message
  | [] => []
  | item :: rest =>
    if reading.builder.stopped then []
    else
      item.messages ++
        match item with
        | .imported _ | .skipped _ => reading.messages verify rest
        | .fault _ => []
        | .token token =>
          match reading.feed token with
          | .refused _ _ => []
          | .more next => reading.feedMessages next ++ next.messages verify rest
          | .check check next =>
            if verify then
              check.messages ++
                match check.run with
                | .ok () => next.messages verify rest
                | .error _ => []
            else next.messages verify rest

end Reading

def Builder.readMessages (builder : Builder) (verify : Bool) (items : List Inclusion.Item) :
    List Log.Message :=
  (Reading.start builder).messages verify items

end Database

def Source.openMessages (system : FileSystem) : Source → List Log.Message
  | file path =>
    match system.canonical path with
    | .ok canonical => [.importing canonical]
    | .error _ => []
  | text _ _ => []

def Database.loadMessages (system : FileSystem) (bounds : Database.Bounds) (source : Source) :
    List Log.Message :=
  source.openMessages system ++
    match source.includer system with
    | .error _ => []
    | .ok includer =>
      (Database.Builder.new bounds).readMessages true (includer.items system)

end Metamath
