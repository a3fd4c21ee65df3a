import Metamath.Database
import Metamath.Tactic

/-!
# Proof search sessions

A session searches a proof of an axiom or a theorem backwards. It starts with the conclusion as its
only goal. A tactic names an assertion and a substitution; if the instance of the assertion's
conclusion is the goal on top, the goal is replaced by what the instance needs: the typings of the
substituted expressions and the instances of the premises, as far as they are not known already.

A tactic may also *defer* a goal: if it names no assertion of the database, but its conclusion is
literally the goal, then the goal is accepted for the time being and its premises become goals. A
deferred goal has to be proved later in the session, by a tactic on an equal goal.

Each goal is a node that remembers the goal it was created for. A node is settled when all its
subgoals are; a settled node that depends on no deferred goal is proved and need not be proved again
in the session.

A tactic is planned before it is executed. Everything that can fail is part of the plan, so a tactic
that fails changes no goal.
-/

namespace Metamath.Search

/-- Why a request is refused. -/
inductive Error where
  | notATheorem (label : Symbol)
  | unknownSearch (id : Nat)
  /-- a tactic state that does not exist yet -/
  | unknownState (id : Nat)
  /-- a tactic state that is not the latest one of its session -/
  | staleState (id : Nat)
  | malformed (fault : TextFault)
  /-- a tactic that names neither an axiom nor a theorem -/
  | unknownFact (text : String)
  /-- a substituted variable without typecode -/
  | untypedVariable (symbol : Symbol)
  | inconsistentConclusion (expected found : Statement)
  | sessionFailed
  | sessionClosed
  deriving DecidableEq, Repr

def Error.message : Error → String
  | notATheorem label => "not a theorem: " ++ label
  | unknownSearch id => "unknown search id: " ++ toString id
  | unknownState id => "unknown tactic state id: " ++ toString id
  | staleState id => "tactic state " ++ toString id ++ " is not the latest one"
  | malformed fault => fault.message
  | unknownFact text => text ++ " is not in existing axioms or theorems"
  | untypedVariable symbol => "no typecode for variable " ++ symbol
  | inconsistentConclusion expected found =>
    "inconsistent conclusion: expected " ++ Statement.text expected ++ " but got "
      ++ Statement.text found
  | sessionFailed => "session failed before"
  | sessionClosed => "session has no goals left"

/-- Whether a session accepts tactics. -/
inductive Status where
  | active
  /-- a tactic failed -/
  | failed
  /-- no goals are left -/
  | closed
  deriving DecidableEq, Repr

/-- A goal and the goal it was created for. -/
structure Node where
  statement : Statement
  /-- the number of subgoals that are not settled yet -/
  pending : Nat
  /-- the goal whose subgoal this is -/
  parent : Option Nat
  /-- whether neither this goal nor one of its settled subgoals was deferred -/
  sound : Bool
  deriving DecidableEq, Repr

/-- A goal that gets subgoals. -/
def Node.expand (node : Node) (defers : Bool) (subgoals : List Statement) : Node :=
  { node with pending := subgoals.length, sound := node.sound && !defers }

/-- The goal above a goal that is settled. -/
def Node.settleChild (above : Node) (sound : Bool) : Node :=
  { above with sound := above.sound && sound, pending := above.pending - 1 }

/-- The goals after one of them has got subgoals. -/
def expandNodes (nodes : Array Node) (target : Nat) (defers : Bool) (subgoals : List Statement) :
    Array Node :=
  nodes.modify target (·.expand defers subgoals) ++
    (subgoals.map fun goal => Node.mk goal 0 (some target) true).toArray

/-- The numbers of the subgoals, the topmost one first. -/
def subgoalIds (nodes : Array Node) (subgoals : List Statement) : List Nat :=
  ((List.range subgoals.length).map (nodes.size + ·)).reverse

structure Session where
  /-- the texts of all tactic states, numbered from zero -/
  history : Array String
  /-- the essential hypotheses of the theorem -/
  premises : List Statement
  /-- all goals there have been -/
  nodes : Array Node
  /-- the numbers of the open goals, the topmost one first -/
  goals : List Nat
  /-- the floating hypotheses before the theorem -/
  floating : Std.TreeSet Statement
  /-- the essential hypotheses before the theorem -/
  essential : Std.TreeSet Statement
  /-- the goals that have been proved -/
  proved : Std.TreeSet Statement
  /-- the typecodes of variables -/
  types : Std.TreeMap Symbol Symbol
  /-- the goals that are deferred -/
  deferred : Std.TreeSet Statement
  status : Status

/-- What a tactic is going to do. -/
structure Plan where
  /-- the number of the goal on top -/
  target : Nat
  /-- the statement of that goal -/
  statement : Statement
  /-- whether the goal is deferred -/
  defers : Bool
  /-- the goals that replace it -/
  subgoals : List Statement
  deriving DecidableEq, Repr

namespace Session

/-- The open goals, the topmost one first. -/
def openGoals (session : Session) : List Statement :=
  session.goals.filterMap fun id => session.nodes[id]?.map Node.statement

/-- The text of the open goals, the topmost one first. Their number is given if there are several.
-/
def render (session : Session) : String :=
  match session.openGoals.map (sequentText session.premises) with
  | [] => "no goals"
  | [line] => line
  | lines => toString lines.length ++ " goals\n" ++ String.intercalate "\n" lines

/-- The text of the latest tactic state. -/
def state (session : Session) : String :=
  session.history.back?.getD ""

def stateId (session : Session) : Nat :=
  session.history.size - 1

/-- The typecodes of the variables in the given entries. The last floating hypothesis of a variable
counts. -/
def typesOf (entries : List (Symbol × Entry)) : Std.TreeMap Symbol Symbol :=
  entries.foldl (fun types entry =>
    match entry.2 with
    | .floating [typecode, v] => types.insert v typecode
    | _ => types) ∅

/-- Start to prove the axiom or theorem with the given label. -/
def init (database : Database) (label : Symbol) : Except Error Session :=
  match (database.labels.get? label).bind Entry.assertion? with
  | none => .error (.notATheorem label)
  | some assertion =>
    let before := database.labels.before label
    let session : Session :=
      { history := #[]
        premises := assertion.essential
        nodes := #[⟨assertion.conclusion, 0, none, true⟩]
        goals := [0]
        floating := Std.TreeSet.ofList (before.filterMap fun entry =>
          match entry.2 with
          | .floating statement => some statement
          | _ => none)
        essential := Std.TreeSet.ofList (before.filterMap fun entry =>
          match entry.2 with
          | .essential statement => some statement
          | _ => none)
        proved := ∅
        types := typesOf before
        deferred := ∅
        status := .active }
    .ok { session with history := #[session.render] }

/-- The typings that a substitution needs, in the order of its bindings. -/
def typings (session : Session) (σ : Substitution) : Except Error (List Statement) :=
  σ.bindings.mapM fun binding =>
    match session.types[binding.1]? with
    | some typecode => .ok (typecode :: binding.2)
    | none => .error (.untypedVariable binding.1)

/-- What an instance of an assertion needs and is not known in the session: first the typings, then
the instances of the premises. -/
def subgoals (session : Session) (typings : List Statement) (tactic : Tactic) : List Statement :=
  let typings := typings.filter fun typing =>
    !session.floating.contains typing && !session.essential.contains typing
  let premises := (tactic.goal.premises.map tactic.substitution.apply).filter fun premise =>
    !session.premises.contains premise
  (typings ++ premises).filter fun goal => !session.proved.contains goal

def planFor (session : Session) (facts : Facts) (target : Nat) (statement : Statement)
    (tactic : Tactic) : Except Error Plan := do
  let known := facts.holds tactic.goal
  if !known && tactic.goal.conclusion != statement then
    throw (.unknownFact tactic.goal.text)
  let typings ← session.typings tactic.substitution
  let found := tactic.substitution.apply tactic.goal.conclusion
  if found != statement then
    throw (.inconsistentConclusion statement found)
  return ⟨target, statement, !known, session.subgoals typings tactic⟩

/-- Plan the tactic with the given text for the tactic state with the given number. -/
def plan (session : Session) (facts : Facts) (id : Nat) (text : String) : Except Error Plan :=
  if id > session.stateId then .error (.unknownState id)
  else if id < session.stateId then .error (.staleState id)
  else
    match Tactic.parse text with
    | .error fault => .error (.malformed fault)
    | .ok tactic =>
      match session.goals.head?.bind fun target =>
          session.nodes[target]?.map fun node => (target, node) with
      | none => .error .sessionClosed
      | some (target, node) => session.planFor facts target node.statement tactic

/-- The session that counts a goal as proved, if it is sound. -/
def record (session : Session) (node : Node) : Session :=
  { session with
    proved := if node.sound then session.proved.insert node.statement else session.proved }

/-- The session that records a goal and tells the goal above it. -/
def report (session : Session) (node : Node) (parent : Nat) : Session :=
  { session.record node with
    nodes := session.nodes.modify parent (·.settleChild node.sound) }

/-- Record that all subgoals of a goal are settled. This settles the goal it was created for, too,
if it was the last one of its subgoals. A goal is created after the goal it was created for, so the
numbers get smaller on the way up. -/
def settle (session : Session) (id : Nat) : Session :=
  match session.nodes[id]? with
  | none => session
  | some node =>
    match node.parent with
    | none => session.record node
    | some parent =>
      let session := session.report node parent
      if (session.nodes[parent]?.map Node.pending).getD 1 > 0 then session
      else if parent < id then session.settle parent
      else session
termination_by id

/-- The session with the goal on top replaced by its subgoals, before anything is settled. -/
def expand (session : Session) (plan : Plan) : Session :=
  { session with
    nodes := expandNodes session.nodes plan.target plan.defers plan.subgoals
    goals := subgoalIds session.nodes plan.subgoals ++ session.goals.tail
    deferred :=
      if plan.defers then session.deferred.insert plan.statement
      else session.deferred.erase plan.statement }

/-- The expanded session in which a goal without subgoals is settled. -/
def advance (session : Session) (plan : Plan) : Session :=
  if plan.subgoals.isEmpty then (session.expand plan).settle plan.target else session.expand plan

/-- Add the text of the open goals to the history. A session without open goals is closed. -/
def present (session : Session) : Session :=
  { session with
    history := session.history.push session.render
    status := if session.goals.isEmpty then .closed else session.status }

def execute (session : Session) (plan : Plan) : Session :=
  (session.advance plan).present

/-- Apply the tactic with the given text to the tactic state with the given number, which must be
the latest one. The number of the new tactic state is returned. A session that refuses a tactic
has failed. -/
def runTactic (session : Session) (facts : Facts) (id : Nat) (text : String) :
    Session × Except Error Nat :=
  match session.status with
  | .failed => (session, .error .sessionFailed)
  | .closed => (session, .error .sessionClosed)
  | .active =>
    match session.plan facts id text with
    | .error error => ({ session with status := .failed }, .error error)
    | .ok plan =>
      let session := session.execute plan
      (session, .ok session.stateId)

end Session

end Metamath.Search
