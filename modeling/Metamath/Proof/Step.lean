import Metamath.Label
import Metamath.Proof.Error
import Metamath.Proof.Stack
import Metamath.Scope.Environment
import Metamath.Substitution

/-!
# Proof steps

A proof step either pushes an active hypothesis or applies an assertion. Applying an assertion
consumes one stack entry for each of its hypotheses: the entries of the floating hypotheses
determine the substitution, the entries of the essential hypotheses must be their instances, and
variables that have to be disjoint must be replaced by expressions whose active variables are
declared disjoint. What is pushed is the instance of the conclusion.

A step that fails has no effect on the stack, since it does not return one.
-/

namespace Metamath.Proof

/-- What a label of a proof stands for. -/
inductive Step where
  | hypothesis (statement : Statement)
  | assertion (assertion : Assertion)
  deriving DecidableEq, Repr

/-- The place of the theorem whose proof is replayed. -/
structure Context where
  /-- the labels defined before the theorem -/
  labels : LabelTable
  /-- what is active at the theorem -/
  environment : Environment
  deriving Inhabited

/-- Bind the variables of floating hypotheses to the expressions of the given stack entries. -/
def matchFloating (σ : Substitution) : List Typing → List Statement → Except Error Substitution
  | typing :: typings, entry :: entries =>
    match entry with
    | typecode :: expression =>
      if typecode = typing.typecode then
        matchFloating (σ.insert typing.var expression) typings entries
      else .error (.typecodeMismatch typing.typecode entry)
    | [] => .error (.typecodeMismatch typing.typecode entry)
  | _, _ => .ok σ

/-- Check that the given stack entries are the instances of essential hypotheses. -/
def matchEssential (σ : Substitution) : List Statement → List Statement → Except Error Unit
  | hypothesis :: hypotheses, entry :: entries =>
    if σ.apply hypothesis = entry then matchEssential σ hypotheses entries
    else .error (.hypothesisMismatch (σ.apply hypothesis) entry)
  | _, _ => .ok ()

/-- A variable of the first expression and a variable of the second one that are equal or not
declared disjoint. -/
def overlap? (env : Environment) (first second : Statement) : Option (Symbol × Symbol) :=
  (env.variablesIn first).toList.findSome? fun x =>
    (env.variablesIn second).toList.findSome? fun y =>
      if x = y || !env.isDisjoint x y then some (x, y) else none

/-- Check the disjointness conditions of an assertion. A condition on a variable that the
substitution does not bind is met. -/
def checkDisjoint (env : Environment) (σ : Substitution) : List Pair → Except Error Unit
  | [] => .ok ()
  | (x, y) :: pairs =>
    match σ.get? x, σ.get? y with
    | some first, some second =>
      match overlap? env first second with
      | some (u, v) => .error (.disjointViolation u v)
      | none => checkDisjoint env σ pairs
    | _, _ => checkDisjoint env σ pairs

/-- The instance of an assertion's conclusion that follows from the given stack entries, one for
each of its hypotheses. -/
def conclude (env : Environment) (assertion : Assertion) (entries : List Statement) :
    Except Error Statement := do
  let arguments := entries.splitAt assertion.floating.length
  let σ ← matchFloating .empty assertion.floating arguments.1
  matchEssential σ assertion.essential arguments.2
  checkDisjoint env σ assertion.disjoint
  return σ.apply assertion.conclusion

namespace Context

def step (context : Context) (label : Symbol) : Except Error Step :=
  match context.labels.get? label with
  | none => .error (.unknownLabel label)
  | some (.floating statement) | some (.essential statement) =>
    if context.environment.isHypothesis label then .ok (.hypothesis statement)
    else .error (.inactiveHypothesis label)
  | some (.axiomatic assertion) | some (.provable assertion) => .ok (.assertion assertion)

def perform (context : Context) (step : Step) (stack : Stack Statement) :
    Except Error (Stack Statement) :=
  match step with
  | .hypothesis statement => .ok (stack.push statement)
  | .assertion assertion =>
    match stack.args? assertion.arity with
    | none => .error (.underflow assertion.arity stack.size)
    | some entries =>
      (conclude context.environment assertion entries).map fun conclusion =>
        -- there are enough entries, or the arguments would not have been found
        (stack.reduce? assertion.arity conclusion).getD stack

end Context

end Metamath.Proof
