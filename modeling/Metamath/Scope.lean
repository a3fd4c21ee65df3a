import Metamath.Assertion
import Metamath.Scope.Environment

/-!
# Scopes

Variables, disjointness conditions and hypotheses are local to the block they stand in; constants
are global. A scope holds the frames of all open blocks. Each frame lists the hypotheses of its own
block and carries the environment that is in force in it, so closing a block is dropping a frame.

A declaration that is refused has no effect: every operation returns either the new scope or the
reason why there is none.
-/

namespace Metamath

/-- Why a declaration or a symbol is refused. -/
inductive Scope.Error where
  | constantRedeclared (symbol : Symbol)
  | variableRedeclared (symbol : Symbol)
  /-- a constant with the name of an active variable -/
  | variableAsConstant (symbol : Symbol)
  /-- a variable with the name of a constant -/
  | constantAsVariable (symbol : Symbol)
  | inactiveVariable (symbol : Symbol)
  | undeclaredTypecode (symbol : Symbol)
  /-- the variable has an active floating hypothesis already -/
  | alreadyTyped (symbol : Symbol)
  /-- neither a constant nor an active variable -/
  | undeclaredSymbol (symbol : Symbol)
  /-- an active variable without active floating hypothesis -/
  | untypedVariable (symbol : Symbol)
  | notAVariable (symbol : Symbol)
  /-- no block is open -/
  | noScope
  deriving DecidableEq, Repr

def Scope.Error.message : Scope.Error → String
  | constantRedeclared c => "constant already declared: " ++ c
  | variableRedeclared v => "variable already declared and active: " ++ v
  | variableAsConstant c => "trying to declare an active variable as constant: " ++ c
  | constantAsVariable v => "variable already declared as constant: " ++ v
  | inactiveVariable v => "variable in $f not declared: " ++ v
  | undeclaredTypecode c => "typecode in $f not declared: " ++ c
  | alreadyTyped v => "variable already typed by an active $f: " ++ v
  | undeclaredSymbol s => "token " ++ s ++ " is not an active symbol"
  | untypedVariable v => "variable " ++ v ++ " is not typed by an active $f"
  | notAVariable s => "token " ++ s ++ " is not an active variable"
  | noScope => "no open scope"

/-- An open block: what is active in it, and the hypotheses of its own. -/
structure Frame where
  environment : Environment
  /-- the floating hypotheses of this block in order -/
  floating : List Typing
  /-- the essential hypotheses of this block in order -/
  essential : List Statement
  deriving Inhabited

/-- The constants and the open blocks, the innermost block first. -/
structure Scope where
  constants : Std.TreeSet Symbol
  frames : List Frame

namespace Scope

def empty : Scope := ⟨∅, []⟩

instance : Inhabited Scope := ⟨empty⟩

def depth (scope : Scope) : Nat :=
  scope.frames.length

/-- What is active in the innermost block. -/
def environment (scope : Scope) : Environment :=
  match scope.frames with
  | [] => .empty
  | frame :: _ => frame.environment

def push (scope : Scope) : Scope :=
  { scope with frames := ⟨scope.environment, [], []⟩ :: scope.frames }

def pop (scope : Scope) : Except Error Scope :=
  match scope.frames with
  | [] => .error .noScope
  | _ :: frames => .ok { scope with frames }

/-- Close blocks until at most `depth` ones are open. -/
def truncate (scope : Scope) (depth : Nat) : Scope :=
  { scope with frames := scope.frames.drop (scope.frames.length - depth) }

def modifyTop (scope : Scope) (change : Frame → Frame) : Except Error Scope :=
  match scope.frames with
  | [] => .error .noScope
  | frame :: frames => .ok { scope with frames := change frame :: frames }

def isConstant (scope : Scope) (symbol : Symbol) : Bool :=
  scope.constants.contains symbol

def isVariable (scope : Scope) (symbol : Symbol) : Bool :=
  scope.environment.isVariable symbol

/-- Declare a constant. No block has to be open. -/
def declareConstant (scope : Scope) (symbol : Symbol) : Except Error Scope :=
  if scope.isConstant symbol then .error (.constantRedeclared symbol)
  else if scope.isVariable symbol then .error (.variableAsConstant symbol)
  else .ok { scope with constants := scope.constants.insert symbol }

def declareVariable (scope : Scope) (symbol : Symbol) : Except Error Scope :=
  if scope.isVariable symbol then .error (.variableRedeclared symbol)
  else if scope.isConstant symbol then .error (.constantAsVariable symbol)
  else scope.modifyTop fun frame =>
    { frame with environment := frame.environment.addVariable symbol }

def addFloating (scope : Scope) (typing : Typing) (label : Symbol) : Except Error Scope :=
  if !scope.isVariable typing.var then .error (.inactiveVariable typing.var)
  else if !scope.isConstant typing.typecode then .error (.undeclaredTypecode typing.typecode)
  else if (scope.environment.floatingLabel? typing.var).isSome then
    .error (.alreadyTyped typing.var)
  else scope.modifyTop fun frame =>
    { frame with
      environment := frame.environment.addFloating typing.var label
      floating := frame.floating ++ [typing] }

def addEssential (scope : Scope) (statement : Statement) (label : Symbol) : Except Error Scope :=
  scope.modifyTop fun frame =>
    { frame with
      environment := frame.environment.addEssential statement label
      essential := frame.essential ++ [statement] }

/-- Make every two different variables of a list disjoint in the innermost block. -/
def addDisjoint (scope : Scope) (vars : List Symbol) : Except Error Scope :=
  scope.modifyTop fun frame =>
    { frame with environment := frame.environment.addDisjoint vars }

/-- The floating hypotheses of all open blocks in the order of their declaration. -/
def floating (scope : Scope) : List Typing :=
  scope.frames.reverse.flatMap Frame.floating

/-- The essential hypotheses of all open blocks in the order of their declaration. -/
def essential (scope : Scope) : List Statement :=
  scope.frames.reverse.flatMap Frame.essential

/-- The typings of the given variables. A variable that was met is not looked for any more, so each
one has its first typing only. -/
def firstTypings : Std.TreeSet Symbol → List Typing → List Typing
  | _, [] => []
  | vars, typing :: rest =>
    if vars.contains typing.var then typing :: firstTypings (vars.erase typing.var) rest
    else firstTypings vars rest

/-- The assertion with the given conclusion at this place. All active essential hypotheses belong
to it; of the floating hypotheses and the disjoint pairs, those over variables that occur in the
conclusion or in an essential hypothesis. -/
def assertion (scope : Scope) (conclusion : Statement) : Assertion :=
  let mandatory := scope.environment.variablesIn (scope.essential.flatten ++ conclusion)
  { disjoint := scope.environment.disjoint.toList.filter fun pair =>
      mandatory.contains pair.1 && mandatory.contains pair.2
    floating := firstTypings mandatory scope.floating
    essential := scope.essential
    conclusion }

end Scope

end Metamath
