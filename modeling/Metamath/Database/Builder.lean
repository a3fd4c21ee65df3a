import Metamath.Database.Check

/-!
# Building databases

A builder holds what has been read of a database: the scope at the current place and the labels
defined so far. Its operations are the effects of whole statements; how statements are put together
from tokens is the matter of `Metamath.Database.Reading`.

A statement that is refused leaves the builder as it was, with one exception: `$c` and `$v` declare
their symbols one after another, so the symbols before a refused one are declared.
-/

namespace Metamath.Database

/-- The part of a database whose proofs are verified. -/
structure Bounds where
  /-- verify only proofs from this label on -/
  start : Option Symbol
  /-- stop reading at this label -/
  stop : Option Symbol
  deriving DecidableEq, Repr, Inhabited

/-- What has been read of a database. -/
structure Builder where
  scope : Scope
  labels : LabelTable
  bounds : Bounds
  /-- whether proofs are to be verified from here on -/
  verifying : Bool
  /-- whether the label to stop at was reached -/
  stopped : Bool
  deriving Inhabited

namespace Builder

def new (bounds : Bounds) : Builder where
  scope := .empty
  labels := .empty
  bounds := bounds
  verifying := bounds.start.isNone
  stopped := false

def depth (builder : Builder) : Nat :=
  builder.scope.depth

/-- Close blocks until at most `depth` ones are open. -/
def truncate (builder : Builder) (depth : Nat) : Builder :=
  { builder with scope := builder.scope.truncate depth }

/-- Declare symbols one after another, up to the first one that is refused. -/
def declareEach (declare : Scope → Symbol → Except Scope.Error Scope) :
    Scope → List Symbol → Scope × Option Scope.Error
  | scope, [] => (scope, none)
  | scope, symbol :: rest =>
    match declare scope symbol with
    | .ok scope => declareEach declare scope rest
    | .error error => (scope, some error)

/-- The effect of a declaration, and the reason if it is refused. -/
def declare (builder : Builder) (declaration : Declaration) (symbols : List Symbol) :
    Builder × Option Scope.Error :=
  let (scope, refused) :=
    match declaration with
    | .constants => declareEach Scope.declareConstant builder.scope symbols
    | .vars => declareEach Scope.declareVariable builder.scope symbols
    | .disjoint =>
      match symbols.find? (!builder.scope.isVariable ·) with
      | some symbol => (builder.scope, some (.notAVariable symbol))
      | none =>
        match builder.scope.addDisjoint symbols with
        | .ok scope => (scope, none)
        | .error error => (builder.scope, some error)
  ({ builder with scope }, refused)

/-- Check that a symbol is a constant or a variable with a typecode. -/
def checkSymbol (builder : Builder) (symbol : Symbol) : Except Scope.Error Unit :=
  if builder.scope.isVariable symbol then
    if (builder.scope.environment.floatingLabel? symbol).isSome then .ok ()
    else .error (.untypedVariable symbol)
  else if builder.scope.isConstant symbol then .ok ()
  else .error (.undeclaredSymbol symbol)

/-- Check that a statement is not empty and consists of constants and variables with typecodes. -/
def checkStatement (builder : Builder) (statement : Statement) : Except Cause Unit :=
  if statement.isEmpty then .error (.structural .emptyStatement)
  else (statement.forM builder.checkSymbol).mapError .scope

def define (builder : Builder) (label : Symbol) (entry : Entry) : Except Cause Builder :=
  match builder.labels.insert? label entry with
  | some labels => .ok { builder with labels }
  | none => .error (.structural (.redefined label))

/-- The effect of a `$f` statement. -/
def addFloating (builder : Builder) (label : Symbol) (statement : Statement) :
    Except Cause Builder :=
  match statement with
  | [typecode, v] =>
    match builder.scope.addFloating ⟨typecode, v⟩ label with
    | .ok scope => define { builder with scope } label (.floating statement)
    | .error error => .error (.scope error)
  | _ => .error (.structural (.floatingLength statement.length))

/-- The effect of a `$e` statement. -/
def addEssential (builder : Builder) (label : Symbol) (statement : Statement) :
    Except Cause Builder := do
  builder.checkStatement statement
  match builder.scope.addEssential statement label with
  | .ok scope => define { builder with scope } label (.essential statement)
  | .error error => .error (.scope error)

/-- The effect of a `$a` statement. -/
def addAxiomatic (builder : Builder) (label : Symbol) (statement : Statement) :
    Except Cause Builder := do
  builder.checkStatement statement
  builder.define label (.axiomatic (builder.scope.assertion statement))

/-- The effect of a `$p` statement that was checked before. The theorem is defined whether or not
its proof is correct; the proof is given out as a check, unless proofs are not verified here. The
check knows only the labels before the theorem. -/
def addProvable (builder : Builder) (label : Symbol) (statement : Statement)
    (proof : List Symbol) : Except Cause (Builder × Option Check) :=
  let assertion := builder.scope.assertion statement
  let check : Check := ⟨label, assertion, proof, ⟨builder.labels, builder.scope.environment⟩⟩
  (builder.define label (.provable assertion)).map fun defined =>
    (defined, if builder.verifying then some check else none)

def noteLabel (builder : Builder) (label : Symbol) : Builder :=
  { builder with
    stopped := builder.stopped || builder.bounds.stop == some label
    verifying := builder.verifying || builder.bounds.start == some label }

end Builder

end Metamath.Database
