import Std.Data.TreeMap
import Metamath.Statement

/-!
# Environments

An environment answers the questions that a proof check asks about the place of its theorem: which
variables are active, which pairs of them are declared disjoint, and which labels its hypotheses
have. It is cumulative: a block starts with the environment around it and only adds to it, so one
lookup suffices and the blocks around need not be searched.
-/

namespace Metamath

/-- What is active at a place of a database. -/
structure Environment where
  /-- the active variables -/
  active : Std.TreeSet Symbol
  /-- the pairs of variables that are declared disjoint -/
  disjoint : PairSet
  /-- the label of the floating hypothesis of a variable -/
  floating : Std.TreeMap Symbol Symbol
  /-- the label of the earliest essential hypothesis with a statement -/
  essential : Std.TreeMap Statement Symbol
  /-- the labels of all active hypotheses -/
  hypotheses : Std.TreeSet Symbol

namespace Environment

def empty : Environment := ⟨∅, ∅, ∅, ∅, ∅⟩

instance : Inhabited Environment := ⟨empty⟩

def isVariable (env : Environment) (symbol : Symbol) : Bool :=
  env.active.contains symbol

def isDisjoint (env : Environment) (x y : Symbol) : Bool :=
  env.disjoint.contains (Pair.of x y)

def floatingLabel? (env : Environment) (v : Symbol) : Option Symbol :=
  env.floating[v]?

/-- The label of the earliest active essential hypothesis with a statement. -/
def essentialLabel? (env : Environment) (statement : Statement) : Option Symbol :=
  env.essential[statement]?

def isHypothesis (env : Environment) (label : Symbol) : Bool :=
  env.hypotheses.contains label

/-- The active variables that occur in a statement. -/
def variablesIn (env : Environment) (statement : Statement) : Std.TreeSet Symbol :=
  Std.TreeSet.ofList (statement.filter env.isVariable)

def addVariable (env : Environment) (v : Symbol) : Environment :=
  { env with active := env.active.insert v }

/-- Record the label of the floating hypothesis of a variable. -/
def addFloating (env : Environment) (v label : Symbol) : Environment :=
  { env with
    floating := env.floating.insert v label
    hypotheses := env.hypotheses.insert label }

/-- Record the label of an essential hypothesis. A statement that is a hypothesis already keeps its
earlier label, but the new label becomes active, too. -/
def addEssential (env : Environment) (statement : Statement) (label : Symbol) : Environment :=
  { env with
    essential := env.essential.insertIfNew statement label
    hypotheses := env.hypotheses.insert label }

/-- Make every two different variables of a list disjoint. -/
def addDisjoint (env : Environment) (vars : List Symbol) : Environment :=
  { env with
    disjoint := vars.foldl (fun pairs x =>
      vars.foldl (fun pairs y => if y = x then pairs else pairs.insert (Pair.of x y)) pairs)
      env.disjoint }

end Environment

end Metamath
