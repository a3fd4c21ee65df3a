import Metamath.Database.Reading
import Metamath.Goal

/-!
# Databases

A database consists of its labels and of its facts: what its axioms and theorems say, without their
labels and typecodes. A fact is looked up by a goal, that is by the text of its premises, one after
another, and its conclusion.
-/

namespace Metamath

/-- The essential hypotheses (one after another) and the conclusions of all axioms and theorems. -/
abbrev Facts := Std.TreeSet (Statement × Statement) compareLexically

namespace Facts

def ofLabels (labels : LabelTable) : Facts :=
  Std.TreeSet.ofList
    (labels.toList.filterMap fun entry => entry.2.assertion?.map fun assertion =>
      (assertion.essential.flatten, assertion.conclusion))
    compareLexically

/-- Whether there is an axiom or a theorem with the premises and the conclusion of a goal. -/
def holds (facts : Facts) (goal : Goal) : Bool :=
  facts.contains (goal.flatPremises, goal.conclusion)

end Facts

structure Database where
  labels : LabelTable
  facts : Facts

def Database.Builder.finish (builder : Database.Builder) : Database :=
  ⟨builder.labels, .ofLabels builder.labels⟩

/-- Where a database comes from. -/
inductive Source where
  | file (path : String)
  /-- a text whose inclusions are relative to a directory -/
  | text (text : String) (directory : String)
  deriving DecidableEq, Repr

def Source.includer (system : FileSystem) : Source → Except Inclusion.Error Includer
  | file path => Includer.ofFile system path
  | text content directory => .ok (Includer.ofText content directory)

/-- The tokens of a source and of all files it includes, up to the first fault. -/
def Includer.tokens (system : FileSystem) (includer : Includer) :
    List (Except Inclusion.Error Token) :=
  (includer.items system).filterMap Inclusion.Item.content?

namespace Database

/-- Read a source and verify all proofs within the bounds. -/
def load (system : FileSystem) (bounds : Bounds) (source : Source) : Except Error Database :=
  match source.includer system with
  | .error error => .error ⟨none, .inclusion error⟩
  | .ok includer =>
    let outcome := (Builder.new bounds).read Check.run (includer.tokens system)
    outcome.result.map fun _ => outcome.builder.finish

end Database

end Metamath
