import Metamath.Statement

/-!
# What can be wrong with a proof

The causes are kept apart as far as a reader of a refused proof can tell them apart. The wording
stands in `Proof.Error.message` alone.
-/

namespace Metamath.Proof

/-- Why a proof is refused. -/
inductive Error where
  | unknownLabel (label : Symbol)
  /-- a hypothesis that is not in scope of the theorem being proved -/
  | inactiveHypothesis (label : Symbol)
  /-- a hypothesis of the theorem that has no label in its scope -/
  | unlabelledHypothesis (text : String)
  | underflow (needed available : Nat)
  | typecodeMismatch (expected : Symbol) (found : Statement)
  | hypothesisMismatch (expected found : Statement)
  /-- variables that must be disjoint and are not -/
  | disjointViolation (x y : Symbol)
  | emptyStack
  | tooManyEntries (count : Nat)
  | conclusionMismatch (expected found : Statement)
  | notEnoughSaved (saved index : Nat)
  | invalidChar (char : Char)
  /-- the labels of a compressed proof are not followed by a closing parenthesis -/
  | unclosedLabels
  /-- a compressed proof ends inside of a number -/
  | danglingDigits
  | emptyProof
  | saveOnEmpty
  deriving DecidableEq, Repr

def Error.message : Error → String
  | unknownLabel label => "unknown label in proof: " ++ label
  | inactiveHypothesis label => "hypothesis " ++ label ++ " is not active"
  | unlabelledHypothesis text => "no active label for hypothesis " ++ text
  | underflow needed available =>
    "stack underflow: needed " ++ toString needed ++ " entries, but only " ++ toString available
      ++ " available"
  | typecodeMismatch expected found =>
    "stack entry " ++ Statement.text found
      ++ " does not match floating hypothesis with typecode " ++ expected
  | hypothesisMismatch expected found =>
    "stack entry " ++ Statement.text found ++ " does not match essential hypothesis "
      ++ Statement.text expected
  | disjointViolation x y => "disjoint variable violation: " ++ x ++ " " ++ y
  | emptyStack => "empty stack at end of proof"
  | tooManyEntries count => "stack has " ++ toString count ++ " > 1 entries at end of proof"
  | conclusionMismatch expected found =>
    "stack entry " ++ Statement.text found ++ " does not match proved assertion "
      ++ Statement.text expected
  | notEnoughSaved saved index =>
    "not enough saved proof steps (" ++ toString saved ++ " saved, step " ++ toString index
      ++ " requested)"
  | invalidChar char => "invalid character in compressed proof: " ++ String.ofList [char]
  | unclosedLabels => "label block of compressed proof is not closed"
  | danglingDigits => "compressed proof ends in continuation digits"
  | emptyProof => "empty proof"
  | saveOnEmpty => "cannot save step on empty stack"

end Metamath.Proof
