import Metamath.Statement

/-!
# Assertions

An assertion is what an axiom or a theorem says, cut down to what a proof step needs: the typecodes
of the variables that occur in it (its floating hypotheses), its essential hypotheses, its
conclusion, and the pairs of those variables that must be replaced by disjoint expressions.
-/

namespace Metamath

/-- A floating hypothesis: a variable and the typecode of the expressions that may replace it. -/
structure Typing where
  typecode : Symbol
  var : Symbol
  deriving DecidableEq, Repr, Inhabited

def Typing.statement (typing : Typing) : Statement :=
  [typing.typecode, typing.var]

/-- An axiom or a theorem, restricted to the variables that occur in it. -/
structure Assertion where
  /-- the pairs of variables that need disjoint expressions -/
  disjoint : List Pair
  /-- the floating hypotheses -/
  floating : List Typing
  /-- the essential hypotheses -/
  essential : List Statement
  conclusion : Statement
  deriving DecidableEq, Repr, Inhabited

/-- Hypotheses and conclusion as people write them: `[[ |- ph |- ( ph -> ps ) ]] |- ps`. -/
def sequentText (hypotheses : List Statement) (conclusion : Statement) : String :=
  "[[" ++ String.join (hypotheses.map fun hypothesis => " " ++ Statement.text hypothesis)
    ++ " ]] " ++ Statement.text conclusion

/-- The essential hypotheses and the conclusion of an assertion. -/
def Assertion.text (assertion : Assertion) : String :=
  sequentText assertion.essential assertion.conclusion

/-- The number of hypotheses of an assertion, which is the number of stack entries it consumes. -/
def Assertion.arity (assertion : Assertion) : Nat :=
  assertion.floating.length + assertion.essential.length

end Metamath
