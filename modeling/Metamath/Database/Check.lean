import Metamath.Database.Error
import Metamath.Proof.Replay

/-!
# Proof checks

A check is a proof that waits to be verified. It holds all that its verification needs: the theorem,
its proof, and the labels and the environment at the place of the theorem. So it can be run at any
time, also while the rest of the database is being read.
-/

namespace Metamath.Database

structure Check where
  label : Symbol
  assertion : Assertion
  proof : List Symbol
  /-- the labels and the environment at the place of the theorem -/
  context : Proof.Context

def Check.run (check : Check) : Except Error Unit :=
  (check.context.verify check.assertion.floating check.assertion.essential
    check.assertion.conclusion check.proof).mapError fun error =>
      ⟨some ⟨.labelled .provable, some check.label⟩, .proof error⟩

end Metamath.Database
