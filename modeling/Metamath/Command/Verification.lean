import Metamath.Command.Options
import Metamath.Command.Pipeline
import Metamath.Database

/-!
# Verifying a database

The options choose how proofs are verified: one after another while statements are read, alongside
reading through a pipeline, or not at all.
-/

namespace Metamath.Command

open Database (Builder Check)

/-- Verify proofs as they are read. -/
def readInTurn (verifies : Bool) (bounds : Database.Bounds)
    (items : List (Except Inclusion.Error Token)) : Except Failure Builder :=
  let accept : Check → Except Database.Error Unit :=
    if verifies then Check.run else fun _ => .ok ()
  let outcome := (Builder.new bounds).read accept items
  match outcome.result with
  | .ok () => .ok outcome.builder
  | .error error => .error (.refused error)

/-- Verify proofs alongside reading. That a pipeline has no outcome never happens, by
`Pipeline.exists_outcome_run`. -/
def readAlongside (capacity : Option Nat) (verifies : Bool) (bounds : Database.Bounds)
    (items : List (Except Inclusion.Error Token)) : Except Failure Builder :=
  (Pipeline.start capacity verifies (Builder.new bounds) items).run.outcome?.getD
    (.error .disconnected)

def Options.run (options : Options) (system : FileSystem) : Except Failure Database :=
  match Includer.ofFile system options.file with
  | .error error => .error (.refused ⟨none, .inclusion error⟩)
  | .ok includer =>
    let items := includer.tokens system
    let builder :=
      match options.channel? with
      | none => readInTurn options.verifies options.bounds items
      | some capacity => readAlongside capacity options.verifies options.bounds items
    builder.map Builder.finish

end Metamath.Command
