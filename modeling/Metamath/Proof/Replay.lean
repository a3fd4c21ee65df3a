import Metamath.Proof.Code
import Metamath.Proof.Step

/-!
# Replaying proofs

A normal proof is a list of labels, replayed from left to right. A compressed proof starts with an
opening parenthesis, lists the labels it uses up to the closing one, and then gives numbers into
the list of all steps: those of the theorem's own hypotheses, whose labels need not be listed, and
those of the listed labels. Larger numbers refer to statements that were saved along the way.

A compressed proof is resolved as a whole before its first step is performed: all its labels first,
then all its letters. A normal proof is resolved step by step.
-/

namespace Metamath.Proof

/-- The state of a compressed proof that is being replayed. -/
structure Memory where
  stack : Stack Statement
  /-- the saved statements, the earliest one first -/
  saved : Array Statement
  deriving DecidableEq, Repr

def Memory.empty : Memory := ⟨.empty, #[]⟩

namespace Context

def advance (context : Context) (stack : Stack Statement) (label : Symbol) :
    Except Error (Stack Statement) := do
  context.perform (← context.step label) stack

def replayNormal (context : Context) (proof : List Symbol) : Except Error (Stack Statement) :=
  proof.foldlM context.advance .empty

/-- The labels of the hypotheses of a theorem, which a compressed proof can use without listing
them. -/
def implicitLabels (context : Context) (floating : List Typing) (essential : List Statement) :
    Except Error (List Symbol) := do
  let floatingLabels ← floating.mapM fun typing =>
    match context.environment.floatingLabel? typing.var with
    | some label => .ok label
    | none => .error (.unlabelledHypothesis typing.var)
  let essentialLabels ← essential.mapM fun statement =>
    match context.environment.essentialLabel? statement with
    | some label => .ok label
    | none => .error (.unlabelledHypothesis (Statement.text statement))
  return floatingLabels ++ essentialLabels

/-- Execute an instruction of a compressed proof that numbers the given steps. -/
def execute (context : Context) (steps : Array Step) (memory : Memory) (code : Code) :
    Except Error Memory :=
  match code with
  | .save =>
    match memory.stack.top? with
    | some statement => .ok { memory with saved := memory.saved.push statement }
    | none => .error .saveOnEmpty
  | .index number =>
    match steps[number]? with
    | some step => (context.perform step memory.stack).map fun stack => { memory with stack }
    | none =>
      match memory.saved[number - steps.size]? with
      | some statement => .ok { memory with stack := memory.stack.push statement }
      | none => .error (.notEnoughSaved memory.saved.size number)

/-- The numbered steps and the instructions of a compressed proof, given without its opening
parenthesis. -/
def decompress (context : Context) (floating : List Typing) (essential : List Statement)
    (proof : List Symbol) : Except Error (Array Step × List Code) :=
  match cutAt? ")" proof with
  | none => .error .unclosedLabels
  | some (block, digits) => do
    let implicit ← context.implicitLabels floating essential
    let steps ← (implicit ++ block).mapM context.step
    let codes ← Code.decode digits
    return (steps.toArray, codes)

/-- Replay a compressed proof, given without its opening parenthesis. -/
def replayCompressed (context : Context) (floating : List Typing) (essential : List Statement)
    (proof : List Symbol) : Except Error (Stack Statement) := do
  let (steps, codes) ← context.decompress floating essential proof
  let memory ← codes.foldlM (context.execute steps) .empty
  return memory.stack

/-- Replay a proof of a theorem with the given hypotheses and return the stack it leaves. -/
def replay (context : Context) (floating : List Typing) (essential : List Statement)
    (proof : List Symbol) : Except Error (Stack Statement) :=
  match proof with
  | [] => .error .emptyProof
  | first :: rest =>
    if first = "(" then context.replayCompressed floating essential rest
    else context.replayNormal proof

/-- Verify that a proof of a theorem with the given hypotheses yields its conclusion and nothing
else. -/
def verify (context : Context) (floating : List Typing) (essential : List Statement)
    (conclusion : Statement) (proof : List Symbol) : Except Error Unit := do
  match (← context.replay floating essential proof).entries with
  | [] => .error .emptyStack
  | [entry] => if entry = conclusion then .ok () else .error (.conclusionMismatch conclusion entry)
  | entries => .error (.tooManyEntries entries.length)

end Context

end Metamath.Proof
