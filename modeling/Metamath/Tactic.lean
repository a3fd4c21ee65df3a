import Metamath.Goal
import Metamath.Substitution

/-!
# Tactics

A tactic names an assertion by its premises and conclusion and says how its variables are to be
replaced: `[[ |- p |- q ]] c {{ v : e }} {{ w : f }}`. The conclusion extends to the first
substitution block. A variable may be bound in several blocks, of which the last one counts.
-/

namespace Metamath

/-- A goal and a substitution for its variables. -/
structure Tactic where
  goal : Goal
  substitution : Substitution
  deriving DecidableEq, Repr, Inhabited

theorem length_lt_of_cutAt? {α : Type} [DecidableEq α] {separator : α} {list before after : List α}
    (hcut : cutAt? separator list = some (before, after)) : after.length < list.length := by
  rw [(cutAt?_eq_some_iff.mp hcut).1, List.length_append, List.length_cons]
  omega

/-- Read substitution blocks to the end of a list of words. -/
def bindings? : List Symbol → Option (List (Symbol × Statement))
  | [] => some []
  | opening :: v :: colon :: words =>
    if opening = "\x7b\x7b" ∧ v ≠ "\x7d\x7d" ∧ colon = ":" then
      match _hcut : cutAt? "\x7d\x7d" words with
      | some (first :: expression, rest) =>
        (bindings? rest).map ((v, first :: expression) :: ·)
      | _ => none
    else none
  | _ => none
termination_by words => words.length
decreasing_by
  have hshorter := length_lt_of_cutAt? _hcut
  simp only [List.length_cons]
  omega

namespace Tactic

def ofWords? (words : List Symbol) : Option Tactic :=
  match premises? words with
  | none => none
  | some (premises, words) =>
    match words.takeWhile (· != "\x7b\x7b") with
    | [] => none
    | first :: rest =>
      (bindings? (words.dropWhile (· != "\x7b\x7b"))).map fun bindings =>
        ⟨⟨premises, first :: rest⟩, .ofList bindings⟩

def parse (text : String) : Except TextFault Tactic :=
  match ofWords? (Text.words text) with
  | some tactic => .ok tactic
  | none => .error (.tactic (Text.trim text))

end Tactic

end Metamath
