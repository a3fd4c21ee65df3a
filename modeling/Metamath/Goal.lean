import Metamath.Assertion
import Metamath.Text.Blank

/-!
# Goals

A goal is a list of premises and a conclusion. People write it as `[[ |- p |- q ]] c`: between the
double brackets stand the premises, each of which starts with a turnstile, and after them stands the
conclusion. Since a premise has no other mark than its turnstile, the premises are cut before every
turnstile; so a premise that held another one could not be told from two premises.
-/

namespace Metamath

/-- Why a text is no goal or no tactic. The text is given without the blanks around it. -/
inductive TextFault where
  | tactic (text : String)
  | goal (text : String)
  deriving DecidableEq, Repr

def TextFault.message : TextFault → String
  | tactic text => "syntax error for tactic: " ++ text
  | goal text => "syntax error for tactic state: " ++ text

structure Goal where
  premises : List Statement
  conclusion : Statement
  deriving DecidableEq, Repr, Inhabited

/-- Cut a list of words before each turnstile. The first component holds the words before the first
turnstile. -/
def cutTurnstiles : List Symbol → List Symbol × List Statement
  | [] => ([], [])
  | word :: rest =>
    let (initial, premises) := cutTurnstiles rest
    if word = "|-" then ([], (word :: initial) :: premises) else (word :: initial, premises)

/-- Read premises in double brackets from the front of a list of words. The rest of the words is
returned with them. -/
def premises? : List Symbol → Option (List Statement × List Symbol)
  | "[[" :: words =>
    match cutAt? "]]" words with
    | none => none
    | some (inside, rest) =>
      match cutTurnstiles inside with
      | ([], premises) => some (premises, rest)
      | _ => none
  | _ => none

namespace Goal

def text (goal : Goal) : String :=
  sequentText goal.premises goal.conclusion

def flatPremises (goal : Goal) : Statement :=
  goal.premises.flatten

def ofWords? (words : List Symbol) : Option Goal :=
  match premises? words with
  | some (premises, first :: rest) => some ⟨premises, first :: rest⟩
  | _ => none

def parse (text : String) : Except TextFault Goal :=
  match ofWords? (Text.words text) with
  | some goal => .ok goal
  | none => .error (.goal (Text.trim text))

end Goal

end Metamath
