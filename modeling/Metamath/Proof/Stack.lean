/-!
# The stack of a proof

Every proof step consumes some number of topmost entries and pushes one. The entries that a step
consumes are looked at in the order in which they were pushed, although the stack itself is kept
with its top at the front.
-/

namespace Metamath

/-- A stack; `entries` lists the most recently pushed entry first. -/
structure Stack (α : Type) where
  entries : List α
  deriving DecidableEq, Repr

namespace Stack

variable {α : Type}

def empty : Stack α := ⟨[]⟩

/-- The stack on which the elements of a list were pushed one after another. -/
def ofList (pushed : List α) : Stack α := ⟨pushed.reverse⟩

/-- The entries in the order in which they were pushed. -/
def toList (stack : Stack α) : List α := stack.entries.reverse

def size (stack : Stack α) : Nat := stack.entries.length

def top? (stack : Stack α) : Option α := stack.entries.head?

def push (stack : Stack α) (entry : α) : Stack α := ⟨entry :: stack.entries⟩

/-- The `n` topmost entries in the order in which they were pushed, if there are as many. -/
def args? (stack : Stack α) (n : Nat) : Option (List α) :=
  let topmost := stack.entries.take n
  if topmost.length = n then some topmost.reverse else none

/-- Remove the `n` topmost entries; all entries if there are fewer. -/
def pop (stack : Stack α) (n : Nat) : Stack α := ⟨stack.entries.drop n⟩

/-- Replace the `n` topmost entries by one, or nothing if there are fewer. -/
def reduce? (stack : Stack α) (n : Nat) (entry : α) : Option (Stack α) :=
  if n ≤ stack.size then some ((stack.pop n).push entry) else none

@[simp] theorem toList_empty : (empty : Stack α).toList = [] := rfl

@[simp] theorem toList_ofList (pushed : List α) : (ofList pushed).toList = pushed := by
  simp [ofList, toList]

@[simp] theorem toList_push (stack : Stack α) (entry : α) :
    (stack.push entry).toList = stack.toList ++ [entry] := by
  simp [push, toList]

end Stack

end Metamath
