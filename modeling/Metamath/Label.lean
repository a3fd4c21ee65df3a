import Std.Data.TreeMap
import Metamath.Assertion

/-!
# Labels

The labelled statements of a database form a table that is only ever extended at its end. The order
of the entries is the order of definition, and no label is defined twice.

The entries are kept in order, and beside them an index from labels to positions. A table carries
the proof that the index leads to the entries.

A table is a value, so a proof check simply keeps the table it was created with. Later extensions
of the table do not reach it, and this is what keeps a theorem from being used in its own proof.
-/

namespace Metamath

/-- What a label refers to. -/
inductive Entry where
  /-- `$f` -/
  | floating (statement : Statement)
  /-- `$e` -/
  | essential (statement : Statement)
  /-- `$a` -/
  | axiomatic (assertion : Assertion)
  /-- `$p` -/
  | provable (assertion : Assertion)
  deriving DecidableEq, Repr, Inhabited

namespace Entry

/-- The assertion of an axiom or a theorem. -/
def assertion? : Entry → Option Assertion
  | .axiomatic a | .provable a => some a
  | .floating _ | .essential _ => none

/-- The entry with its keyword, as in `$f wff ph`. -/
def text : Entry → String
  | .floating s => "$f " ++ Statement.text s
  | .essential s => "$e " ++ Statement.text s
  | .axiomatic a => "$a " ++ a.text
  | .provable a => "$p " ++ a.text

end Entry

/-- The index leads to the entries with a label and to nothing else. -/
def LabelTable.Indexes (index : Std.TreeMap Symbol Nat) (entries : Array (Symbol × Entry)) : Prop :=
  ∀ (label : Symbol) (position : Nat), index[label]? = some position ↔
    ∃ entry, entries[position]? = some (label, entry)

/-- Labelled statements in the order of their definition. -/
structure LabelTable where
  /-- all entries, the earliest one first -/
  entries : Array (Symbol × Entry)
  /-- the position of each label among the entries -/
  index : Std.TreeMap Symbol Nat
  faithful : LabelTable.Indexes index entries

namespace LabelTable

/-- A new label gets the next position, and no other label can have it. -/
theorem Indexes.push {index : Std.TreeMap Symbol Nat} {entries : Array (Symbol × Entry)}
    (hindexes : Indexes index entries) {label : Symbol} (hnew : ¬ index.contains label)
    (entry : Entry) : Indexes (index.insert label entries.size) (entries.push (label, entry)) := by
  have hunused : ∀ (position : Nat) (found : Entry), entries[position]? ≠ some (label, found) := by
    intro position found hfound
    apply hnew
    rw [Std.TreeMap.contains_eq_isSome_getElem?, (hindexes label position).mpr ⟨found, hfound⟩]
    rfl
  intro other position
  simp only [Std.TreeMap.getElem?_insert, Std.LawfulEqOrd.compare_eq_iff_eq, Array.getElem?_push]
  by_cases hother : label = other
  · subst hother
    by_cases hposition : position = entries.size
    · simp [hposition]
    · simp [hposition, Ne.symm hposition, hunused]
  · rw [if_neg hother, hindexes other position]
    by_cases hposition : position = entries.size
    · simp [hposition, hother]
    · simp [hposition]

def empty : LabelTable := ⟨#[], ∅, by simp [Indexes]⟩

instance : Inhabited LabelTable := ⟨empty⟩

def size (labels : LabelTable) : Nat :=
  labels.entries.size

def contains (labels : LabelTable) (label : Symbol) : Bool :=
  labels.index.contains label

/-- The place of a label in the order of definition. -/
def position? (labels : LabelTable) (label : Symbol) : Option Nat :=
  labels.index[label]?

def get? (labels : LabelTable) (label : Symbol) : Option Entry :=
  (labels.position? label).bind fun position => labels.entries[position]?.map Prod.snd

/-- Define a new label, or nothing if it is defined already. -/
def insert? (labels : LabelTable) (label : Symbol) (entry : Entry) : Option LabelTable :=
  if hknown : labels.contains label then none
  else some
    { entries := labels.entries.push (label, entry)
      index := labels.index.insert label labels.size
      faithful := labels.faithful.push hknown entry }

/-- All entries in the order of definition. -/
def toList (labels : LabelTable) : List (Symbol × Entry) :=
  labels.entries.toList

/-- The entries defined strictly before a label; all entries if the label is unknown. -/
def before (labels : LabelTable) (label : Symbol) : List (Symbol × Entry) :=
  labels.toList.take ((labels.position? label).getD labels.size)

end LabelTable

end Metamath
