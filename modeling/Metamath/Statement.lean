import Std.Data.TreeSet

/-!
# Symbols and statements

A statement is a flat sequence of symbols, such as `|- ( ph -> ph )`: a typecode and then an
expression, without any grammar tree. Whether a symbol is a constant or a variable is not part of
the symbol. It depends on the place in the database, so every definition that needs the distinction
takes the environment that makes it.

The module also fixes how symbols are ordered (by their bytes in UTF-8, which is the order of code
points) and how an unordered pair of variables is stored, since disjointness conditions are sets of
such pairs and are listed in ascending order.
-/

namespace Metamath

/-- A constant, a variable or a label. -/
abbrev Symbol := String

/-- A sequence of symbols. -/
abbrev Statement := List Symbol

/-- The symbols of a statement, separated by single spaces. -/
def Statement.text (statement : Statement) : String :=
  String.intercalate " " statement

/-- What comes before the first occurrence of a separator in a list and what comes after it. -/
def cutAt? {α : Type} [DecidableEq α] (separator : α) :
    List α → Option (List α × List α)
  | [] => none
  | a :: rest =>
    if a = separator then some ([], rest)
    else (cutAt? separator rest).map fun parts => (a :: parts.1, parts.2)

theorem cutAt?_append {α : Type} [DecidableEq α] {separator : α} {before : List α}
    (hbefore : separator ∉ before) (after : List α) :
    cutAt? separator (before ++ separator :: after) = some (before, after) := by
  induction before with
  | nil => simp [cutAt?]
  | cons a rest ih =>
    rw [List.mem_cons, not_or] at hbefore
    rw [List.cons_append, cutAt?, if_neg (Ne.symm hbefore.1), ih hbefore.2]
    rfl

/-- A cut is made at the separator and not after another one. -/
theorem cutAt?_eq_some_iff {α : Type} [DecidableEq α] {separator : α}
    {list before after : List α} :
    cutAt? separator list = some (before, after) ↔
      list = before ++ separator :: after ∧ separator ∉ before := by
  constructor
  · intro hcut
    induction list generalizing before with
    | nil => cases hcut
    | cons a rest ih =>
      rw [cutAt?] at hcut
      split at hcut
      · next heq =>
        cases hcut
        exact ⟨by rw [heq, List.nil_append], List.not_mem_nil⟩
      · next hne =>
        obtain ⟨parts, hrest, hparts⟩ := Option.map_eq_some_iff.mp hcut
        cases hparts
        obtain ⟨happend, hbefore⟩ := ih hrest
        refine ⟨congrArg (a :: ·) happend, ?_⟩
        rw [List.mem_cons, not_or]
        exact ⟨Ne.symm hne, hbefore⟩
  · rintro ⟨rfl, hbefore⟩
    exact cutAt?_append hbefore after

/-- The dictionary order: the second components decide only where the first ones agree. -/
def compareLexically {α β : Type} [Ord α] [Ord β] : α × β → α × β → Ordering :=
  compareLex (compareOn Prod.fst) (compareOn Prod.snd)

instance {α β : Type} [Ord α] [Ord β] [Std.TransOrd α] [Std.TransOrd β] :
    Std.TransCmp (@compareLexically α β _ _) :=
  inferInstanceAs (Std.TransCmp (compareLex (compareOn Prod.fst) (compareOn Prod.snd)))

/-- Only equal pairs compare as equal, so a set of pairs in this order holds exactly the pairs that
were put into it. -/
instance {α β : Type} [Ord α] [Ord β] [Std.LawfulEqOrd α] [Std.LawfulEqOrd β] :
    Std.LawfulEqCmp (@compareLexically α β _ _) where
  compare_self := by
    intro p
    simp [compareLexically, compareLex, compareOn]
  eq_of_compare := by
    intro p q hequal
    simp only [compareLexically, compareLex, compareOn, Ordering.then_eq_eq,
      Std.LawfulEqOrd.compare_eq_iff_eq] at hequal
    exact Prod.ext hequal.1 hequal.2

/-- An unordered pair of variables, stored with the smaller one first. -/
abbrev Pair := Symbol × Symbol

/-- The pair of two variables, in whichever order they are given. -/
def Pair.of (x y : Symbol) : Pair :=
  if x ≤ y then (x, y) else (y, x)

/-- A set of unordered pairs of variables. -/
abbrev PairSet := Std.TreeSet Pair compareLexically

end Metamath
