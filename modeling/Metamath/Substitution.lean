import Metamath.Statement

/-!
# Substitutions

A substitution binds variables to the expressions that replace them. Replacing is simultaneous
splicing: every symbol of a statement that is bound is replaced by its expression, every other one
stays, and the inserted expressions are not looked at again.

The bindings keep the order in which their variables were first bound, because the subgoals that a
tactic leaves are listed in that order. Binding a variable again keeps its place and replaces its
expression.
-/

namespace Metamath

/-- Bindings of variables to expressions, in the order in which the variables were first bound. -/
structure Substitution where
  bindings : List (Symbol × Statement)
  deriving DecidableEq, Repr, Inhabited

namespace Substitution

def empty : Substitution := ⟨[]⟩

def get? (σ : Substitution) (v : Symbol) : Option Statement :=
  σ.bindings.lookup v

/-- Bind a variable in a list of bindings: in its old place if it has one, else at the end. -/
def bind (v : Symbol) (expression : Statement) :
    List (Symbol × Statement) → List (Symbol × Statement)
  | [] => [(v, expression)]
  | binding :: rest =>
    if binding.1 = v then (v, expression) :: rest
    else binding :: bind v expression rest

/-- Bind a variable, replacing its earlier binding if there is one. -/
def insert (σ : Substitution) (v : Symbol) (expression : Statement) : Substitution :=
  ⟨bind v expression σ.bindings⟩

/-- The substitution that results from binding variables one after another. -/
def ofList (bindings : List (Symbol × Statement)) : Substitution :=
  bindings.foldl (fun σ binding => σ.insert binding.1 binding.2) empty

/-- What a symbol is replaced by: its expression if it is bound, else itself. -/
def image (σ : Substitution) (symbol : Symbol) : Statement :=
  (σ.get? symbol).getD [symbol]

/-- Replace every bound symbol of a statement by its expression. -/
def apply (σ : Substitution) (statement : Statement) : Statement :=
  statement.flatMap σ.image

@[simp] theorem apply_nil (σ : Substitution) : σ.apply [] = [] := rfl

@[simp] theorem apply_cons (σ : Substitution) (symbol : Symbol) (rest : Statement) :
    σ.apply (symbol :: rest) = σ.image symbol ++ σ.apply rest := by
  simp [apply]

/-- Splicing respects concatenation. -/
@[simp] theorem apply_append (σ : Substitution) (first second : Statement) :
    σ.apply (first ++ second) = σ.apply first ++ σ.apply second := by
  simp [apply]

@[simp] theorem get?_empty (v : Symbol) : empty.get? v = none := rfl

end Substitution

end Metamath
