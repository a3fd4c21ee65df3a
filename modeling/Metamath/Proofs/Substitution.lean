import Mathlib.Data.List.Basic
import Metamath.Substitution

/-!
# Laws of substitutions

A substitution is a list of bindings, but nothing that a proof means depends on the list. What
counts is which variables are bound and what a symbol is replaced by. The laws here say so for the
operations that build substitutions, and they give the two facts about splicing that the meaning of
a proof rests on: substitutions that agree on the symbols of a statement act alike on it, and
splicing twice is splicing once.
-/

namespace Metamath

namespace Substitution

/-- A lookup compares the first binding and then goes on with the rest. -/
theorem lookup_cons_eq_ite (v w : Symbol) (expression : Statement)
    (rest : List (Symbol × Statement)) :
    ((v, expression) :: rest).lookup w = if w = v then some expression else rest.lookup w := by
  by_cases hw : w = v
  · subst hw
    simp
  · rw [if_neg hw, List.lookup_cons, beq_eq_false_iff_ne.mpr hw]

/-- Binding a variable decides what that variable is bound to and touches no other one. -/
theorem lookup_bind (v w : Symbol) (expression : Statement)
    (bindings : List (Symbol × Statement)) :
    (bind v expression bindings).lookup w =
      if w = v then some expression else bindings.lookup w := by
  induction bindings with
  | nil => rw [bind, lookup_cons_eq_ite]
  | cons binding rest ih =>
    obtain ⟨u, bound⟩ := binding
    by_cases hu : u = v
    · subst hu
      rw [bind, if_pos rfl, lookup_cons_eq_ite, lookup_cons_eq_ite]
      by_cases hw : w = u
      · rw [if_pos hw, if_pos hw]
      · rw [if_neg hw, if_neg hw, if_neg hw]
    · rw [bind, if_neg hu, lookup_cons_eq_ite, lookup_cons_eq_ite, ih]
      by_cases hw : w = u
      · subst hw
        rw [if_pos rfl, if_neg hu, if_pos rfl]
      · rw [if_neg hw, if_neg hw]

theorem get?_insert (σ : Substitution) (v w : Symbol) (expression : Statement) :
    (σ.insert v expression).get? w = if w = v then some expression else σ.get? w :=
  lookup_bind v w expression σ.bindings

@[simp]
theorem get?_insert_self (σ : Substitution) (v : Symbol) (expression : Statement) :
    (σ.insert v expression).get? v = some expression := by
  rw [get?_insert, if_pos rfl]

theorem get?_insert_of_ne (σ : Substitution) {v w : Symbol} (hne : w ≠ v)
    (expression : Statement) : (σ.insert v expression).get? w = σ.get? w := by
  rw [get?_insert, if_neg hne]

/-- What a variable is bound to stands in the list of bindings. -/
theorem mem_bindings_of_get? {σ : Substitution} {v : Symbol} {expression : Statement}
    (hget : σ.get? v = some expression) : (v, expression) ∈ σ.bindings := by
  obtain ⟨before, after, hbindings, -⟩ := List.lookup_eq_some_iff.mp hget
  simp [hbindings]

/-- The substitution binds the given variables and no others. -/
def Binds (σ : Substitution) (vars : List Symbol) : Prop :=
  ∀ v, (σ.get? v).isSome ↔ v ∈ vars

theorem image_of_get? {σ : Substitution} {v : Symbol} {expression : Statement}
    (hget : σ.get? v = some expression) : σ.image v = expression := by
  rw [image, hget, Option.getD_some]

/-- A bound variable is bound to its image. -/
theorem Binds.get?_eq_some_image {σ : Substitution} {vars : List Symbol} (hbinds : σ.Binds vars)
    {v : Symbol} (hv : v ∈ vars) : σ.get? v = some (σ.image v) := by
  obtain ⟨expression, hget⟩ := Option.isSome_iff_exists.mp ((hbinds v).mpr hv)
  rw [hget, image_of_get? hget]

theorem Binds.get?_of_not_mem {σ : Substitution} {vars : List Symbol} (hbinds : σ.Binds vars)
    {symbol : Symbol} (hsymbol : symbol ∉ vars) : σ.get? symbol = none := by
  rw [← Option.not_isSome_iff_eq_none]
  exact fun hsome => hsymbol ((hbinds symbol).mp hsome)

/-- A symbol that is not bound is left alone. -/
theorem Binds.image_of_not_mem {σ : Substitution} {vars : List Symbol} (hbinds : σ.Binds vars)
    {symbol : Symbol} (hsymbol : symbol ∉ vars) : σ.image symbol = [symbol] := by
  rw [image, hbinds.get?_of_not_mem hsymbol, Option.getD_none]

/-- The substitution that binds each of the given variables to its value under a function. -/
def ofVars (vars : List Symbol) (value : Symbol → Statement) : Substitution :=
  ⟨vars.map fun v => (v, value v)⟩

theorem get?_ofVars (vars : List Symbol) (value : Symbol → Statement) (v : Symbol) :
    (ofVars vars value).get? v = if v ∈ vars then some (value v) else none := by
  induction vars with
  | nil => rfl
  | cons u rest ih =>
    have hcons : (ofVars (u :: rest) value).get? v =
        if v = u then some (value u) else (ofVars rest value).get? v :=
      lookup_cons_eq_ite u v (value u) _
    rw [hcons, ih]
    by_cases hv : v = u
    · subst hv
      simp
    · simp [hv]

theorem binds_ofVars (vars : List Symbol) (value : Symbol → Statement) :
    (ofVars vars value).Binds vars := by
  intro v
  rw [get?_ofVars]
  by_cases hv : v ∈ vars <;> simp [hv]

theorem image_ofVars_of_mem {vars : List Symbol} {v : Symbol} (hv : v ∈ vars)
    (value : Symbol → Statement) : (ofVars vars value).image v = value v :=
  image_of_get? (by rw [get?_ofVars, if_pos hv])

/-- Substitutions that agree on every symbol of a statement act alike on the statement. -/
theorem apply_congr {σ τ : Substitution} {statement : Statement}
    (hagree : ∀ symbol ∈ statement, σ.image symbol = τ.image symbol) :
    σ.apply statement = τ.apply statement :=
  List.flatMap_congr hagree

/-- Substitutions with the same bindings act alike, in whichever order they list them. -/
theorem apply_eq_of_get?_eq {σ τ : Substitution} (hsame : ∀ v, σ.get? v = τ.get? v) :
    σ.apply = τ.apply := by
  funext statement
  apply apply_congr
  intro symbol _
  rw [image, image, hsame symbol]

/-- A symbol of an instance comes from the image of a symbol of the statement. -/
theorem mem_apply {σ : Substitution} {statement : Statement} {symbol : Symbol} :
    symbol ∈ σ.apply statement ↔ ∃ origin ∈ statement, symbol ∈ σ.image origin :=
  List.mem_flatMap

/-- Nothing disappears if no variable is bound to an empty expression. -/
theorem apply_ne_nil {σ : Substitution} {statement : Statement}
    (hσ : ∀ binding ∈ σ.bindings, binding.2 ≠ []) (hne : statement ≠ []) :
    σ.apply statement ≠ [] := by
  obtain ⟨first, rest, rfl⟩ := List.exists_cons_of_ne_nil hne
  rw [apply_cons]
  apply List.append_ne_nil_of_left_ne_nil
  rw [image]
  cases hbound : σ.get? first with
  | none => exact List.cons_ne_nil first []
  | some expression => exact hσ (first, expression) (mem_bindings_of_get? hbound)

theorem forall_mem_apply {σ : Substitution} {statement : Statement} {P : Symbol → Prop}
    (hσ : ∀ binding ∈ σ.bindings, ∀ symbol ∈ binding.2, P symbol)
    (hstatement : ∀ symbol ∈ statement, P symbol) : ∀ symbol ∈ σ.apply statement, P symbol := by
  intro symbol hsymbol
  obtain ⟨origin, horigin, himage⟩ := mem_apply.mp hsymbol
  rw [image] at himage
  cases hbound : σ.get? origin with
  | none =>
    rw [hbound] at himage
    rw [List.mem_singleton.mp himage]
    exact hstatement origin horigin
  | some expression =>
    rw [hbound] at himage
    exact hσ (origin, expression) (mem_bindings_of_get? hbound) symbol himage

/-- Applying `σ` and then `τ` to a statement is applying the one substitution that binds every
variable of `σ` to what `τ` makes of its expression. The symbols that `σ` does not bind have to be
left alone by `τ`, too. -/
theorem apply_apply {σ τ : Substitution} {vars : List Symbol} (hbinds : σ.Binds vars)
    {statement : Statement}
    (hfixed : ∀ symbol ∈ statement, symbol ∉ vars → τ.image symbol = [symbol]) :
    τ.apply (σ.apply statement) =
      (ofVars vars fun v => τ.apply (σ.image v)).apply statement := by
  rw [apply, apply, List.flatMap_assoc]
  apply List.flatMap_congr
  intro symbol hsymbol
  by_cases hv : symbol ∈ vars
  · exact (image_ofVars_of_mem hv fun v => τ.apply (σ.image v)).symm
  · rw [hbinds.image_of_not_mem hv, (binds_ofVars vars _).image_of_not_mem hv,
      List.flatMap_singleton, hfixed symbol hsymbol hv]

end Substitution

end Metamath
