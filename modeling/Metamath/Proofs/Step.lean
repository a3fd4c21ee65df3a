import Metamath.Proof.Step
import Metamath.Proofs.Substitution

/-!
# What a proof step does

Applying an assertion is written as three loops over stack entries: one that collects bindings, one
that compares, one that looks for variables that overlap. Here each loop is given its meaning, and
the three meanings together are the rule of substitution: a step succeeds exactly if the entries are
the hypotheses of an instance of the assertion that respects its disjointness conditions, and it
yields the conclusion of that instance.

The rule needs an assertion whose floating hypotheses type different variables, and all of whose
disjointness conditions are about these variables. For other assertions, later bindings would
overwrite earlier ones, and conditions on unbound variables would be passed over.
-/

namespace Metamath

/-- A computation in two parts yields a result exactly if its first part yields one from which its
second part yields the result. -/
theorem bind_eq_ok_iff {ε α β : Type} {first : Except ε α} {second : α → Except ε β} {result : β} :
    first >>= second = .ok result ↔ ∃ middle, first = .ok middle ∧ second middle = .ok result := by
  cases first with
  | error e => simp [bind, Except.bind]
  | ok middle => simp [bind, Except.bind]

theorem map_eq_ok_iff {ε α β : Type} {first : Except ε α} {f : α → β} {result : β} :
    first.map f = .ok result ↔ ∃ middle, first = .ok middle ∧ f middle = result := by
  cases first with
  | error e => simp [Except.map]
  | ok middle => simp [Except.map]

/-- A computation in two parts fails exactly if its first part fails, or if that part yields a
result from which its second part fails. -/
theorem bind_eq_error_iff {ε α β : Type} {first : Except ε α} {second : α → Except ε β}
    {error : ε} :
    first >>= second = .error error ↔
      first = .error error ∨ ∃ middle, first = .ok middle ∧ second middle = .error error := by
  cases first with
  | error e => simp [bind, Except.bind]
  | ok middle => simp [bind, Except.bind]

theorem map_eq_error_iff {ε α β : Type} {first : Except ε α} {f : α → β} {error : ε} :
    first.map f = .error error ↔ first = .error error := by
  cases first with
  | error e => simp [Except.map]
  | ok middle => simp [Except.map]

theorem exists_eq_ok_of_any {ε α : Type} {result : Except ε α} {p : α → Bool}
    (hany : result.toOption.any p) : ∃ a, result = .ok a ∧ p a := by
  cases result with
  | error e => cases hany
  | ok a => exact ⟨a, rfl, hany⟩

theorem forM_eq_ok_iff {ε α : Type} {check : α → Except ε Unit} {elements : List α} :
    elements.forM check = .ok () ↔ ∀ element ∈ elements, check element = .ok () := by
  induction elements with
  | nil => exact iff_of_true rfl (by simp)
  | cons element rest ih =>
    rw [List.forM, bind_eq_ok_iff, List.forall_mem_cons, ← ih]
    exact ⟨fun ⟨⟨⟩, helement, hrest⟩ => ⟨helement, hrest⟩,
      fun ⟨helement, hrest⟩ => ⟨(), helement, hrest⟩⟩

namespace Assertion

/-- The variables of the floating hypotheses. -/
def vars (assertion : Assertion) : List Symbol :=
  assertion.floating.map Typing.var

/-- The instances of the floating hypotheses. -/
def typings (assertion : Assertion) (σ : Substitution) : List Statement :=
  assertion.floating.map fun typing => typing.typecode :: σ.image typing.var

/-- The instances of all hypotheses, in the order in which a proof step consumes them. -/
def hypotheses (assertion : Assertion) (σ : Substitution) : List Statement :=
  assertion.floating.map (fun typing => typing.typecode :: σ.image typing.var) ++
    assertion.essential.map σ.apply

/-- The floating hypotheses type different variables, and the disjointness conditions are about
these variables. -/
structure WellFormed (assertion : Assertion) : Prop where
  distinct : assertion.vars.Nodup
  typed : ∀ pair ∈ assertion.disjoint, pair.1 ∈ assertion.vars ∧ pair.2 ∈ assertion.vars

instance (assertion : Assertion) : Decidable assertion.WellFormed :=
  decidable_of_iff (assertion.vars.Nodup ∧
      ∀ pair ∈ assertion.disjoint, pair.1 ∈ assertion.vars ∧ pair.2 ∈ assertion.vars)
    ⟨fun hboth => ⟨hboth.1, hboth.2⟩, fun hwell => ⟨hwell.distinct, hwell.typed⟩⟩

end Assertion

/-- Any active variable of the first expression is different from any active variable of the second
one and declared disjoint from it. -/
def Environment.Separates (env : Environment) (first second : Statement) : Prop :=
  ∀ x ∈ first, ∀ y ∈ second, env.isVariable x → env.isVariable y → x ≠ y ∧ env.isDisjoint x y

/-- The entries are the hypotheses of the instance of an assertion by `σ`, which replaces the
variables that have to be disjoint by expressions that the environment separates. -/
structure Assertion.Fits (assertion : Assertion) (env : Environment) (σ : Substitution)
    (entries : List Statement) : Prop where
  binds : σ.Binds assertion.vars
  entries_eq : entries = assertion.hypotheses σ
  separates : ∀ pair ∈ assertion.disjoint, env.Separates (σ.image pair.1) (σ.image pair.2)

@[simp]
theorem Assertion.length_hypotheses (assertion : Assertion) (σ : Substitution) :
    (assertion.hypotheses σ).length = assertion.arity := by
  simp [hypotheses, arity]

@[simp]
theorem Assertion.length_typings (assertion : Assertion) (σ : Substitution) :
    (assertion.typings σ).length = assertion.floating.length :=
  List.length_map _

theorem Assertion.typings_append (assertion : Assertion) (σ : Substitution) :
    assertion.typings σ ++ assertion.essential.map σ.apply = assertion.hypotheses σ := rfl

/-- The expression of a variable stands, with its typecode, among the entries. -/
theorem Assertion.Fits.typing_mem {assertion : Assertion} {env : Environment} {σ : Substitution}
    {entries : List Statement} (hfits : assertion.Fits env σ entries) {typing : Typing}
    (htyping : typing ∈ assertion.floating) : typing.typecode :: σ.image typing.var ∈ entries := by
  rw [hfits.entries_eq]
  exact List.mem_append_left _ (List.mem_map_of_mem htyping)

/-- A substitution of the variables binds all variables that have to be disjoint. -/
theorem Assertion.WellFormed.isSome_get? {assertion : Assertion} (hwell : assertion.WellFormed)
    {σ : Substitution} (hbinds : σ.Binds assertion.vars) :
    ∀ pair ∈ assertion.disjoint, (σ.get? pair.1).isSome ∧ (σ.get? pair.2).isSome := by
  intro pair hpair
  obtain ⟨hx, hy⟩ := hwell.typed pair hpair
  exact ⟨(hbinds pair.1).mpr hx, (hbinds pair.2).mpr hy⟩

theorem Environment.mem_toList_variablesIn {env : Environment} {statement : Statement}
    {symbol : Symbol} :
    symbol ∈ (env.variablesIn statement).toList ↔
      symbol ∈ statement ∧ env.isVariable symbol := by
  simp [variablesIn]

namespace Proof

/-- Matching binds exactly the typed variables anew, and every entry is then the typing of the
expression that its variable is bound to. -/
theorem matchFloating_sound {typings : List Typing} {entries : List Statement}
    {σ τ : Substitution} (hdistinct : (typings.map Typing.var).Nodup)
    (hlength : entries.length = typings.length)
    (hmatch : matchFloating σ typings entries = .ok τ) :
    (∀ v, v ∉ typings.map Typing.var → τ.get? v = σ.get? v) ∧
      (∀ v ∈ typings.map Typing.var, (τ.get? v).isSome) ∧
      entries = typings.map fun typing => typing.typecode :: τ.image typing.var := by
  induction typings generalizing entries σ with
  | nil =>
    have hnil : entries = [] := List.length_eq_zero_iff.mp hlength
    subst hnil
    cases hmatch
    simp
  | cons typing typings ih =>
    obtain ⟨entry, entries, rfl⟩ := List.exists_cons_of_length_eq_add_one hlength
    rw [List.map_cons, List.nodup_cons] at hdistinct
    cases entry with
    | nil => cases hmatch
    | cons typecode expression =>
      simp only [matchFloating] at hmatch
      split at hmatch
      · rename_i htypecode
        obtain ⟨hother, hbound, hentries⟩ :=
          ih hdistinct.2 (Nat.succ.inj hlength) hmatch
        -- the variable does not occur again, so its binding survives to the end
        have hkept : τ.get? typing.var = some expression := by
          rw [hother _ hdistinct.1, Substitution.get?_insert_self]
        refine ⟨fun v hv => ?_, fun v hv => ?_, ?_⟩
        · rw [List.map_cons, List.mem_cons, not_or] at hv
          rw [hother v hv.2, Substitution.get?_insert_of_ne σ hv.1]
        · rw [List.map_cons, List.mem_cons] at hv
          rcases hv with rfl | hv
          · rw [hkept, Option.isSome_some]
          · exact hbound v hv
        · rw [List.map_cons, ← hentries, Substitution.image_of_get? hkept, htypecode]
      · cases hmatch

/-- Matching succeeds on the typings of any expressions, and binds the variables to them. -/
theorem matchFloating_complete (value : Symbol → Statement) (typings : List Typing)
    (σ : Substitution) :
    ∃ τ, matchFloating σ typings
        (typings.map fun typing => typing.typecode :: value typing.var) = .ok τ ∧
      (∀ v, v ∉ typings.map Typing.var → τ.get? v = σ.get? v) ∧
      ∀ v ∈ typings.map Typing.var, τ.get? v = some (value v) := by
  induction typings generalizing σ with
  | nil => exact ⟨σ, rfl, fun _ _ => rfl, by simp⟩
  | cons typing typings ih =>
    obtain ⟨τ, hmatch, hother, hbound⟩ := ih (σ.insert typing.var (value typing.var))
    refine ⟨τ, ?_, fun v hv => ?_, fun v hv => ?_⟩
    · simpa [matchFloating] using hmatch
    · rw [List.map_cons, List.mem_cons, not_or] at hv
      rw [hother v hv.2, Substitution.get?_insert_of_ne σ hv.1]
    · by_cases hlater : v ∈ typings.map Typing.var
      · exact hbound v hlater
      · have hself : v = typing.var := by simpa [hlater] using hv
        rw [hother v hlater, hself, Substitution.get?_insert_self]

/-- Matching that starts from no bindings finds a substitution of the typed variables, and the
entries are the typings of what it binds them to. -/
theorem binds_of_matchFloating {typings : List Typing} {entries : List Statement}
    {σ : Substitution} (hdistinct : (typings.map Typing.var).Nodup)
    (hlength : entries.length = typings.length)
    (hmatch : matchFloating .empty typings entries = .ok σ) :
    σ.Binds (typings.map Typing.var) ∧
      entries = typings.map fun typing => typing.typecode :: σ.image typing.var := by
  obtain ⟨hother, hbound, hentries⟩ := matchFloating_sound hdistinct hlength hmatch
  refine ⟨fun v => ?_, hentries⟩
  by_cases hv : v ∈ typings.map Typing.var
  · exact iff_of_true (hbound v hv) hv
  · rw [hother v hv]
    exact iff_of_false (by simp) hv

/-- Conversely, the substitution of the typed variables is found again, although its bindings need
not be listed as before. -/
theorem exists_matchFloating_of_binds {typings : List Typing} {σ : Substitution}
    (hbinds : σ.Binds (typings.map Typing.var)) :
    ∃ τ, matchFloating .empty typings
        (typings.map fun typing => typing.typecode :: σ.image typing.var) = .ok τ ∧
      ∀ v, τ.get? v = σ.get? v := by
  obtain ⟨τ, hmatch, hother, hbound⟩ := matchFloating_complete σ.image typings .empty
  refine ⟨τ, hmatch, fun v => ?_⟩
  by_cases hv : v ∈ typings.map Typing.var
  · rw [hbound v hv, hbinds.get?_eq_some_image hv]
  · rw [hother v hv, Substitution.get?_empty, hbinds.get?_of_not_mem hv]

/-- Comparing succeeds exactly on the instances of the hypotheses. -/
theorem matchEssential_eq_ok_iff {σ : Substitution} {hypotheses entries : List Statement}
    (hlength : entries.length = hypotheses.length) :
    matchEssential σ hypotheses entries = .ok () ↔ entries = hypotheses.map σ.apply := by
  induction hypotheses generalizing entries with
  | nil =>
    have hnil : entries = [] := List.length_eq_zero_iff.mp hlength
    simp [hnil, matchEssential]
  | cons hypothesis hypotheses ih =>
    obtain ⟨entry, entries, rfl⟩ := List.exists_cons_of_length_eq_add_one hlength
    rw [matchEssential, List.map_cons, List.cons.injEq]
    by_cases hentry : σ.apply hypothesis = entry
    · rw [if_pos hentry, ih (Nat.succ.inj hlength)]
      exact ⟨fun hrest => ⟨hentry.symm, hrest⟩, fun hboth => hboth.2⟩
    · rw [if_neg hentry]
      refine ⟨?_, ?_⟩
      · intro herror
        cases herror
      · intro hboth
        exact absurd hboth.1.symm hentry

/-- No overlap is found exactly if the environment separates the expressions. -/
theorem overlap?_eq_none_iff {env : Environment} {first second : Statement} :
    overlap? env first second = none ↔ env.Separates first second := by
  simp only [overlap?, List.findSome?_eq_none_iff, Environment.mem_toList_variablesIn,
    Environment.Separates]
  refine ⟨?_, ?_⟩
  · intro hnone x hx y hy hxvar hyvar
    simpa using hnone x ⟨hx, hxvar⟩ y ⟨hy, hyvar⟩
  · intro hseparates x hx y hy
    simpa using hseparates x hx.1 y hy.1 hx.2 hy.2

/-- The check of the disjointness conditions succeeds exactly if the environment separates the
expressions of every pair whose variables are both bound. -/
theorem checkDisjoint_eq_ok_iff {env : Environment} {σ : Substitution} {pairs : List Pair} :
    checkDisjoint env σ pairs = .ok () ↔
      ∀ pair ∈ pairs, ∀ first second, σ.get? pair.1 = some first → σ.get? pair.2 = some second →
        env.Separates first second := by
  induction pairs with
  | nil => simp [checkDisjoint]
  | cons pair pairs ih =>
    obtain ⟨x, y⟩ := pair
    rw [List.forall_mem_cons, ← ih, checkDisjoint]
    split
    · rename_i first second hx hy
      have hpair : (∀ left right, σ.get? x = some left → σ.get? y = some right →
          env.Separates left right) ↔ overlap? env first second = none := by
        rw [overlap?_eq_none_iff]
        refine ⟨?_, ?_⟩
        · intro hall
          exact hall first second hx hy
        · intro hseparates left right hleft hright
          cases hx.symm.trans hleft
          cases hy.symm.trans hright
          exact hseparates
      rw [hpair]
      cases overlap? env first second <;> simp
    · rename_i hunbound
      refine ⟨?_, ?_⟩
      · intro hrest
        exact ⟨fun first second hx hy => absurd hy (hunbound first second hx), hrest⟩
      · intro hboth
        exact hboth.2

theorem matchEssential_eq_of_get?_eq {σ τ : Substitution} (hsame : ∀ v, τ.get? v = σ.get? v)
    (hypotheses entries : List Statement) :
    matchEssential τ hypotheses entries = matchEssential σ hypotheses entries := by
  induction hypotheses generalizing entries with
  | nil => rfl
  | cons hypothesis hypotheses ih =>
    cases entries with
    | nil => rfl
    | cons entry entries =>
      simp only [matchEssential, Substitution.apply_eq_of_get?_eq hsame, ih]

theorem checkDisjoint_eq_of_get?_eq {σ τ : Substitution} (hsame : ∀ v, τ.get? v = σ.get? v)
    (env : Environment) (pairs : List Pair) :
    checkDisjoint env τ pairs = checkDisjoint env σ pairs := by
  induction pairs with
  | nil => rfl
  | cons pair pairs ih => simp only [checkDisjoint, hsame, ih]

theorem conclude_append {env : Environment} {assertion : Assertion} {floats : List Statement}
    (hfloats : floats.length = assertion.floating.length) (essentials : List Statement) :
    conclude env assertion (floats ++ essentials) = do
      let σ ← matchFloating .empty assertion.floating floats
      matchEssential σ assertion.essential essentials
      checkDisjoint env σ assertion.disjoint
      return σ.apply assertion.conclusion := by
  have hsplit : (floats ++ essentials).splitAt assertion.floating.length =
      (floats, essentials) := by
    rw [List.splitAt_eq, ← hfloats, List.take_left, List.drop_left]
  rw [conclude, hsplit]

/-- Once the floating hypotheses match, the rest of an application is about the substitution that
they determine, however its bindings are listed. -/
theorem conclude_typings_append {env : Environment} {assertion : Assertion} {σ : Substitution}
    (hbinds : σ.Binds assertion.vars) (essentials : List Statement) :
    conclude env assertion (assertion.typings σ ++ essentials) = do
      matchEssential σ assertion.essential essentials
      checkDisjoint env σ assertion.disjoint
      return σ.apply assertion.conclusion := by
  obtain ⟨τ, hmatch, hsame⟩ := exists_matchFloating_of_binds hbinds
  rw [conclude_append (assertion.length_typings σ), Assertion.typings, hmatch,
    ← Substitution.apply_eq_of_get?_eq hsame, ← checkDisjoint_eq_of_get?_eq hsame,
    ← matchEssential_eq_of_get?_eq hsame]
  rfl

/-- The arguments of a step are divided between the two kinds of hypotheses. -/
theorem exists_split {assertion : Assertion} {args : List Statement}
    (hlength : args.length = assertion.arity) :
    ∃ floats essentials, args = floats ++ essentials ∧
      floats.length = assertion.floating.length ∧
      essentials.length = assertion.essential.length := by
  rw [Assertion.arity] at hlength
  refine ⟨args.take assertion.floating.length, args.drop assertion.floating.length,
    (List.take_append_drop _ _).symm, ?_, ?_⟩
  · rw [List.length_take]
    omega
  · rw [List.length_drop]
    omega

/-- What an application of an assertion finds out: a substitution that fits the entries. -/
theorem fits_of_conclude {env : Environment} {assertion : Assertion}
    (hwell : assertion.WellFormed) {entries : List Statement}
    (hlength : entries.length = assertion.arity) {conclusion : Statement}
    (hconclude : conclude env assertion entries = .ok conclusion) :
    ∃ σ, assertion.Fits env σ entries ∧ conclusion = σ.apply assertion.conclusion := by
  obtain ⟨floats, essentials, rfl, hfloats, hessentials⟩ := exists_split hlength
  simp only [conclude_append hfloats, bind_eq_ok_iff] at hconclude
  obtain ⟨σ, hmatch, ⟨⟩, hcompare, ⟨⟩, hcheck, hresult⟩ := hconclude
  obtain ⟨hbinds, rfl⟩ := binds_of_matchFloating hwell.distinct hfloats hmatch
  obtain rfl := (matchEssential_eq_ok_iff hessentials).mp hcompare
  cases hresult
  refine ⟨σ, ⟨hbinds, rfl, fun pair hpair => ?_⟩, rfl⟩
  obtain ⟨hx, hy⟩ := hwell.typed pair hpair
  exact checkDisjoint_eq_ok_iff.mp hcheck pair hpair _ _
    (hbinds.get?_eq_some_image hx) (hbinds.get?_eq_some_image hy)

/-- An assertion can be applied to the hypotheses of each of its instances that respects its
disjointness conditions. -/
theorem conclude_of_fits {env : Environment} {assertion : Assertion} {σ : Substitution}
    {entries : List Statement} (hfits : assertion.Fits env σ entries) :
    conclude env assertion entries = .ok (σ.apply assertion.conclusion) := by
  obtain ⟨hbinds, rfl, hseparates⟩ := hfits
  have hdisjoint : checkDisjoint env σ assertion.disjoint = .ok () := by
    rw [checkDisjoint_eq_ok_iff]
    intro pair hpair first second hx hy
    rw [← Substitution.image_of_get? hx, ← Substitution.image_of_get? hy]
    exact hseparates pair hpair
  rw [← assertion.typings_append, conclude_typings_append hbinds,
    (matchEssential_eq_ok_iff (List.length_map _)).mpr rfl, hdisjoint]
  rfl

/-- Applying an assertion succeeds exactly if some substitution makes the entries its hypotheses and
respects its disjointness conditions; the result is the instance of the conclusion. -/
theorem conclude_eq_ok_iff {env : Environment} {assertion : Assertion}
    (hwell : assertion.WellFormed) {entries : List Statement}
    (hlength : entries.length = assertion.arity) {conclusion : Statement} :
    conclude env assertion entries = .ok conclusion ↔
      ∃ σ, assertion.Fits env σ entries ∧ conclusion = σ.apply assertion.conclusion := by
  refine ⟨?_, ?_⟩
  · exact fits_of_conclude hwell hlength
  · rintro ⟨σ, hfits, rfl⟩
    exact conclude_of_fits hfits

end Proof

namespace Stack

variable {α : Type}

/-- The stack on which the elements of a list are pushed one after another. -/
def pushAll (stack : Stack α) (pushed : List α) : Stack α :=
  ⟨pushed.reverse ++ stack.entries⟩

@[simp]
theorem pushAll_nil (stack : Stack α) : stack.pushAll [] = stack := rfl

@[simp]
theorem pushAll_cons (stack : Stack α) (entry : α) (rest : List α) :
    stack.pushAll (entry :: rest) = (stack.push entry).pushAll rest := by
  simp [pushAll, push]

theorem pushAll_append (stack : Stack α) (first second : List α) :
    stack.pushAll (first ++ second) = (stack.pushAll first).pushAll second := by
  simp [pushAll]

@[simp]
theorem toList_pushAll (stack : Stack α) (pushed : List α) :
    (stack.pushAll pushed).toList = stack.toList ++ pushed := by
  simp [pushAll, toList]

@[simp]
theorem pop_pushAll (stack : Stack α) (pushed : List α) :
    (stack.pushAll pushed).pop pushed.length = stack := by
  simp [pushAll, pop]

theorem reduce?_pushAll (stack : Stack α) (pushed : List α) (entry : α) :
    (stack.pushAll pushed).reduce? pushed.length entry = some (stack.push entry) := by
  have henough : pushed.length ≤ (stack.pushAll pushed).size := by
    simp [pushAll, size]
  rw [reduce?, if_pos henough, pop_pushAll]

theorem pushAll_singleton (stack : Stack α) (entry : α) :
    stack.pushAll [entry] = stack.push entry := rfl

theorem top?_eq_some_iff {stack : Stack α} {entry : α} :
    stack.top? = some entry ↔ ∃ base : Stack α, stack = base.push entry := by
  rw [top?, List.head?_eq_some_iff]
  refine ⟨fun ⟨rest, hentries⟩ => ⟨⟨rest⟩, ?_⟩, fun ⟨base, hstack⟩ => ⟨base.entries, ?_⟩⟩
  · cases stack
    exact congrArg mk hentries
  · rw [hstack]
    rfl

theorem toList_injective : Function.Injective (toList : Stack α → List α) := by
  rintro ⟨first⟩ ⟨second⟩ hequal
  exact congrArg mk (List.reverse_injective hequal)

theorem eq_pushAll_toList (stack : Stack α) : stack = empty.pushAll stack.toList := by
  simp [pushAll, toList, empty]

theorem length_toList (stack : Stack α) : stack.toList.length = stack.size :=
  List.length_reverse

theorem args?_eq_none_iff {stack : Stack α} {n : Nat} :
    stack.args? n = none ↔ stack.toList.length < n := by
  simp only [args?, length_toList, size, List.length_take, ite_eq_right_iff, reduceCtorEq,
    imp_false]
  omega

/-- The arguments of a step are the elements that were pushed last. -/
theorem args?_eq_some_iff {stack : Stack α} {n : Nat} {args : List α} :
    stack.args? n = some args ↔ args.length = n ∧ ∃ base : Stack α, stack = base.pushAll args := by
  refine ⟨?_, ?_⟩
  · intro hargs
    simp only [args?, Option.ite_none_right_eq_some, Option.some.injEq] at hargs
    obtain ⟨hlength, rfl⟩ := hargs
    refine ⟨by rw [List.length_reverse, hlength], ⟨stack.pop n, ?_⟩⟩
    simp [pushAll, pop]
  · rintro ⟨rfl, base, rfl⟩
    simp [args?, pushAll]

end Stack

namespace Proof.Context

variable {context : Context} {label : Symbol}

/-- A label stands for a hypothesis if it is that of an active `$f` or `$e`. -/
theorem step_eq_hypothesis_iff {statement : Statement} :
    context.step label = .ok (.hypothesis statement) ↔
      (context.labels.get? label = some (.floating statement) ∨
        context.labels.get? label = some (.essential statement)) ∧
      context.environment.isHypothesis label := by
  rw [step]
  split <;> simp_all
  all_goals split <;> simp_all

/-- A label stands for an assertion if it is that of a `$a` or `$p`, wherever these stand. -/
theorem step_eq_assertion_iff {assertion : Assertion} :
    context.step label = .ok (.assertion assertion) ↔
      context.labels.get? label = some (.axiomatic assertion) ∨
        context.labels.get? label = some (.provable assertion) := by
  rw [step]
  split <;> simp_all
  all_goals split <;> simp_all

/-- Applying an assertion replaces as many entries as it has hypotheses by one, and does not look
at the entries below. -/
theorem perform_assertion_eq_ok_iff {assertion : Assertion} {stack result : Stack Statement} :
    context.perform (.assertion assertion) stack = .ok result ↔
      ∃ (base : Stack Statement) (args : List Statement) (conclusion : Statement),
        args.length = assertion.arity ∧ stack = base.pushAll args ∧
        conclude context.environment assertion args = .ok conclusion ∧
        result = base.push conclusion := by
  simp only [perform]
  refine ⟨?_, ?_⟩
  · intro hperform
    split at hperform
    · cases hperform
    · rename_i args hargs
      obtain ⟨hlength, base, rfl⟩ := Stack.args?_eq_some_iff.mp hargs
      obtain ⟨conclusion, hconclude, rfl⟩ := map_eq_ok_iff.mp hperform
      refine ⟨base, args, conclusion, hlength, rfl, hconclude, ?_⟩
      rw [← hlength, Stack.reduce?_pushAll, Option.getD_some]
  · rintro ⟨base, args, conclusion, hlength, rfl, hconclude, rfl⟩
    rw [Stack.args?_eq_some_iff.mpr ⟨hlength, base, rfl⟩]
    simp only [hconclude, Except.map, ← hlength, Stack.reduce?_pushAll, Option.getD_some]

end Proof.Context

end Metamath
