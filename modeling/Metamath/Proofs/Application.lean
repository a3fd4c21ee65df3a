import Metamath.Proofs.Replay
import Metamath.Proofs.Step

/-!
# Why an assertion cannot be applied

The rule of substitution says when a proof step succeeds. Here is the other half: what is reported
when it does not. There are four causes, which are looked for one after another. The stack can be
too short, an entry can have the wrong typecode, an entry can differ from the instance of its
hypothesis, and variables can fail to be disjoint. Each loop of a step stops at the first place with
its cause, so the causes can be said without the loops: up to some place everything is as in an
instance of the assertion, and at that place it is not.

A step that is refused leaves the stack as it was.
-/

namespace Metamath

/-- The elements `a` and `b` stand at the same place of two lists and are not related, while all
elements before them are. -/
inductive Mismatch {α β : Type} (R : α → β → Prop) (a : α) (b : β) : List α → List β → Prop
  | here {as : List α} {bs : List β} (hunlike : ¬ R a b) : Mismatch R a b (a :: as) (b :: bs)
  | later {a' : α} {b' : β} {as : List α} {bs : List β} (halike : R a' b')
      (hrest : Mismatch R a b as bs) : Mismatch R a b (a' :: as) (b' :: bs)

namespace Mismatch

variable {α β : Type} {R : α → β → Prop} {a a' : α} {b b' : β} {as : List α} {bs : List β}

theorem nil_left_iff : Mismatch R a b [] bs ↔ False :=
  iff_of_false (fun hmismatch => by cases hmismatch) id

theorem nil_right_iff : Mismatch R a b as [] ↔ False :=
  iff_of_false (fun hmismatch => by cases hmismatch) id

/-- Elements that are related are passed over. -/
theorem cons_iff_of_alike (halike : R a' b') :
    Mismatch R a b (a' :: as) (b' :: bs) ↔ Mismatch R a b as bs := by
  refine ⟨?_, ?_⟩
  · intro hmismatch
    cases hmismatch with
    | here hunlike => exact absurd halike hunlike
    | later _ hrest => exact hrest
  · exact later halike

/-- Elements that are not related are the first such ones. -/
theorem cons_iff_of_unlike (hunlike : ¬ R a' b') :
    Mismatch R a b (a' :: as) (b' :: bs) ↔ a = a' ∧ b = b' := by
  refine ⟨?_, ?_⟩
  · intro hmismatch
    cases hmismatch with
    | here _ => exact ⟨rfl, rfl⟩
    | later halike _ => exact absurd halike hunlike
  · rintro ⟨rfl, rfl⟩
    exact here hunlike

end Mismatch

/-- The stack entry has the typecode of the floating hypothesis. -/
def Typing.Heads (typing : Typing) (entry : Statement) : Prop :=
  entry.head? = some typing.typecode

/-- The stack entry is the instance of the essential hypothesis. -/
def Substitution.Instantiates (σ : Substitution) (hypothesis entry : Statement) : Prop :=
  entry = σ.apply hypothesis

namespace Assertion

/-- The hypotheses of an instance determine the substitution. -/
theorem get?_eq_of_hypotheses_eq (assertion : Assertion) {σ τ : Substitution}
    (hσ : σ.Binds assertion.vars) (hτ : τ.Binds assertion.vars)
    (hequal : assertion.hypotheses σ = assertion.hypotheses τ) (v : Symbol) :
    σ.get? v = τ.get? v := by
  rw [← typings_append, ← typings_append] at hequal
  have htypings := (List.append_inj hequal (by rw [length_typings, length_typings])).1
  by_cases hv : v ∈ assertion.vars
  · obtain ⟨typing, htyping, rfl⟩ := List.mem_map.mp hv
    rw [hσ.get?_eq_some_image hv, hτ.get?_eq_some_image hv]
    exact congrArg some (List.cons.inj (List.map_inj_left.mp htypings typing htyping)).2
  · rw [hσ.get?_of_not_mem hv, hτ.get?_of_not_mem hv]

/-- The assertion cannot be applied to the stack, whose entries are listed as they were pushed, for
the given cause. A cause that comes later supposes that those before it do not occur. -/
inductive Refuses (assertion : Assertion) (env : Environment) : List Statement → Proof.Error → Prop
  | underflow {stack : List Statement} (hfew : stack.length < assertion.arity) :
      Refuses assertion env stack (.underflow assertion.arity stack.length)
  | typecode {base floats essentials : List Statement} {typing : Typing} {entry : Statement}
      (hfloats : floats.length = assertion.floating.length)
      (hessentials : essentials.length = assertion.essential.length)
      (hmismatch : Mismatch Typing.Heads typing entry assertion.floating floats) :
      Refuses assertion env (base ++ floats ++ essentials)
        (.typecodeMismatch typing.typecode entry)
  | hypothesis {base essentials : List Statement} {σ : Substitution}
      {hypothesis entry : Statement} (hbinds : σ.Binds assertion.vars)
      (hessentials : essentials.length = assertion.essential.length)
      (hmismatch : Mismatch σ.Instantiates hypothesis entry assertion.essential essentials) :
      Refuses assertion env (base ++ assertion.typings σ ++ essentials)
        (.hypothesisMismatch (σ.apply hypothesis) entry)
  | disjoint {base : List Statement} {σ : Substitution} {earlier later : List Pair}
      {x y u v : Symbol} (hbinds : σ.Binds assertion.vars)
      (hpairs : assertion.disjoint = earlier ++ (x, y) :: later)
      (hearlier : ∀ pair ∈ earlier, env.Separates (σ.image pair.1) (σ.image pair.2))
      (hu : u ∈ σ.image x ∧ env.isVariable u) (hv : v ∈ σ.image y ∧ env.isVariable v)
      (hoverlap : u = v ∨ ¬ env.isDisjoint u v) :
      Refuses assertion env (base ++ assertion.hypotheses σ) (.disjointViolation u v)

end Assertion

namespace Proof

variable {context : Context} {env : Environment} {assertion : Assertion} {σ : Substitution}
  {error : Error}

/-- The same cause, except that another two variables may have been found not to be disjoint. -/
inductive Error.Alike : Error → Error → Prop
  | refl (error : Error) : Alike error error
  | disjointViolation (x y u v : Symbol) : Alike (.disjointViolation x y) (.disjointViolation u v)

theorem matchFloating_cons_of_heads {typing : Typing} {entry : Statement}
    (hheads : typing.Heads entry) (typings : List Typing) (entries : List Statement) :
    matchFloating σ (typing :: typings) (entry :: entries) =
      matchFloating (σ.insert typing.var entry.tail) typings entries := by
  obtain ⟨expression, rfl⟩ := List.head?_eq_some_iff.mp hheads
  rw [matchFloating, if_pos rfl, List.tail_cons]

theorem matchFloating_cons_of_not_heads {typing : Typing} {entry : Statement}
    (hheads : ¬ typing.Heads entry) (typings : List Typing) (entries : List Statement) :
    matchFloating σ (typing :: typings) (entry :: entries) =
      .error (.typecodeMismatch typing.typecode entry) := by
  cases entry with
  | nil => rfl
  | cons typecode expression =>
    rw [matchFloating, if_neg fun heq => hheads (congrArg some heq)]

/-- Matching stops at the first entry that has not the typecode of its hypothesis. -/
theorem matchFloating_eq_error_iff {typings : List Typing} {entries : List Statement} :
    matchFloating σ typings entries = .error error ↔
      ∃ typing entry, Mismatch Typing.Heads typing entry typings entries ∧
        error = .typecodeMismatch typing.typecode entry := by
  induction typings generalizing σ entries with
  | nil => simp [matchFloating, Mismatch.nil_left_iff]
  | cons typing typings ih =>
    cases entries with
    | nil => simp [matchFloating, Mismatch.nil_right_iff]
    | cons entry entries =>
      by_cases hheads : typing.Heads entry
      · simp only [matchFloating_cons_of_heads hheads, ih, Mismatch.cons_iff_of_alike hheads]
      · rw [matchFloating_cons_of_not_heads hheads]
        simp [Mismatch.cons_iff_of_unlike hheads, eq_comm]

/-- Comparing stops at the first entry that is not the instance of its hypothesis. -/
theorem matchEssential_eq_error_iff {hypotheses entries : List Statement} :
    matchEssential σ hypotheses entries = .error error ↔
      ∃ hypothesis entry, Mismatch σ.Instantiates hypothesis entry hypotheses entries ∧
        error = .hypothesisMismatch (σ.apply hypothesis) entry := by
  induction hypotheses generalizing entries with
  | nil => simp [matchEssential, Mismatch.nil_left_iff]
  | cons hypothesis hypotheses ih =>
    cases entries with
    | nil => simp [matchEssential, Mismatch.nil_right_iff]
    | cons entry entries =>
      by_cases hinstance : σ.Instantiates hypothesis entry
      · rw [matchEssential, if_pos (Eq.symm hinstance), ih]
        simp only [Mismatch.cons_iff_of_alike hinstance]
      · rw [matchEssential, if_neg fun heq => hinstance heq.symm]
        simp [Mismatch.cons_iff_of_unlike hinstance, eq_comm]

/-- The check of pairs of bound variables looks for the first of them with an overlap. -/
theorem checkDisjoint_eq_error_iff {pairs : List Pair}
    (hbound : ∀ pair ∈ pairs, (σ.get? pair.1).isSome ∧ (σ.get? pair.2).isSome) :
    checkDisjoint env σ pairs = .error error ↔
      ∃ u v, pairs.findSome? (fun pair => overlap? env (σ.image pair.1) (σ.image pair.2)) =
          some (u, v) ∧ error = .disjointViolation u v := by
  induction pairs with
  | nil => simp [checkDisjoint]
  | cons pair pairs ih =>
    obtain ⟨x, y⟩ := pair
    rw [List.forall_mem_cons] at hbound
    obtain ⟨first, hfirst⟩ := Option.isSome_iff_exists.mp hbound.1.1
    obtain ⟨second, hsecond⟩ := Option.isSome_iff_exists.mp hbound.1.2
    simp only [checkDisjoint, hfirst, hsecond, List.findSome?_cons,
      Substitution.image_of_get? hfirst, Substitution.image_of_get? hsecond]
    cases overlap? env first second with
    | none => exact ih hbound.2
    | some overlap => simp [Prod.ext_iff, eq_comm]

/-- The overlap that is reported is one. -/
theorem overlap_of_overlap?_eq_some {first second : Statement} {u v : Symbol}
    (hoverlap : overlap? env first second = some (u, v)) :
    (u ∈ first ∧ env.isVariable u) ∧ (v ∈ second ∧ env.isVariable v) ∧
      (u = v ∨ ¬ env.isDisjoint u v) := by
  obtain ⟨x, hx, hfound⟩ := List.exists_of_findSome?_eq_some hoverlap
  obtain ⟨y, hy, hpair⟩ := List.exists_of_findSome?_eq_some hfound
  rw [Environment.mem_toList_variablesIn] at hx hy
  split at hpair
  · rename_i hbad
    cases hpair
    exact ⟨hx, hy, by simpa using hbad⟩
  · cases hpair

theorem not_separates_of_overlap {first second : Statement} {u v : Symbol}
    (hu : u ∈ first ∧ env.isVariable u) (hv : v ∈ second ∧ env.isVariable v)
    (hoverlap : u = v ∨ ¬ env.isDisjoint u v) : ¬ env.Separates first second := by
  intro hseparates
  obtain ⟨hne, hdisjoint⟩ := hseparates u hu.1 v hv.1 hu.2 hv.2
  exact hoverlap.elim hne fun hnot => hnot hdisjoint

/-- An instance that does not separate the variables of one of the conditions is refused for such a
reason. -/
theorem exists_conclude_eq_error (hwell : assertion.WellFormed) (hbinds : σ.Binds assertion.vars)
    {pair : Pair} (hpair : pair ∈ assertion.disjoint)
    (hoverlap : ¬ env.Separates (σ.image pair.1) (σ.image pair.2)) :
    ∃ u v, conclude env assertion (assertion.hypotheses σ) = .error (.disjointViolation u v) := by
  have hfound : (assertion.disjoint.findSome? fun pair =>
      overlap? env (σ.image pair.1) (σ.image pair.2)) ≠ none := by
    intro hnone
    exact hoverlap (overlap?_eq_none_iff.mp (List.findSome?_eq_none_iff.mp hnone pair hpair))
  obtain ⟨⟨u, v⟩, hsome⟩ := Option.ne_none_iff_exists'.mp hfound
  have hcheck : checkDisjoint env σ assertion.disjoint = .error (.disjointViolation u v) :=
    (checkDisjoint_eq_error_iff (hwell.isSome_get? hbinds)).mpr ⟨u, v, hsome, rfl⟩
  refine ⟨u, v, ?_⟩
  rw [← assertion.typings_append, conclude_typings_append hbinds,
    (matchEssential_eq_ok_iff (List.length_map _)).mpr rfl, hcheck]
  rfl

namespace Context

/-- The stack after a step, be it performed or refused. -/
def after (context : Context) (step : Step) (stack : Stack Statement) : Stack Statement :=
  match context.perform step stack with
  | .ok result => result
  | .error _ => stack

theorem after_of_error {step : Step} {stack : Stack Statement}
    (herror : context.perform step stack = .error error) : context.after step stack = stack := by
  rw [after, herror]

/-- An assertion cannot be applied if there are too few entries, or if the topmost ones do not
allow it. -/
theorem perform_assertion_eq_error_iff {stack : Stack Statement} :
    context.perform (.assertion assertion) stack = .error error ↔
      stack.toList.length < assertion.arity ∧
        error = .underflow assertion.arity stack.toList.length ∨
      ∃ base args, args.length = assertion.arity ∧ stack.toList = base ++ args ∧
        conclude context.environment assertion args = .error error := by
  simp only [perform]
  by_cases hfew : stack.toList.length < assertion.arity
  · rw [Stack.args?_eq_none_iff.mpr hfew]
    have hnone : ¬ ∃ base args, args.length = assertion.arity ∧ stack.toList = base ++ args ∧
        conclude context.environment assertion args = .error error := by
      rintro ⟨base, args, hlength, hlist, -⟩
      rw [hlist, List.length_append] at hfew
      omega
    rw [or_iff_left hnone, and_iff_right hfew, Except.error.injEq, Stack.length_toList, eq_comm]
  · obtain ⟨args, hargs⟩ := Option.ne_none_iff_exists'.mp (mt Stack.args?_eq_none_iff.mp hfew)
    obtain ⟨hlength, base, rfl⟩ := Stack.args?_eq_some_iff.mp hargs
    rw [hargs, or_iff_right fun hboth => hfew hboth.1]
    constructor
    · intro herror
      exact ⟨base.toList, args, hlength, Stack.toList_pushAll base args, map_eq_error_iff.mp herror⟩
    · rintro ⟨other, others, hother, hlist, herror⟩
      rw [Stack.toList_pushAll] at hlist
      have hequal := (List.append_inj' hlist (hlength.trans hother.symm)).2
      rw [hequal]
      exact map_eq_error_iff.mpr herror

/-- The causes that are left once the floating hypotheses match. -/
theorem refuses_of_conclude (hwell : assertion.WellFormed) (hbinds : σ.Binds assertion.vars)
    {base essentials : List Statement}
    (hessentials : essentials.length = assertion.essential.length)
    (hconclude : conclude env assertion (assertion.typings σ ++ essentials) = .error error) :
    assertion.Refuses env (base ++ assertion.typings σ ++ essentials) error := by
  rw [conclude_typings_append hbinds, bind_eq_error_iff] at hconclude
  rcases hconclude with hcompare | ⟨⟨⟩, hcompare, hcheck⟩
  · obtain ⟨hypothesis, entry, hmismatch, rfl⟩ := matchEssential_eq_error_iff.mp hcompare
    exact .hypothesis hbinds hessentials hmismatch
  · rcases bind_eq_error_iff.mp hcheck with hcheck | ⟨⟨⟩, -, hreturn⟩
    · obtain rfl := (matchEssential_eq_ok_iff hessentials).mp hcompare
      obtain ⟨u, v, hfound, rfl⟩ :=
        (checkDisjoint_eq_error_iff (hwell.isSome_get? hbinds)).mp hcheck
      obtain ⟨earlier, ⟨x, y⟩, later, hpairs, hoverlap, hearlier⟩ :=
        List.findSome?_eq_some_iff.mp hfound
      obtain ⟨hu, hv, huv⟩ := overlap_of_overlap?_eq_some hoverlap
      rw [List.append_assoc]
      exact .disjoint hbinds hpairs
        (fun pair hpair => overlap?_eq_none_iff.mp (hearlier pair hpair)) hu hv huv
    · cases hreturn

/-- What is reported is a cause, and none of those before it occurs. -/
theorem refuses_of_perform (hwell : assertion.WellFormed) {stack : Stack Statement}
    (herror : context.perform (.assertion assertion) stack = .error error) :
    assertion.Refuses context.environment stack.toList error := by
  rcases perform_assertion_eq_error_iff.mp herror with
    ⟨hfew, rfl⟩ | ⟨base, args, hlength, hlist, hconclude⟩
  · exact .underflow hfew
  · obtain ⟨floats, essentials, rfl, hfloats, hessentials⟩ := exists_split hlength
    rw [hlist, ← List.append_assoc]
    cases hmatch : matchFloating .empty assertion.floating floats with
    | error cause =>
      rw [conclude_append hfloats, hmatch] at hconclude
      cases hconclude
      obtain ⟨typing, entry, hmismatch, rfl⟩ := matchFloating_eq_error_iff.mp hmatch
      exact .typecode hfloats hessentials hmismatch
    | ok σ =>
      obtain ⟨hbinds, rfl⟩ := binds_of_matchFloating hwell.distinct hfloats hmatch
      exact refuses_of_conclude hwell hbinds hessentials hconclude

/-- A cause that occurs is reported, unless one before it occurs. -/
theorem exists_error_of_refuses (hwell : assertion.WellFormed) {stack : Stack Statement}
    (hrefuses : assertion.Refuses context.environment stack.toList error) :
    ∃ found, context.perform (.assertion assertion) stack = .error found ∧ found.Alike error := by
  simp only [perform_assertion_eq_error_iff]
  generalize hlist : stack.toList = entries at hrefuses
  cases hrefuses with
  | underflow hfew => exact ⟨_, .inl ⟨hfew, rfl⟩, .refl _⟩
  | @typecode base floats essentials typing entry hfloats hessentials hmismatch =>
    have hlength : (floats ++ essentials).length = assertion.arity := by
      rw [List.length_append, hfloats, hessentials, Assertion.arity]
    refine ⟨_, .inr ⟨base, _, hlength, List.append_assoc _ _ _, ?_⟩, .refl _⟩
    rw [conclude_append hfloats,
      matchFloating_eq_error_iff.mpr ⟨typing, entry, hmismatch, rfl⟩]
    rfl
  | @hypothesis base essentials σ hypothesis entry hbinds hessentials hmismatch =>
    have hlength : (assertion.typings σ ++ essentials).length = assertion.arity := by
      rw [List.length_append, Assertion.length_typings, hessentials, Assertion.arity]
    refine ⟨_, .inr ⟨base, _, hlength, List.append_assoc _ _ _, ?_⟩, .refl _⟩
    rw [conclude_typings_append hbinds,
      matchEssential_eq_error_iff.mpr ⟨hypothesis, entry, hmismatch, rfl⟩]
    rfl
  | @disjoint base σ earlier later x y u v hbinds hpairs hearlier hu hv hoverlap =>
    have hpair : (x, y) ∈ assertion.disjoint := by
      rw [hpairs]
      exact List.mem_append_right _ List.mem_cons_self
    obtain ⟨u', v', hconclude⟩ := exists_conclude_eq_error hwell hbinds hpair
      (not_separates_of_overlap hu hv hoverlap)
    exact ⟨_, .inr ⟨base, _, assertion.length_hypotheses σ, rfl, hconclude⟩,
      .disjointViolation u' v' u v⟩

/-- An assertion can be applied to a stack exactly if the topmost entries are the hypotheses of one
of its instances that respects its disjointness conditions; what comes in their place is the
conclusion of this instance, which the stack determines. Otherwise the step reports the first of
four causes that occurs, and the stack stays as it is. -/
theorem perform_substitution_rule (context : Context) {assertion : Assertion}
    (hwell : assertion.WellFormed) (stack : Stack Statement) :
    (∀ result, context.perform (.assertion assertion) stack = .ok result ↔
      ∃ base entries σ, stack.toList = base ++ entries ∧
        assertion.Fits context.environment σ entries ∧
        result.toList = base ++ [σ.apply assertion.conclusion]) ∧
    (∀ base other σ τ, σ.Binds assertion.vars → τ.Binds assertion.vars →
      stack.toList = base ++ assertion.hypotheses σ →
      stack.toList = other ++ assertion.hypotheses τ →
      base = other ∧ ∀ v, σ.get? v = τ.get? v) ∧
    (∀ error, context.perform (.assertion assertion) stack = .error error →
      assertion.Refuses context.environment stack.toList error ∧
        context.after (.assertion assertion) stack = stack) ∧
    ∀ cause, assertion.Refuses context.environment stack.toList cause →
      ∃ error, context.perform (.assertion assertion) stack = .error error ∧ error.Alike cause := by
  refine ⟨fun result => ?_, fun base other σ τ hσ hτ hbase hother => ?_,
    fun error herror => ⟨refuses_of_perform hwell herror, after_of_error herror⟩,
    fun cause => exists_error_of_refuses hwell⟩
  · rw [perform_assertion_eq_ok_iff]
    constructor
    · rintro ⟨base, args, conclusion, hlength, rfl, hconclude, rfl⟩
      obtain ⟨σ, hfits, rfl⟩ := fits_of_conclude hwell hlength hconclude
      exact ⟨base.toList, args, σ, Stack.toList_pushAll base args, hfits, Stack.toList_push _ _⟩
    · rintro ⟨base, entries, σ, hlist, hfits, hresult⟩
      have hlength : entries.length = assertion.arity := by
        rw [hfits.entries_eq, assertion.length_hypotheses]
      refine ⟨.ofList base, entries, _, hlength, ?_, conclude_of_fits hfits, ?_⟩
      · apply Stack.toList_injective
        rw [hlist, Stack.toList_pushAll, Stack.toList_ofList]
      · apply Stack.toList_injective
        rw [hresult, Stack.toList_push, Stack.toList_ofList]
  · have hlengths : (assertion.hypotheses σ).length = (assertion.hypotheses τ).length := by
      rw [assertion.length_hypotheses, assertion.length_hypotheses]
    obtain ⟨hbases, hequal⟩ := List.append_inj' (hbase.symm.trans hother) hlengths
    exact ⟨hbases, assertion.get?_eq_of_hypotheses_eq hσ hτ hequal⟩

/-- An assertion with a hypothesis of each kind, for disjoint variables. -/
def disjointRule : Assertion :=
  ⟨[("ph", "ps")], [⟨"wff", "ph"⟩, ⟨"wff", "ps"⟩], [["|-", "ph"]],
    ["|-", "(", "ph", "->", "ps", ")"]⟩

/-- Above an entry that is not touched, the assertion applies to variables that are disjoint. It
does not apply to a single variable; a wrong entry for the essential hypothesis is reported before
that, and a wrong typecode before both. -/
theorem perform_substitution_rule_disjointRule :
    disjointRule.WellFormed ∧
    (∃ base entries σ,
      [["wff", "ps"], ["wff", "ph"], ["wff", "ps"], ["|-", "ph"]] = base ++ entries ∧
      disjointRule.Fits disjointPlace.environment σ entries ∧
      [["wff", "ps"], ["|-", "(", "ph", "->", "ps", ")"]] =
        base ++ [σ.apply disjointRule.conclusion]) ∧
    disjointRule.Refuses disjointPlace.environment
      [["wff", "ph"], ["wff", "ph"], ["|-", "ph"]] (.disjointViolation "ph" "ph") ∧
    disjointRule.Refuses disjointPlace.environment
      [["wff", "ph"], ["wff", "ph"], ["|-", "ps"]] (.hypothesisMismatch ["|-", "ph"] ["|-", "ps"]) ∧
    disjointRule.Refuses disjointPlace.environment
      [["wff", "ph"], [], ["|-", "ps"]] (.typecodeMismatch "wff" []) ∧
    disjointPlace.after (.assertion disjointRule) (.ofList [["wff", "ph"], [], ["|-", "ps"]]) =
      .ofList [["wff", "ph"], [], ["|-", "ps"]] := by
  have hwell : disjointRule.WellFormed := by decide
  have hrule := perform_substitution_rule disjointPlace hwell
  have hlast := (hrule (.ofList [["wff", "ph"], [], ["|-", "ps"]])).2.2.1
    (.typecodeMismatch "wff" []) (by decide +kernel)
  refine ⟨hwell, ?_, ?_, ?_, hlast⟩
  · exact ((hrule (.ofList [["wff", "ps"], ["wff", "ph"], ["wff", "ps"], ["|-", "ph"]])).1
      (.ofList [["wff", "ps"], ["|-", "(", "ph", "->", "ps", ")"]])).mp (by decide +kernel)
  · exact ((hrule (.ofList [["wff", "ph"], ["wff", "ph"], ["|-", "ph"]])).2.2.1 _
      (by decide +kernel)).1
  · exact ((hrule (.ofList [["wff", "ph"], ["wff", "ph"], ["|-", "ps"]])).2.2.1 _
      (by decide +kernel)).1

end Context

end Proof

end Metamath
