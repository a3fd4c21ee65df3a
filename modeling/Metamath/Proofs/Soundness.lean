import Mathlib.Data.Finset.Dedup
import Metamath.Database
import Metamath.Proofs.Reading
import Metamath.Proofs.Replay

/-!
# Soundness of verified databases

Verified proofs prove what follows from the axioms. To say so without a logic, take any set of
statements that is closed under the instances of the axioms; then it is closed under the instances
of the theorems. Instances are taken by arbitrary expressions, be they made of the symbols of the
database or not. What has to be disjoint in them is given by a set of symbols, which plays the part
of the variables: expressions for disjoint variables may not share a symbol of this set.

A proof may use variables that do not occur in its theorem. An instance of the theorem says nothing
about them, so expressions have to be found for them that are disjoint from all others. This is
why every typecode needs expressions that avoid any given finite set of symbols.
-/

namespace Metamath

variable {A : Set Symbol} {S : Set Statement}

namespace Assertion

/-- The instance of an assertion by `σ` has its hypotheses in `S`, and the expressions for disjoint
variables share no symbol of `A`. -/
structure Admissible (A : Set Symbol) (S : Set Statement) (assertion : Assertion)
    (σ : Substitution) : Prop where
  binds : σ.Binds assertion.vars
  hypotheses : ∀ statement ∈ assertion.hypotheses σ, statement ∈ S
  separates : ∀ pair ∈ assertion.disjoint, ∀ symbol ∈ A, symbol ∈ σ.image pair.1 →
    symbol ∉ σ.image pair.2

/-- The conclusions of all admissible instances of an assertion are in `S`. -/
def Closes (A : Set Symbol) (S : Set Statement) (assertion : Assertion) : Prop :=
  ∀ σ, assertion.Admissible A S σ → σ.apply assertion.conclusion ∈ S

end Assertion

/-! ### Expressions for variables that do not occur in the theorem -/

/-- There are expressions with the given typecode that avoid any finite number of symbols of `A`. -/
def Inhabits (A : Set Symbol) (S : Set Statement) (typecode : Symbol) : Prop :=
  ∀ avoided : Finset Symbol, (∀ symbol ∈ avoided, symbol ∈ A) →
    ∃ expression : Statement, typecode :: expression ∈ S ∧
      ∀ symbol ∈ expression, symbol ∉ avoided

theorem Inhabits.exists_avoiding {typecode : Symbol} (hinhabits : Inhabits A S typecode)
    (used : List Symbol) :
    ∃ expression : Statement, typecode :: expression ∈ S ∧
      ∀ symbol ∈ A, symbol ∈ expression → symbol ∉ used := by
  classical
  obtain ⟨expression, hmem, havoids⟩ :=
    hinhabits (used.filter fun symbol => symbol ∈ A).toFinset (by simp)
  refine ⟨expression, hmem, fun symbol hA hsymbol hused => havoids symbol hsymbol ?_⟩
  simp [hused, hA]

/-- Expressions for the given variables that share symbols of `A` neither with each other nor with
what is used elsewhere. -/
theorem exists_fresh (typings : List Typing) (hdistinct : (typings.map Typing.var).Nodup)
    (hinhabits : ∀ typing ∈ typings, Inhabits A S typing.typecode) (used : List Symbol) :
    ∃ value : Symbol → Statement,
      (∀ typing ∈ typings, typing.typecode :: value typing.var ∈ S) ∧
      (∀ v ∈ typings.map Typing.var, ∀ symbol ∈ A, symbol ∈ value v → symbol ∉ used) ∧
      ∀ x ∈ typings.map Typing.var, ∀ y ∈ typings.map Typing.var, x ≠ y →
        ∀ symbol ∈ A, symbol ∈ value x → symbol ∉ value y := by
  induction typings with
  | nil => exact ⟨fun _ => [], by simp, by simp, by simp⟩
  | cons typing rest ih =>
    rw [List.map_cons, List.nodup_cons] at hdistinct
    rw [List.forall_mem_cons] at hinhabits
    obtain ⟨value, hvalue, hused, hdisjoint⟩ := ih hdistinct.2 hinhabits.2
    -- the new expression has to avoid the ones chosen so far, whatever its variable is used with
    obtain ⟨expression, hexpression, havoids⟩ :=
      hinhabits.1.exists_avoiding (used ++ (rest.map Typing.var).flatMap value)
    have hself : Function.update value typing.var expression typing.var = expression :=
      Function.update_self ..
    have hother : ∀ v ∈ rest.map Typing.var,
        Function.update value typing.var expression v = value v := fun v hv =>
      Function.update_of_ne (ne_of_mem_of_not_mem hv hdistinct.1) ..
    have hfresh : ∀ v ∈ rest.map Typing.var, ∀ symbol ∈ A, symbol ∈ expression →
        symbol ∉ value v := fun v hv symbol hA hnew hold =>
      havoids symbol hA hnew (List.mem_append_right _ (List.mem_flatMap.mpr ⟨v, hv, hold⟩))
    refine ⟨Function.update value typing.var expression, ?_, ?_, ?_⟩
    · refine List.forall_mem_cons.mpr ⟨?_, fun other hmem => ?_⟩
      · rw [hself]
        exact hexpression
      · rw [hother other.var (List.mem_map_of_mem hmem)]
        exact hvalue other hmem
    · rw [List.map_cons, List.forall_mem_cons]
      refine ⟨fun symbol hA hsymbol hmem => ?_, fun v hv => hother v hv ▸ hused v hv⟩
      exact havoids symbol hA (hself ▸ hsymbol) (List.mem_append_left _ hmem)
    · intro x hx y hy hne symbol hA hsymbol hsymbol'
      rcases List.mem_cons.mp hx with rfl | hx <;> rcases List.mem_cons.mp hy with rfl | hy
      · exact hne rfl
      · rw [hself] at hsymbol
        rw [hother y hy] at hsymbol'
        exact hfresh y hy symbol hA hsymbol hsymbol'
      · rw [hother x hx] at hsymbol
        rw [hself] at hsymbol'
        exact hfresh x hx symbol hA hsymbol' hsymbol
      · rw [hother x hx] at hsymbol
        rw [hother y hy] at hsymbol'
        exact hdisjoint x hx y hy hne symbol hA hsymbol hsymbol'

/-- An instance of everything that is active at a place: every typed variable has an expression of
its typecode, and those for variables that are declared disjoint share no symbol of `A`. -/
structure Place.Instance (A : Set Symbol) (S : Set Statement) (place : Place)
    (τ : Substitution) : Prop where
  binds : τ.Binds place.typed
  typings : ∀ typing ∈ place.floating, typing.typecode :: τ.image typing.var ∈ S
  separates : ∀ x ∈ place.typed, ∀ y ∈ place.typed, x ≠ y → place.environment.isDisjoint x y →
    ∀ symbol ∈ A, symbol ∈ τ.image x → symbol ∉ τ.image y

namespace Scope

variable {labels : LabelTable} {scope : Scope} {conclusion : Statement}

/-- A declaration of two variables of an assertion as disjoint is one of its conditions. -/
theorem mem_disjoint_assertion {x y : Symbol} (hx : x ∈ (scope.assertion conclusion).vars)
    (hy : y ∈ (scope.assertion conclusion).vars)
    (hdisjoint : scope.environment.isDisjoint x y) :
    Pair.of x y ∈ (scope.assertion conclusion).disjoint := by
  refine List.mem_filter.mpr ⟨Std.TreeSet.mem_toList.mpr hdisjoint, ?_⟩
  have hx' := contains_mandatory_of_mem_vars hx
  have hy' := contains_mandatory_of_mem_vars hy
  rw [Pair.of]
  split <;> simp [hx', hy']

/-- An instance of an assertion extends to one of everything that is active at its place. -/
theorem exists_instance {σ : Substitution} (hagrees : scope.place.Agrees labels)
    (hinhabits : ∀ typing ∈ scope.floating, Inhabits A S typing.typecode)
    (hσ : (scope.assertion conclusion).Admissible A S σ) :
    ∃ τ, scope.place.Instance A S τ ∧
      ∀ v ∈ (scope.assertion conclusion).vars, τ.image v = σ.image v := by
  set vars := (scope.assertion conclusion).vars with hvars
  -- the variables that only a proof uses get expressions with nothing in common with the instance
  obtain ⟨value, hvalue, hunused, hfresh⟩ := exists_fresh
    (scope.floating.filter fun typing => typing.var ∉ vars)
    ((List.filter_sublist.map Typing.var).nodup hagrees.distinct)
    (fun typing htyping => hinhabits typing (List.mem_filter.mp htyping).1)
    (vars.flatMap σ.image)
  have hsubset : ∀ v ∈ vars, v ∈ scope.place.typed := fun v hv =>
    (scope.vars_assertion_sublist conclusion).subset hv
  have hdummy : ∀ v ∈ scope.place.typed, v ∉ vars →
      v ∈ (scope.floating.filter fun typing => typing.var ∉ vars).map Typing.var := by
    intro v hv hnot
    obtain ⟨typing, htyping, rfl⟩ := List.mem_map.mp hv
    exact List.mem_map_of_mem (List.mem_filter.mpr ⟨htyping, by simpa using hnot⟩)
  have hkept : ∀ v ∈ vars, (Substitution.ofVars scope.place.typed fun v =>
      if v ∈ vars then σ.image v else value v).image v = σ.image v := fun v hv => by
    rw [Substitution.image_ofVars_of_mem (hsubset v hv), if_pos hv]
  have hchosen : ∀ v ∈ scope.place.typed, v ∉ vars → (Substitution.ofVars scope.place.typed fun v =>
      if v ∈ vars then σ.image v else value v).image v = value v := fun v hv hnot => by
    rw [Substitution.image_ofVars_of_mem hv, if_neg hnot]
  refine ⟨_, ⟨Substitution.binds_ofVars _ _, fun typing htyping => ?_,
    fun x hx y hy hne hdisjoint symbol hA hsymbol hsymbol' => ?_⟩, hkept⟩
  · by_cases hv : typing.var ∈ vars
    · rw [hkept _ hv]
      refine hσ.hypotheses _ (List.mem_append_left _ (List.mem_map.mpr ⟨typing, ?_, rfl⟩))
      exact (mem_floating_assertion hagrees).mpr ⟨htyping, contains_mandatory_of_mem_vars hv⟩
    · rw [hchosen _ (List.mem_map_of_mem htyping) hv]
      exact hvalue typing (List.mem_filter.mpr ⟨htyping, by simpa using hv⟩)
  · have hkeptUsed : ∀ v ∈ vars, symbol ∈ σ.image v → symbol ∈ vars.flatMap σ.image :=
      fun v hv hmem => List.mem_flatMap.mpr ⟨v, hv, hmem⟩
    by_cases hxv : x ∈ vars <;> by_cases hyv : y ∈ vars
    · rw [hkept x hxv] at hsymbol
      rw [hkept y hyv] at hsymbol'
      have hpair := hσ.separates _ (mem_disjoint_assertion hxv hyv hdisjoint) symbol hA
      rw [Pair.of] at hpair
      split at hpair
      · exact hpair hsymbol hsymbol'
      · exact hpair hsymbol' hsymbol
    · rw [hkept x hxv] at hsymbol
      rw [hchosen y hy hyv] at hsymbol'
      exact hunused y (hdummy y hy hyv) symbol hA hsymbol' (hkeptUsed x hxv hsymbol)
    · rw [hchosen x hx hxv] at hsymbol
      rw [hkept y hyv] at hsymbol'
      exact hunused x (hdummy x hx hxv) symbol hA hsymbol (hkeptUsed y hyv hsymbol')
    · rw [hchosen x hx hxv] at hsymbol
      rw [hchosen y hy hyv] at hsymbol'
      exact hfresh x (hdummy x hx hxv) y (hdummy y hy hyv) hne symbol hA hsymbol hsymbol'

end Scope

/-! ### Proof steps under an instance -/

namespace Place

variable {labels : LabelTable} {place : Place} {τ ρ : Substitution} {assertion : Assertion}
  {args : List Statement}

/-- The statement may occur at the place, and its instance is in `S`. -/
structure Validates (S : Set Statement) (place : Place) (τ : Substitution)
    (statement : Statement) : Prop where
  admitted : ∀ symbol ∈ statement, place.Admits symbol
  mem : τ.apply statement ∈ S

section

variable (hagrees : place.Agrees labels) (hτ : place.Instance A S τ)
include hagrees hτ

theorem Instance.image_of_constant {symbol : Symbol} (hsymbol : place.constants.contains symbol) :
    τ.image symbol = [symbol] := by
  refine hτ.binds.image_of_not_mem fun htyped => ?_
  exact hagrees.separate symbol (hagrees.isVariable_of_typed htyped) hsymbol

theorem Instance.validates_typing {typing : Typing} (htyping : typing ∈ place.floating) :
    place.Validates S τ typing.statement := by
  obtain ⟨-, htypecode⟩ := hagrees.active typing htyping
  refine ⟨hagrees.admits_typing htyping, ?_⟩
  rw [Typing.statement, Substitution.apply_cons, Substitution.apply_cons,
    hτ.image_of_constant hagrees htypecode, Substitution.apply_nil, List.append_nil]
  exact hτ.typings typing htyping

/-- Only instances of variables have symbols of `A`. -/
theorem Instance.typed_of_mem_image (hA : ∀ symbol ∈ A, ¬ place.constants.contains symbol)
    {origin symbol : Symbol} (horigin : place.Admits origin) (hsymbol : symbol ∈ A)
    (hmem : symbol ∈ τ.image origin) : origin ∈ place.typed := by
  refine horigin.resolve_left fun hconstant => ?_
  rw [hτ.image_of_constant hagrees hconstant, List.mem_singleton] at hmem
  exact hA symbol hsymbol (hmem ▸ hconstant)

theorem Instance.apply_apply (hwell : Scope.WellTyped place.constants assertion)
    (hρ : ρ.Binds assertion.vars) {statement : Statement}
    (hstatement : statement ∈ assertion.conclusion :: assertion.essential) :
    τ.apply (ρ.apply statement) =
      (Substitution.ofVars assertion.vars fun v => τ.apply (ρ.image v)).apply statement := by
  refine Substitution.apply_apply hρ fun symbol hsymbol hnot => ?_
  exact hτ.image_of_constant hagrees
    ((hwell.symbols statement hstatement symbol hsymbol).resolve_left hnot)

/-- What a step does with the statements of a proof, it does with their instances, too. -/
theorem Instance.admissible (hA : ∀ symbol ∈ A, ¬ place.constants.contains symbol)
    (hwell : Scope.WellTyped place.constants assertion)
    (hfits : assertion.Fits place.environment ρ args)
    (hargs : ∀ statement ∈ args, place.Validates S τ statement) :
    assertion.Admissible A S
      (Substitution.ofVars assertion.vars fun v => τ.apply (ρ.image v)) := by
  have hadmitted : ∀ statement ∈ args, ∀ symbol ∈ statement, place.Admits symbol :=
    fun statement hstatement => (hargs statement hstatement).admitted
  refine ⟨Substitution.binds_ofVars _ _, fun statement hstatement => ?_,
    fun pair hpair symbol hsymbol hfirst hsecond => ?_⟩
  · rcases List.mem_append.mp hstatement with hfloating | hessential
    · obtain ⟨typing, htyping, rfl⟩ := List.mem_map.mp hfloating
      have hmem := (hargs _ (hfits.typing_mem htyping)).mem
      rw [Substitution.apply_cons, hτ.image_of_constant hagrees (hwell.typecodes typing htyping)]
        at hmem
      have hv : typing.var ∈ assertion.vars := List.mem_map_of_mem htyping
      rw [Substitution.image_ofVars_of_mem hv]
      exact hmem
    · obtain ⟨hypothesis, hmem, rfl⟩ := List.mem_map.mp hessential
      rw [← hτ.apply_apply hagrees hwell hfits.binds (List.mem_cons_of_mem _ hmem)]
      refine (hargs _ ?_).mem
      rw [hfits.entries_eq]
      exact List.mem_append_right _ (List.mem_map_of_mem hmem)
  · obtain ⟨hx, hy⟩ := hwell.wellFormed.typed pair hpair
    rw [Substitution.image_ofVars_of_mem hx] at hfirst
    rw [Substitution.image_ofVars_of_mem hy] at hsecond
    -- a shared symbol of `A` comes from two variables, and the step has them declared disjoint
    obtain ⟨u, hu, hfirst⟩ := Substitution.mem_apply.mp hfirst
    obtain ⟨w, hw, hsecond⟩ := Substitution.mem_apply.mp hsecond
    have hutyped : u ∈ place.typed :=
      hτ.typed_of_mem_image hagrees hA (admits_of_fits hfits hadmitted hx hu) hsymbol hfirst
    have hwtyped : w ∈ place.typed :=
      hτ.typed_of_mem_image hagrees hA (admits_of_fits hfits hadmitted hy hw) hsymbol hsecond
    obtain ⟨hne, hdisjoint⟩ := hfits.separates pair hpair u hu w hw
      (hagrees.isVariable_of_typed hutyped) (hagrees.isVariable_of_typed hwtyped)
    exact hτ.separates u hutyped w hwtyped hne hdisjoint symbol hsymbol hfirst hsecond

/-- Proof steps at a place lead from statements whose instances are in `S` to such statements, if
`S` is closed under all assertions before. -/
theorem Instance.preserves (hA : ∀ symbol ∈ A, ¬ place.constants.contains symbol)
    (hassertions : ∀ label entry assertion, labels.get? label = some entry →
      entry.assertion? = some assertion →
      Scope.WellTyped place.constants assertion ∧ assertion.Closes A S)
    (hessential : ∀ statement ∈ place.essential, τ.apply statement ∈ S) :
    Proof.Context.Preserves ⟨labels, place.environment⟩ (place.Validates S τ) := by
  have hadmits := hagrees.preserves_admits fun label entry assertion hget hassertion =>
    (hassertions label entry assertion hget hassertion).1
  constructor
  · intro label statement hstep
    refine ⟨hadmits.hypothesis label statement hstep, ?_⟩
    obtain ⟨hget | hget, hactive⟩ := Proof.Context.step_eq_hypothesis_iff.mp hstep
    · obtain ⟨typing, htyping, rfl⟩ := hagrees.floating label statement hactive hget
      exact (hτ.validates_typing hagrees htyping).mem
    · exact hessential statement (hagrees.essential label statement hactive hget)
  · intro label assertion args conclusion hstep hlength hargs hconclude
    refine ⟨hadmits.assertion label assertion args conclusion hstep hlength
      (fun statement hstatement => (hargs statement hstatement).admitted) hconclude, ?_⟩
    obtain ⟨hwell, hcloses⟩ : Scope.WellTyped place.constants assertion ∧ assertion.Closes A S := by
      rcases Proof.Context.step_eq_assertion_iff.mp hstep with hget | hget
      · exact hassertions label _ assertion hget rfl
      · exact hassertions label _ assertion hget rfl
    obtain ⟨ρ, hfits, rfl⟩ := (Proof.conclude_eq_ok_iff hwell.wellFormed hlength).mp hconclude
    rw [hτ.apply_apply hagrees hwell hfits.binds List.mem_cons_self]
    exact hcloses _ (hτ.admissible hagrees hA hwell hfits hargs)

end

end Place

/-- A theorem with an accepted proof closes every set that all assertions before it close. -/
theorem Scope.closes_of_verify {labels : LabelTable} {scope : Scope} {conclusion : Statement}
    {proof : List Symbol} (hagrees : scope.place.Agrees labels)
    (hA : ∀ symbol ∈ A, ¬ scope.isConstant symbol)
    (hinhabits : ∀ typing ∈ scope.floating, Inhabits A S typing.typecode)
    (hassertions : ∀ label entry assertion, labels.get? label = some entry →
      entry.assertion? = some assertion →
      Scope.WellTyped scope.constants assertion ∧ assertion.Closes A S)
    (hverify : Proof.Context.verify ⟨labels, scope.environment⟩
      (scope.assertion conclusion).floating (scope.assertion conclusion).essential conclusion
      proof = .ok ()) :
    (scope.assertion conclusion).Closes A S := by
  intro σ hσ
  -- the proof may use variables that the assertion does not have, so `σ` itself is not enough
  obtain ⟨τ, hτ, hsame⟩ := exists_instance hagrees hinhabits hσ
  have happly : ∀ statement ∈ conclusion :: scope.essential,
      τ.apply statement = σ.apply statement := by
    intro statement hstatement
    refine Substitution.apply_congr fun symbol hsymbol => ?_
    by_cases htyped : symbol ∈ scope.place.typed
    · exact hsame symbol (mem_vars_assertion hagrees htyped ⟨statement, hstatement, hsymbol⟩)
    · have hother : symbol ∉ (scope.assertion conclusion).vars := fun hv =>
        htyped ((scope.vars_assertion_sublist conclusion).subset hv)
      rw [hτ.binds.image_of_not_mem htyped, hσ.binds.image_of_not_mem hother]
  have hessential : ∀ statement ∈ scope.essential, τ.apply statement ∈ S := by
    intro statement hstatement
    rw [happly statement (List.mem_cons_of_mem _ hstatement)]
    exact hσ.hypotheses _ (List.mem_append_right _ (List.mem_map_of_mem hstatement))
  have hconclusion := (hτ.preserves hagrees hA hassertions hessential).verify hverify
  exact happly conclusion List.mem_cons_self ▸ hconclusion.mem

/-! ### The whole database -/

namespace Database

/-- The set `S` is closed under the axioms of a builder, its typecodes are inhabited, and `A` has
none of its constants. -/
structure Builder.IsModel (A : Set Symbol) (S : Set Statement) (builder : Builder) : Prop where
  noConstant : ∀ symbol ∈ A, ¬ builder.scope.isConstant symbol
  inhabited : ∀ label typecode v, builder.labels.get? label = some (.floating [typecode, v]) →
    Inhabits A S typecode
  closed : ∀ label assertion, builder.labels.get? label = some (.axiomatic assertion) →
    assertion.Closes A S

/-- What holds of a builder that verifies all proofs: the theorems it has read hold in all models
of the axioms it has read. -/
structure Builder.Sound (builder : Builder) : Prop where
  valid : builder.Valid
  verifying : builder.verifying
  closes : ∀ (A : Set Symbol) (S : Set Statement), builder.IsModel A S →
    ∀ label assertion, builder.labels.get? label = some (.provable assertion) →
      assertion.Closes A S

namespace Builder

variable {builder result : Builder} {check : Option Check}

theorem IsModel.of_grows (hgrows : builder.Grows check result) (hmodel : result.IsModel A S) :
    builder.IsModel A S where
  noConstant symbol hsymbol hconstant :=
    hmodel.noConstant symbol hsymbol (hgrows.constants symbol hconstant)
  inhabited label typecode v hget := hmodel.inhabited label typecode v (hgrows.get?_mono hget)
  closed label assertion hget := hmodel.closed label assertion (hgrows.get?_mono hget)

theorem verify_of_run {check : Check} (hrun : check.run = .ok ()) :
    check.context.verify check.assertion.floating check.assertion.essential
      check.assertion.conclusion check.proof = .ok () := by
  rw [Check.run] at hrun
  cases hverify : check.context.verify check.assertion.floating check.assertion.essential
    check.assertion.conclusion check.proof with
  | error error =>
    rw [hverify] at hrun
    cases hrun
  | ok verified => rfl

/-- All assertions that have been read hold in a model. -/
theorem Sound.assertions (hsound : builder.Sound) (hmodel : builder.IsModel A S) :
    ∀ label entry assertion, builder.labels.get? label = some entry →
      entry.assertion? = some assertion →
      Scope.WellTyped builder.scope.constants assertion ∧ assertion.Closes A S := by
  intro label entry assertion hget hassertion
  refine ⟨hsound.valid.wellTyped label entry assertion hget hassertion, ?_⟩
  cases entry with
  | floating statement => cases hassertion
  | essential statement => cases hassertion
  | axiomatic found =>
    cases hassertion
    exact hmodel.closed label assertion hget
  | provable found =>
    cases hassertion
    exact hsound.closes A S hmodel label assertion hget

theorem Sound.step (hsound : builder.Sound) (hstep : builder.Step check result)
    (haccept : ∀ given, check = some given → given.run = .ok ()) : result.Sound := by
  have hgrows := hstep.grows
  have hagrees := hsound.valid.scope.agrees
  refine ⟨hsound.valid.step hstep, hgrows.verifying hsound.verifying,
    fun A S hresult label assertion hget => ?_⟩
  have hmodel := hresult.of_grows hgrows
  rcases hgrows.labels with hsame | ⟨new, entry, hinsert, hprovable⟩
  · exact hsound.closes A S hmodel label assertion (hsame ▸ hget)
  · rw [LabelTable.get?_of_insert? hinsert] at hget
    split_ifs at hget
    · obtain ⟨statement, proof, rfl, hcheck⟩ := hprovable assertion (Option.some.inj hget)
      rw [if_pos hsound.verifying] at hcheck
      have hverify := verify_of_run (haccept _ hcheck)
      have hinhabits : ∀ typing ∈ builder.scope.floating, Inhabits A S typing.typecode := by
        intro typing htyping
        obtain ⟨other, hother⟩ := hagrees.recorded typing htyping
        exact hmodel.inhabited other typing.typecode typing.var hother
      exact Scope.closes_of_verify hagrees hmodel.noConstant hinhabits (hsound.assertions hmodel)
        hverify
    · exact hsound.closes A S hmodel label assertion hget

theorem Sound.truncate (hsound : builder.Sound) (depth : Nat) : (builder.truncate depth).Sound :=
  ⟨hsound.valid.truncate depth, hsound.verifying, fun A S hmodel =>
    hsound.closes A S ⟨hmodel.noConstant, hmodel.inhabited, hmodel.closed⟩⟩

theorem sound_new (stop : Option Symbol) : (new ⟨none, stop⟩).Sound :=
  ⟨valid_new _, rfl, fun _ _ _ label assertion hget => by
    simp [new, LabelTable.get?, LabelTable.position?, LabelTable.empty] at hget⟩

end Builder

/-- A database is read without error, and all its proofs are verified on the way. Let `S` be a set
of statements that is closed under its axioms and in which all its typecodes are inhabited; and let
`A` be a set of symbols without constants. Then `S` is closed under its theorems. -/
theorem closes_of_read {stop : Option Symbol} {tokens : List (Except Inclusion.Error Token)}
    {outcome : Outcome} (hread : (Builder.new ⟨none, stop⟩).read Check.run tokens = outcome)
    (hresult : outcome.result = .ok ())
    (hconstants : ∀ symbol ∈ A, ¬ outcome.builder.scope.isConstant symbol)
    (hinhabited : ∀ label typecode v,
      (label, .floating [typecode, v]) ∈ outcome.builder.finish.labels.toList →
      Inhabits A S typecode)
    (haxioms : ∀ label assertion,
      (label, .axiomatic assertion) ∈ outcome.builder.finish.labels.toList →
      assertion.Closes A S) :
    ∀ label assertion, (label, .provable assertion) ∈ outcome.builder.finish.labels.toList →
      assertion.Closes A S := by
  subst hread
  have hsound := Builder.read_induction (P := Builder.Sound)
    (fun _ _ _ hsound hstep haccept => hsound.step hstep haccept)
    (fun _ depth hsound => hsound.truncate depth) (Builder.sound_new stop) hresult
  intro label assertion hassertion
  refine hsound.closes A S ⟨hconstants, fun other typecode v hget => ?_, fun other found hget => ?_⟩
    label assertion (LabelTable.mem_toList_iff.mp hassertion)
  · exact hinhabited other typecode v (LabelTable.mem_toList_iff.mpr hget)
  · exact haxioms other found (LabelTable.mem_toList_iff.mpr hget)

/-- A symbol that no axiom introduces is introduced by no theorem. -/
theorem closes_avoiding {assertion : Assertion} {symbol : Symbol}
    (hsymbol : symbol ∉ assertion.conclusion) :
    assertion.Closes A {statement | symbol ∉ statement} := by
  intro σ hσ hmem
  obtain ⟨origin, horigin, himage⟩ := Substitution.mem_apply.mp hmem
  by_cases hv : origin ∈ assertion.vars
  · obtain ⟨typing, htyping, rfl⟩ := List.mem_map.mp hv
    exact hσ.hypotheses _ (List.mem_append_left _ (List.mem_map_of_mem htyping))
      (List.mem_cons_of_mem _ himage)
  · rw [hσ.binds.image_of_not_mem hv, List.mem_singleton] at himage
    exact hsymbol (himage ▸ horigin)

/-- A database whose theorem is proved with a variable that does not occur in it. -/
def dummyTokens : List (Except Inclusion.Error Token) :=
  ["$c", "wff", "|-", "(", "->", ")", "F", "$.", "$v", "p", "q", "$.",
    "wp", "$f", "wff", "p", "$.", "wq", "$f", "wff", "q", "$.",
    "wi", "$a", "wff", "(", "p", "->", "q", ")", "$.",
    "id", "$a", "|-", "(", "p", "->", "p", ")", "$.",
    "$\x7b", "min", "$e", "|-", "p", "$.", "maj", "$e", "|-", "(", "p", "->", "q", ")", "$.",
    "mp", "$a", "|-", "q", "$.", "$\x7d", "$d", "p", "q", "$.",
    "k", "$a", "|-", "(", "(", "p", "->", "p", ")", "->", "(", "q", "->", "q", ")", ")", "$.",
    "th", "$p", "|-", "(", "q", "->", "q", ")", "$=",
    "(", "wp", "wi", "id", "k", "mp", ")", "BBCAACBDBAEF", "$."].map fun word =>
      .ok (.ofRun word.toList)

def dummyOutcome : Outcome :=
  (Builder.new ⟨none, none⟩).read Check.run dummyTokens

/-- Whether neither a typecode nor an axiom has the constant `F`. -/
def avoidsF : Entry → Bool
  | .floating statement => !statement.contains "F"
  | .axiomatic assertion => !assertion.conclusion.contains "F"
  | .essential _ | .provable _ => true

/-- No instance of the theorem has the constant `F`, since no axiom has it. -/
theorem closes_of_read_dummyTokens :
    dummyOutcome.result = .ok () ∧
    ("th", .provable ⟨[], [⟨"wff", "q"⟩], [], ["|-", "(", "q", "->", "q", ")"]⟩) ∈
      dummyOutcome.builder.finish.labels.toList ∧
    Assertion.Closes {symbol | ¬ dummyOutcome.builder.scope.isConstant symbol}
      {statement | "F" ∉ statement}
      ⟨[], [⟨"wff", "q"⟩], [], ["|-", "(", "q", "->", "q", ")"]⟩ := by
  have hresult : dummyOutcome.result = .ok () := by decide +kernel
  have hall : ∀ entry ∈ dummyOutcome.builder.finish.labels.toList, avoidsF entry.2 := by
    decide +kernel
  have hth : ("th", .provable ⟨[], [⟨"wff", "q"⟩], [], ["|-", "(", "q", "->", "q", ")"]⟩) ∈
      dummyOutcome.builder.finish.labels.toList := by decide +kernel
  refine ⟨hresult, hth, closes_of_read rfl hresult (fun _ hsymbol => hsymbol)
    (fun label typecode v hfloating => ?_) (fun label assertion haxiom => ?_) "th" _ hth⟩
  · have havoids := hall _ hfloating
    refine fun avoided _ => ⟨[], ?_, by simp⟩
    simp_all [avoidsF]
  · have havoids := hall _ haxiom
    exact closes_avoiding (by simpa [avoidsF] using havoids)

end Database

end Metamath
