import Metamath.Proofs.Arrival
import Metamath.Proofs.Checks
import Metamath.Proofs.Soundness

/-!
# Proofs in larger scopes

A proof that is accepted at one place of a database can be replayed later on, as long as the blocks
around the theorem are still open. By then there are more labels, more hypotheses, more disjoint
variables, and also more variables. All but the last only help: what a step needs is still there,
and a label keeps what it refers to, even if its statement is made a hypothesis again. More
variables make disjointness stricter, though. They do not do so for the symbols that a proof
handles, because these are constants or variables already, and no constant becomes a variable.
-/

namespace Metamath

/-! ### Larger environments -/

/-- The later environment knows all that the earlier one knows, and gives the same labels. -/
structure Environment.Extends (env later : Environment) : Prop where
  vars : ∀ v, env.isVariable v → later.isVariable v
  disjoint : ∀ x y, env.isDisjoint x y → later.isDisjoint x y
  floating : ∀ v label, env.floatingLabel? v = some label → later.floatingLabel? v = some label
  essential : ∀ statement label, env.essentialLabel? statement = some label →
    later.essentialLabel? statement = some label
  hypotheses : ∀ label, env.isHypothesis label → later.isHypothesis label

namespace Environment

variable {env middle later : Environment}

theorem Extends.refl (env : Environment) : env.Extends env :=
  ⟨fun _ => id, fun _ _ => id, fun _ _ => id, fun _ _ => id, fun _ => id⟩

theorem Extends.trans (hfirst : env.Extends middle) (hsecond : middle.Extends later) :
    env.Extends later where
  vars v := hsecond.vars v ∘ hfirst.vars v
  disjoint x y := hsecond.disjoint x y ∘ hfirst.disjoint x y
  floating v label := hsecond.floating v label ∘ hfirst.floating v label
  essential statement label := hsecond.essential statement label ∘ hfirst.essential statement label
  hypotheses label := hsecond.hypotheses label ∘ hfirst.hypotheses label

theorem extends_addVariable (env : Environment) (v : Symbol) : env.Extends (env.addVariable v) :=
  { Extends.refl env with vars := fun _ hold => isVariable_addVariable.mpr (.inr hold) }

theorem extends_addDisjoint (env : Environment) (vars : List Symbol) :
    env.Extends (env.addDisjoint vars) :=
  { Extends.refl env with disjoint := fun _ _ hold => isDisjoint_addDisjoint.mpr (.inr hold) }

/-- A floating hypothesis may be added for a variable that has none. -/
theorem extends_addFloating {v : Symbol} (huntyped : ¬ (env.floatingLabel? v).isSome)
    (label : Symbol) : env.Extends (env.addFloating v label) := by
  refine { Extends.refl env with
    floating := fun w found hfound => ?_
    hypotheses := fun _ hold => isHypothesis_addFloating.mpr (.inr hold) }
  have hne : w ≠ v := by
    rintro rfl
    exact huntyped (by rw [hfound]; rfl)
  rw [floatingLabel?_addFloating, if_neg hne, hfound]

/-- A statement that is a hypothesis already keeps its label. -/
theorem extends_addEssential (env : Environment) (statement : Statement) (label : Symbol) :
    env.Extends (env.addEssential statement label) := by
  refine { Extends.refl env with
    essential := fun other found hfound => ?_
    hypotheses := fun _ hold => isHypothesis_addEssential.mpr (.inr hold) }
  rw [essentialLabel?_addEssential, hfound, Option.some_or]

/-- Expressions stay separated if none of their symbols becomes a variable. -/
theorem Extends.separates (hextends : env.Extends later) {first second : Statement}
    (hfirst : ∀ symbol ∈ first, later.isVariable symbol → env.isVariable symbol)
    (hsecond : ∀ symbol ∈ second, later.isVariable symbol → env.isVariable symbol)
    (hseparates : env.Separates first second) : later.Separates first second := by
  intro x hx y hy hxvar hyvar
  obtain ⟨hne, hdisjoint⟩ := hseparates x hx y hy (hfirst x hx hxvar) (hsecond y hy hyvar)
  exact ⟨hne, hextends.disjoint x y hdisjoint⟩

end Environment

/-! ### Replaying a proof later -/

namespace Proof.Context

/-- The later context knows all that the earlier one knows, and does not take for a variable what is
none of the known symbols. -/
structure Extends (Known : Symbol → Prop) (context later : Context) : Prop where
  labels : ∀ label entry, context.labels.get? label = some entry →
    later.labels.get? label = some entry
  environment : context.environment.Extends later.environment
  vars : ∀ symbol, Known symbol → later.environment.isVariable symbol →
    context.environment.isVariable symbol

variable {Known : Symbol → Prop} {context later : Context} {label : Symbol}

/-- A label stands for the same step. -/
theorem Extends.step (hextends : context.Extends Known later) {step : Step}
    (hstep : context.step label = .ok step) : later.step label = .ok step := by
  cases step with
  | hypothesis statement =>
    rw [step_eq_hypothesis_iff] at hstep ⊢
    exact ⟨hstep.1.imp (hextends.labels _ _) (hextends.labels _ _),
      hextends.environment.hypotheses label hstep.2⟩
  | assertion assertion =>
    rw [step_eq_assertion_iff] at hstep ⊢
    exact hstep.imp (hextends.labels _ _) (hextends.labels _ _)

/-- An assertion yields the same from arguments with known symbols. -/
theorem Extends.conclude (hextends : context.Extends Known later) {assertion : Assertion}
    (hwell : assertion.WellFormed) {args : List Statement} {conclusion : Statement}
    (hlength : args.length = assertion.arity)
    (hargs : ∀ statement ∈ args, ∀ symbol ∈ statement, Known symbol)
    (hconclude : Proof.conclude context.environment assertion args = .ok conclusion) :
    Proof.conclude later.environment assertion args = .ok conclusion := by
  obtain ⟨σ, hfits, rfl⟩ := fits_of_conclude hwell hlength hconclude
  have hknown : ∀ v ∈ assertion.vars, ∀ symbol ∈ σ.image v,
      later.environment.isVariable symbol → context.environment.isVariable symbol := by
    intro v hv symbol hsymbol
    obtain ⟨typing, htyping, rfl⟩ := List.mem_map.mp hv
    apply hextends.vars
    exact hargs _ (hfits.typing_mem htyping) symbol (List.mem_cons_of_mem _ hsymbol)
  apply conclude_of_fits
  refine { hfits with separates := fun pair hpair => ?_ }
  obtain ⟨hx, hy⟩ := hwell.typed pair hpair
  exact hextends.environment.separates (hknown _ hx) (hknown _ hy) (hfits.separates pair hpair)

theorem Extends.implicitLabels (hextends : context.Extends Known later) {floating : List Typing}
    {essential : List Statement} {implicit : List Symbol}
    (himplicit : context.implicitLabels floating essential = .ok implicit) :
    later.implicitLabels floating essential = .ok implicit := by
  simp only [Context.implicitLabels, bind_eq_ok_iff] at himplicit ⊢
  obtain ⟨first, hfirst, second, hsecond, hall⟩ := himplicit
  refine ⟨first, mapM_mono (fun typing label hlabel => ?_) hfirst, second,
    mapM_mono (fun statement label hlabel => ?_) hsecond, hall⟩
  · split at hlabel
    · next found hfound =>
      rw [hextends.environment.floating _ _ hfound]
      exact hlabel
    · cases hlabel
  · split at hlabel
    · next found hfound =>
      rw [hextends.environment.essential _ _ hfound]
      exact hlabel
    · cases hlabel

section

variable (hextends : context.Extends Known later) (hwell : context.labels.WellFormed)
  (hknown : context.Preserves fun statement => ∀ symbol ∈ statement, Known symbol)
include hextends hwell

theorem Extends.perform {step : Step} {stack result : Stack Statement}
    (hstep : context.step label = .ok step)
    (hstack : ∀ statement ∈ stack.entries, ∀ symbol ∈ statement, Known symbol)
    (hperform : context.perform step stack = .ok result) :
    later.perform step stack = .ok result := by
  cases step with
  | hypothesis statement => exact hperform
  | assertion assertion =>
    rw [perform_assertion_eq_ok_iff] at hperform ⊢
    obtain ⟨base, args, conclusion, hlength, rfl, hconclude, rfl⟩ := hperform
    have hargs : ∀ statement ∈ args, ∀ symbol ∈ statement, Known symbol := by
      intro statement hstatement
      apply hstack
      exact List.mem_append_left _ (List.mem_reverse.mpr hstatement)
    have hformed : assertion.WellFormed := hwell label assertion (step_eq_assertion_iff.mp hstep)
    exact ⟨base, args, conclusion, hlength, rfl,
      hextends.conclude hformed hlength hargs hconclude, rfl⟩

theorem Extends.execute {labels : List Symbol} {steps : List Step} {memory result : Memory}
    {code : Code}
    (hsteps : List.Forall₂ (fun label step => context.step label = .ok step) labels steps)
    (hstack : ∀ statement ∈ memory.stack.entries, ∀ symbol ∈ statement, Known symbol)
    (hexecute : context.execute steps.toArray memory code = .ok result) :
    later.execute steps.toArray memory code = .ok result := by
  cases code with
  | save => exact hexecute
  | index number =>
    simp only [Context.execute] at hexecute ⊢
    cases hlookup : steps.toArray[number]? with
    | none =>
      rw [hlookup] at hexecute
      exact hexecute
    | some step =>
      rw [hlookup] at hexecute
      obtain ⟨stack, hperform, rfl⟩ := map_eq_ok_iff.mp hexecute
      rw [List.getElem?_toArray] at hlookup
      obtain ⟨-, hnone⟩ | ⟨label, _, -, hsome, hstep⟩ := forall₂_getElem? hsteps number
      · rw [hnone] at hlookup
        cases hlookup
      · cases hsome.symm.trans hlookup
        exact map_eq_ok_iff.mpr ⟨stack, hextends.perform hwell hstep hstack hperform, rfl⟩

include hknown

theorem Extends.replayNormal {proof : List Symbol} {stack : Stack Statement}
    (hreplay : context.replayNormal proof = .ok stack) : later.replayNormal proof = .ok stack := by
  apply foldlM_mono
    (P := fun stack : Stack Statement => ∀ statement ∈ stack.entries, ∀ symbol ∈ statement,
      Known symbol) (fun stack label result hstack hadvance => ?_) (by simp [Stack.empty]) hreplay
  obtain ⟨step, hstep, hperform⟩ := advance_eq_ok_iff.mp hadvance
  exact ⟨hknown.perform hstep hstack hperform,
    advance_eq_ok_iff.mpr ⟨step, hextends.step hstep, hextends.perform hwell hstep hstack hperform⟩⟩

theorem Extends.replayCompressed {floating : List Typing} {essential : List Statement}
    {proof : List Symbol} {stack : Stack Statement}
    (hreplay : context.replayCompressed floating essential proof = .ok stack) :
    later.replayCompressed floating essential proof = .ok stack := by
  obtain ⟨block, digits, implicit, steps, codes, memory, hcut, himplicit, hsteps, hcodes, hrun,
    hstack⟩ := replayCompressed_eq_ok_iff.mp hreplay
  refine replayCompressed_eq_ok_iff.mpr ⟨block, digits, implicit, steps, codes, memory, hcut,
    hextends.implicitLabels himplicit, hsteps.imp fun _ _ => hextends.step, hcodes, ?_, hstack⟩
  -- an instruction may push a saved statement, so the saved ones have to be known, too
  apply foldlM_mono
    (P := fun memory : Memory =>
      (∀ statement ∈ memory.stack.entries, ∀ symbol ∈ statement, Known symbol) ∧
        ∀ statement ∈ memory.saved, ∀ symbol ∈ statement, Known symbol)
    (fun memory code result hmemory hexecute => ?_)
    ⟨by simp [Memory.empty, Stack.empty], by simp [Memory.empty]⟩ hrun
  exact ⟨hknown.execute hsteps hmemory.1 hmemory.2 hexecute,
    hextends.execute hwell hsteps hmemory.1 hexecute⟩

/-- A proof that is accepted is accepted later, too. -/
theorem Extends.verify {floating : List Typing} {essential : List Statement}
    {conclusion : Statement} {proof : List Symbol}
    (hverify : context.verify floating essential conclusion proof = .ok ()) :
    later.verify floating essential conclusion proof = .ok () := by
  rw [verify_eq_ok_iff] at hverify ⊢
  cases proof with
  | nil => cases hverify
  | cons first rest =>
    rw [Context.replay] at hverify ⊢
    split_ifs at hverify ⊢
    · exact hextends.replayCompressed hwell hknown hverify
    · exact hextends.replayNormal hwell hknown hverify

end

end Proof.Context

/-! ### Blocks that stay open -/

namespace Scope

variable {scope result : Scope} {env : Environment} {depth : Nat} {symbol label : Symbol}

/-- The environment goes on to hold in all blocks that at least `depth` blocks, counting
themselves, are open at. -/
def KeepsAbove (env : Environment) (depth : Nat) (scope : Scope) : Prop :=
  ∀ frames, frames <:+ scope.frames → depth ≤ frames.length →
    env.Extends (environment ⟨scope.constants, frames⟩)

theorem KeepsAbove.here (hkeeps : scope.KeepsAbove env depth) (hdepth : depth ≤ scope.depth) :
    env.Extends scope.environment :=
  hkeeps scope.frames List.suffix_rfl hdepth

theorem keepsAbove_self (scope : Scope) : scope.KeepsAbove scope.environment scope.depth := by
  intro frames hsuffix hlength
  rw [hsuffix.eq_of_length_le hlength]
  exact .refl _

/-- What constants there are does not matter, and blocks may be closed. -/
theorem KeepsAbove.of_suffix (hkeeps : scope.KeepsAbove env depth)
    (hframes : result.frames <:+ scope.frames) : result.KeepsAbove env depth :=
  fun frames hsuffix => hkeeps frames (hsuffix.trans hframes)

theorem KeepsAbove.push (hkeeps : scope.KeepsAbove env depth) (hdepth : depth ≤ scope.depth) :
    scope.push.KeepsAbove env depth := by
  intro frames hsuffix hlength
  rcases List.suffix_cons_iff.mp hsuffix with rfl | houter
  · exact hkeeps.here hdepth
  · exact hkeeps frames houter hlength

/-- The innermost block may get a larger environment. -/
theorem KeepsAbove.modifyTop {change : Frame → Frame} (hkeeps : scope.KeepsAbove env depth)
    (hmodify : scope.modifyTop change = .ok result)
    (hchange : ∀ frame outer, scope.frames = frame :: outer →
      frame.environment.Extends (change frame).environment) :
    result.KeepsAbove env depth := by
  obtain ⟨frame, outer, hframes, rfl⟩ := modifyTop_eq_ok_iff.mp hmodify
  intro frames hsuffix hlength
  rcases List.suffix_cons_iff.mp hsuffix with rfl | houter
  · have hframe : env.Extends frame.environment :=
      hkeeps (frame :: outer) (hframes ▸ List.suffix_rfl) hlength
    exact hframe.trans (hchange frame outer hframes)
  · apply hkeeps frames _ hlength
    rw [hframes]
    exact houter.trans (List.suffix_cons frame outer)

theorem KeepsAbove.declareConstant (hkeeps : scope.KeepsAbove env depth)
    (hdeclare : scope.declareConstant symbol = .ok result) : result.KeepsAbove env depth := by
  rw [Scope.declareConstant] at hdeclare
  split_ifs at hdeclare
  cases hdeclare
  exact hkeeps

theorem KeepsAbove.declareVariable (hkeeps : scope.KeepsAbove env depth)
    (hdeclare : scope.declareVariable symbol = .ok result) : result.KeepsAbove env depth := by
  rw [Scope.declareVariable] at hdeclare
  split_ifs at hdeclare
  exact hkeeps.modifyTop hdeclare fun frame _ _ => frame.environment.extends_addVariable symbol

theorem KeepsAbove.addDisjoint {vars : List Symbol} (hkeeps : scope.KeepsAbove env depth)
    (hadd : scope.addDisjoint vars = .ok result) : result.KeepsAbove env depth :=
  hkeeps.modifyTop hadd fun frame _ _ => frame.environment.extends_addDisjoint vars

theorem KeepsAbove.addFloating {typing : Typing} (hkeeps : scope.KeepsAbove env depth)
    (hadd : scope.addFloating typing label = .ok result) : result.KeepsAbove env depth := by
  rw [Scope.addFloating] at hadd
  split_ifs at hadd with _ _ huntyped
  apply hkeeps.modifyTop hadd
  intro frame outer hframes
  rw [environment, hframes] at huntyped
  exact Environment.extends_addFloating huntyped label

theorem KeepsAbove.addEssential {statement : Statement} (hkeeps : scope.KeepsAbove env depth)
    (hadd : scope.addEssential statement label = .ok result) : result.KeepsAbove env depth :=
  hkeeps.modifyTop hadd fun frame _ _ => frame.environment.extends_addEssential statement label

end Scope

namespace Database

namespace Builder

variable {base builder result later : Builder} {check : Option Check}

theorem keepsAbove_step {env : Environment} {depth : Nat}
    (hkeeps : builder.scope.KeepsAbove env depth) (hdepth : depth ≤ builder.depth)
    (hstep : builder.Step check result) : result.scope.KeepsAbove env depth := by
  cases hstep with
  | idle => exact hkeeps
  | note label => exact hkeeps
  | enter => exact hkeeps.push hdepth
  | leave hpop => exact hkeeps.of_suffix (Scope.suffix_of_pop hpop)
  | declare declaration symbols =>
    exact declare_induction (P := fun scope => scope.KeepsAbove env depth)
      (fun _ _ _ => Scope.KeepsAbove.declareConstant)
      (fun _ _ _ => Scope.KeepsAbove.declareVariable)
      (fun _ _ _ => Scope.KeepsAbove.addDisjoint) hkeeps declaration symbols
  | floating hadd =>
    obtain ⟨typing, scope, larger, hscope, -, rfl⟩ := exists_of_addFloating hadd
    exact hkeeps.addFloating hscope
  | essential hadd =>
    obtain ⟨-, scope, larger, hscope, -, rfl⟩ := exists_of_addEssential hadd
    exact hkeeps.addEssential hscope
  | axiomatic hadd =>
    obtain ⟨-, larger, -, rfl⟩ := exists_of_addAxiomatic hadd
    exact hkeeps
  | provable _ hadd =>
    obtain ⟨larger, -, rfl, -⟩ := exists_of_addProvable hadd
    exact hkeeps

/-- The later builder still has the blocks of the earlier one open, and knows all that it knows. -/
structure Enlarges (base later : Builder) : Prop where
  valid : later.Valid
  depth : base.depth ≤ later.depth
  constants : ∀ symbol, base.scope.isConstant symbol → later.scope.isConstant symbol
  labels : ∀ label entry, base.labels.get? label = some entry →
    later.labels.get? label = some entry
  scope : later.scope.KeepsAbove base.scope.environment base.depth

theorem Enlarges.refl (hvalid : base.Valid) : base.Enlarges base :=
  ⟨hvalid, Nat.le_refl _, fun _ => id, fun _ _ => id, base.scope.keepsAbove_self⟩

theorem Enlarges.step (henlarges : base.Enlarges builder) (hstep : builder.Step check result)
    (hdepth : base.depth ≤ result.depth) : base.Enlarges result where
  valid := henlarges.valid.step hstep
  depth := hdepth
  constants symbol := hstep.grows.constants symbol ∘ henlarges.constants symbol
  labels label entry hget := hstep.grows.get?_mono (henlarges.labels label entry hget)
  scope := keepsAbove_step henlarges.scope henlarges.depth hstep

/-- The symbols that may occur at the place of the earlier builder do not become variables. -/
theorem Enlarges.extends (henlarges : base.Enlarges later) (hvalid : base.Valid) :
    Proof.Context.Extends base.scope.place.Admits ⟨base.labels, base.scope.environment⟩
      ⟨later.labels, later.scope.environment⟩ where
  labels := henlarges.labels
  environment := henlarges.scope.here henlarges.depth
  vars symbol hadmits hvariable := by
    rcases hadmits with hconstant | htyped
    · exact absurd (henlarges.constants symbol hconstant)
        (henlarges.valid.scope.agrees.separate symbol hvariable)
    · exact hvalid.scope.agrees.isVariable_of_typed htyped

/-- A proof that is accepted in the earlier builder is accepted in the later one. -/
theorem Enlarges.verify (henlarges : base.Enlarges later) (hvalid : base.Valid)
    {floating : List Typing} {essential : List Statement} {conclusion : Statement}
    {proof : List Symbol}
    (hverify : Proof.Context.verify ⟨base.labels, base.scope.environment⟩ floating essential
      conclusion proof = .ok ()) :
    Proof.Context.verify ⟨later.labels, later.scope.environment⟩ floating essential conclusion
      proof = .ok () := by
  have hwell : base.labels.WellFormed := by
    intro label assertion hget
    rcases hget with hget | hget
    · exact (hvalid.wellTyped label _ assertion hget rfl).wellFormed
    · exact (hvalid.wellTyped label _ assertion hget rfl).wellFormed
  have hknown := hvalid.scope.agrees.preserves_admits hvalid.wellTyped
  exact (henlarges.extends hvalid).verify hwell hknown hverify

end Builder

namespace Reading

variable {depth : Nat} {reading following last : Reading} {token : Token} {tokens : List Token}
  {base later : Builder}

/-- The builder is that of a later moment of the same read. From now on until then, at least `depth`
blocks are open. -/
inductive StaysAbove (depth : Nat) : Reading → Builder → Prop where
  | now {reading : Reading} : StaysAbove depth reading reading.builder
  | refused {reading : Reading} {token : Token} {error : Error} {result : Builder}
      (hfeed : reading.feed token = .refused error result) (hdepth : depth ≤ result.depth) :
      StaysAbove depth reading result
  | next {reading following : Reading} {token : Token} {later : Builder}
      (hnext : (reading.feed token).next = .ok following)
      (hdepth : depth ≤ following.builder.depth) (hlater : StaysAbove depth following later) :
      StaysAbove depth reading later

/-- What a token does if the reading goes on. -/
theorem exists_step_of_next (hchecked : reading.Checked)
    (hnext : (reading.feed token).next = .ok following) :
    following.Checked ∧ ∃ check, reading.builder.Step check following.builder := by
  have hpasses : ∃ check, reading.Passes (fun _ => .ok ()) token check following :=
    exists_passes_of_next (fun _ => rfl) hnext
  obtain ⟨check, hpasses⟩ := hpasses
  obtain ⟨hstep, hlater⟩ := hpasses.step hchecked
  exact ⟨hlater, check, hstep⟩

/-- A builder is enlarged as long as none of its blocks is closed. -/
theorem StaysAbove.enlarges (hstays : reading.StaysAbove base.depth later)
    (hchecked : reading.Checked) (henlarges : base.Enlarges reading.builder) :
    base.Enlarges later := by
  induction hstays with
  | now => exact henlarges
  | @refused reading token error result hfeed hdepth =>
    have hfollows := feed_follows hchecked token
    rw [hfeed] at hfollows
    exact henlarges.step hfollows hdepth
  | next hnext hdepth _ ih =>
    obtain ⟨hlater, check, hstep⟩ := exists_step_of_next hchecked hnext
    exact ih hlater (henlarges.step hstep hdepth)

/-- Tokens that are accepted lead to a later moment of the read. -/
theorem staysAbove_of_feedAll (hfeed : reading.feedAll tokens = .ok last)
    (hdepth : ∀ done ∈ tokens.inits, ∀ middle, reading.feedAll done = .ok middle →
      depth ≤ middle.builder.depth) : reading.StaysAbove depth last.builder := by
  induction tokens generalizing reading with
  | nil =>
    cases hfeed
    exact .now
  | cons token rest ih =>
    rw [feedAll_cons] at hfeed
    obtain ⟨following, hnext, hrest⟩ := bind_eq_ok_iff.mp hfeed
    have hlater : ∀ done ∈ rest.inits, ∀ middle, following.feedAll done = .ok middle →
        depth ≤ middle.builder.depth := by
      intro done hdone middle hmiddle
      apply hdepth (token :: done) (by simpa using hdone) middle
      rw [feedAll_cons]
      exact bind_eq_ok_iff.mpr ⟨following, hnext, hmiddle⟩
    exact .next hnext (hlater [] (by simp) following rfl) (ih hrest hlater)

theorem exists_feed_eq_check {accept : Check → Except Error Unit} {check : Check}
    (hcheck : check ∈ (reading.run accept [.ok token]).checks) :
    ∃ next, reading.feed token = .check check next := by
  by_cases hstopped : reading.builder.stopped
  · rw [run_of_stopped hstopped] at hcheck
    cases hcheck
  · cases hfeed : reading.feed token with
    | refused error result =>
      rw [run_cons_of_refused hstopped hfeed] at hcheck
      cases hcheck
    | more next =>
      rw [run_cons_of_more hstopped hfeed] at hcheck
      cases hcheck
    | check given next =>
      cases haccept : accept given with
      | error error =>
        rw [run_cons_of_rejected hstopped hfeed haccept] at hcheck
        exact ⟨next, by rw [List.mem_singleton.mp hcheck]⟩
      | ok accepted =>
        rw [run_cons_of_accepted hstopped hfeed haccept] at hcheck
        exact ⟨next, by rw [List.mem_singleton.mp hcheck]⟩

theorem valid_of_feedAll (hchecked : reading.Checked) (hvalid : reading.builder.Valid)
    (hfeed : reading.feedAll tokens = .ok last) : last.Checked ∧ last.builder.Valid := by
  apply foldlM_invariant (P := fun reading : Reading => reading.Checked ∧ reading.builder.Valid)
    (fun reading token following hboth hnext => ?_) ⟨hchecked, hvalid⟩ hfeed
  obtain ⟨hlater, check, hstep⟩ := exists_step_of_next hboth.1 hnext
  exact ⟨hlater, hboth.2.step hstep⟩

end Reading

/-- A read gives out a check, after any other reads, and the proof is correct. At every later moment
of the same read, as long as no block is closed that is open at the theorem, the same proof verifies
the same theorem against what is then active and defined. -/
theorem Builder.verify_of_staysAbove {builder : Builder} (hreached : builder.Reached)
    {before : List Token} {token : Token} {current next : Reading} {check : Check}
    {later : Builder} (hbefore : (Reading.start builder).feedAll before = .ok current)
    (hfeed : current.feed token = .check check next) (hrun : check.run = .ok ())
    (hlater : next.StaysAbove current.builder.depth later) :
    Proof.Context.verify ⟨later.labels, later.scope.environment⟩ check.assertion.floating
      check.assertion.essential check.assertion.conclusion check.proof = .ok () := by
  obtain ⟨hcurrent, hvalid⟩ := Reading.valid_of_feedAll (Reading.checked_start builder)
    (hreached.orderly.valid.step .enter) hbefore
  have hfollows := Reading.feed_follows hcurrent token
  rw [hfeed] at hfollows
  obtain ⟨statement, larger, -, hcontext, -, hnext⟩ := hfollows.1.exists_of_check
  have hdepth : current.builder.depth ≤ next.builder.depth := by
    rw [hnext]
    exact Nat.le_refl _
  have henlarges : current.builder.Enlarges later :=
    hlater.enlarges hfollows.2 ((Enlarges.refl hvalid).step hfollows.1 hdepth)
  have hverify := verify_of_run hrun
  rw [hcontext] at hverify
  exact henlarges.verify hvalid hverify

/-- What is read in the block that `interruptedTokens` leaves open: an axiom for disjoint variables,
a hypothesis with the statement of an earlier one, and a theorem up to the end of its proof. -/
def unfinishedTokens : List Token :=
  ["ax", "$a", "|-", "=", "y", "x", "$.", "hh", "$e", "|-", "=", "x", "y", "$.",
    "th", "$p", "|-", "=", "y", "x", "$=", "(", "ax", ")", "ABCE"].map fun word =>
      .ofRun word.toList

/-- What comes after the theorem: an inner block with a variable, its type, a disjointness condition
and once more a hypothesis with the same statement, then a constant and another block. -/
def innerTokens : List Token :=
  ["$\x7b", "$v", "z", "$.", "wz", "$f", "wff", "z", "$.", "$d", "z", "x", "$.",
    "hz", "$e", "|-", "=", "x", "y", "$.", "$c", "d", "$.", "$\x7b", "$\x7d"].map fun word =>
      .ofRun word.toList

theorem Builder.verify_of_staysAbove_inner :
    interruptedBuilder.Reached ∧ ∃ current next check later,
      (Reading.start interruptedBuilder).feedAll unfinishedTokens = .ok current ∧
      current.feed (.keyword .terminator) = .check check next ∧ check.run = .ok () ∧
      next.StaysAbove current.builder.depth later ∧ later.scope.isVariable "z" ∧
      Proof.Context.verify ⟨later.labels, later.scope.environment⟩ check.assertion.floating
        check.assertion.essential check.assertion.conclusion check.proof = .ok () := by
  have hreached : interruptedBuilder.Reached := .read _ _ (.new _)
  have hplace : ((Reading.start interruptedBuilder).feedAll unfinishedTokens).toOption.any
      fun current => decide (current.builder.depth = 3 ∧
        (current.run Check.run [.ok (.keyword .terminator)]).checks.map
          (fun check => decide (check.run = .ok ())) = [true]) := by decide +kernel
  have hdepths : ∀ done ∈ innerTokens.inits, ((Reading.start interruptedBuilder).feedAll
      (unfinishedTokens ++ .keyword .terminator :: done)).toOption.any
        fun middle => decide (3 ≤ middle.builder.depth) := by decide +kernel
  have hend : ((Reading.start interruptedBuilder).feedAll
      (unfinishedTokens ++ .keyword .terminator :: innerTokens)).toOption.any
        fun last => last.builder.scope.isVariable "z" := by decide +kernel
  obtain ⟨current, hbefore, hcurrent⟩ := exists_eq_ok_of_any hplace
  obtain ⟨hthree, hgiven⟩ := of_decide_eq_true hcurrent
  obtain ⟨check, hchecks, haccepted⟩ := List.map_eq_singleton_iff.mp hgiven
  obtain ⟨next, hfeed⟩ := Reading.exists_feed_eq_check (hchecks ▸ List.mem_singleton_self check)
  have hrun : check.run = .ok () := of_decide_eq_true haccepted
  -- what is read after the theorem is read from the start, too
  have hreads : ∀ done, (Reading.start interruptedBuilder).feedAll
      (unfinishedTokens ++ .keyword .terminator :: done) = next.feedAll done := by
    intro done
    rw [Reading.feedAll_append, hbefore]
    show current.feedAll (.keyword .terminator :: done) = next.feedAll done
    rw [Reading.feedAll_cons, hfeed]
    rfl
  rw [hreads] at hend
  obtain ⟨last, hlast, hvariable⟩ := exists_eq_ok_of_any hend
  have hlater : next.StaysAbove current.builder.depth last.builder := by
    apply Reading.staysAbove_of_feedAll hlast
    intro done hdone middle hmiddle
    have hopen := hdepths done hdone
    rw [hreads, hmiddle] at hopen
    rw [hthree]
    exact of_decide_eq_true hopen
  exact ⟨hreached, current, next, check, last.builder, hbefore, hfeed, hrun, hlater, hvariable,
    verify_of_staysAbove hreached hbefore hfeed hrun hlater⟩

end Database

end Metamath
