import Metamath.Proofs.Compression
import Metamath.Proofs.Grammar
import Metamath.Proofs.Recording

/-!
# What a check knows

A check leaves the place of its theorem behind. All it keeps of the open blocks is the environment,
which leads from hypotheses to labels, and the table of labels, which leads from labels to
statements and is shared by all blocks. Here the two are compared with the blocks that were open
where the check was given out. Every hypothesis of the theorem leads to a label that leads back to
it, which is what compressed proofs count on, since they use these labels without listing them; and
a proof can use no hypotheses but those of the open blocks.

The table of a check is compared with the table of the builder when the read has ended, because
that one shows the order of definition: the check knows what stands before its theorem.
-/

namespace Metamath

/-! ### Tables that have grown -/

namespace Database

namespace Builder

variable {builder result : Builder} {check : Check}

theorem Move.toList_prefix (hmove : builder.Move result) :
    builder.labels.toList <+: result.labels.toList := by
  cases hmove with
  | step hstep =>
    rcases hstep.grows.labels with hsame | ⟨label, entry, hinsert, -⟩
    · rw [hsame]
    · rw [LabelTable.toList_of_insert? hinsert]
      exact List.prefix_append _ _
  | truncate depth => exact List.prefix_rfl

theorem Leads.toList_prefix (hleads : builder.Leads result) :
    builder.labels.toList <+: result.labels.toList :=
  hleads.invariant (P := fun later => builder.labels.toList <+: later.labels.toList)
    (fun _ _ hprefix hmove => hprefix.trans hmove.toList_prefix) List.prefix_rfl

/-- A check is made of what its builder knows before the theorem is defined. -/
theorem Step.exists_of_check (hstep : builder.Step (some check) result) :
    ∃ statement larger, check.assertion = builder.scope.assertion statement ∧
      check.context = ⟨builder.labels, builder.scope.environment⟩ ∧
      builder.labels.insert? check.label (.provable check.assertion) = some larger ∧
      result = { builder with labels := larger } := by
  cases hstep with
  | provable _ hadd =>
    obtain ⟨larger, hinsert, rfl, hcheck⟩ := exists_of_addProvable hadd
    split_ifs at hcheck
    cases hcheck
    exact ⟨_, larger, rfl, rfl, hinsert, rfl⟩

end Builder

namespace Reading

/-- A token of a read gives out the check: the tokens before it lead to `current`, the token itself
leads to `next`, and the read goes on from there until it ends with the builder `last`. -/
structure GivesOut (reading : Reading) (items : List (Except Inclusion.Error Token))
    (last : Builder) (check : Check) (current next : Reading) : Prop where
  token : ∃ before token after, items = before.map .ok ++ .ok token :: after ∧
    reading.feedAll before = .ok current ∧ current.feed token = .check check next
  checked : current.Checked
  leads : reading.builder.Leads current.builder
  ends : next.builder.Leads last

variable {reading following current next : Reading} {accept : Check → Except Error Unit}
  {items rest : List (Except Inclusion.Error Token)} {token : Token} {last : Builder}
  {check : Check}

theorem GivesOut.cons {given : Option Check} (hnext : (reading.feed token).next = .ok following)
    (hstep : reading.builder.Step given following.builder)
    (hgives : following.GivesOut rest last check current next) :
    reading.GivesOut (.ok token :: rest) last check current next := by
  obtain ⟨before, other, after, rfl, hreads, hfeeds⟩ := hgives.token
  refine ⟨⟨token :: before, other, after, rfl, ?_, hfeeds⟩, hgives.checked,
    .head (.step hstep) hgives.leads, hgives.ends⟩
  rw [feedAll_cons, hnext]
  exact hreads

theorem exists_givesOut_of_mem_checks (hchecked : reading.Checked)
    (hmem : check ∈ (reading.run accept items).checks) :
    ∃ current next, reading.GivesOut items (reading.run accept items).builder check current
      next := by
  induction items generalizing reading with
  | nil => cases hmem
  | cons item rest ih =>
    by_cases hstopped : reading.builder.stopped
    · rw [run_of_stopped hstopped] at hmem
      cases hmem
    · cases item with
      | error error =>
        rw [run_cons_error hstopped] at hmem
        cases hmem
      | ok token =>
        have hfollows := feed_follows hchecked token
        cases hfeed : reading.feed token with
        | refused error builder =>
          rw [run_cons_of_refused hstopped hfeed] at hmem
          cases hmem
        | more following =>
          rw [hfeed] at hfollows
          rw [run_cons_of_more hstopped hfeed] at hmem ⊢
          obtain ⟨current, next, hgives⟩ := ih hfollows.2 hmem
          exact ⟨current, next, hgives.cons (by rw [hfeed]; rfl) hfollows.1⟩
        | check given following =>
          rw [hfeed] at hfollows
          have hhere : ∀ last, following.builder.Leads last →
              reading.GivesOut (.ok token :: rest) last given reading following :=
            fun last hlast =>
              ⟨⟨[], token, rest, rfl, rfl, hfeed⟩, hchecked, .refl, hlast⟩
          cases haccept : accept given with
          | error error =>
            rw [run_cons_of_rejected hstopped hfeed haccept] at hmem ⊢
            obtain rfl := List.mem_singleton.mp hmem
            exact ⟨reading, following, hhere _ .refl⟩
          | ok accepted =>
            rw [run_cons_of_accepted hstopped hfeed haccept] at hmem ⊢
            rcases List.mem_cons.mp hmem with rfl | hlater
            · exact ⟨reading, following, hhere _ (run_leads hfollows.2 rest)⟩
            · obtain ⟨current, next, hgives⟩ := ih hfollows.2 hlater
              exact ⟨current, next, hgives.cons (by rw [hfeed]; rfl) hfollows.1⟩

end Reading

end Database

/-! ### Labels of hypotheses -/

namespace Proof

/-- The reason is another one than a hypothesis of the theorem without label. -/
def Error.OtherThanUnlabelled : Error → Prop
  | .unlabelledHypothesis _ => False
  | _ => True

section Failures

theorem matchFloating_failsOnly (σ : Substitution) (typings : List Typing)
    (entries : List Statement) :
    FailsOnly Error.OtherThanUnlabelled (matchFloating σ typings entries) := by
  fun_induction matchFloating σ typings entries with
  | case1 => assumption
  | case2 => trivial
  | case3 => trivial
  | case4 => trivial

theorem matchEssential_failsOnly (σ : Substitution) (hypotheses entries : List Statement) :
    FailsOnly Error.OtherThanUnlabelled (matchEssential σ hypotheses entries) := by
  fun_induction matchEssential σ hypotheses entries with
  | case1 => assumption
  | case2 => trivial
  | case3 => trivial

theorem checkDisjoint_failsOnly (env : Environment) (σ : Substitution) (pairs : List Pair) :
    FailsOnly Error.OtherThanUnlabelled (checkDisjoint env σ pairs) := by
  fun_induction checkDisjoint env σ pairs with
  | case1 => trivial
  | case2 => trivial
  | case3 => assumption
  | case4 => assumption

theorem Code.decodeFrom_failsOnly (value : Nat) (pending : Bool) (letters : List Char) :
    FailsOnly Error.OtherThanUnlabelled (Code.decodeFrom value pending letters) := by
  fun_induction Code.decodeFrom value pending letters with
  | case1 => trivial
  | case2 => trivial
  | case3 _ _ _ _ _ _ ih => exact ih.map _
  | case4 _ _ _ _ _ _ ih => exact ih
  | case5 _ _ _ _ _ ih => exact ih.map _
  | case6 => trivial

theorem conclude_failsOnly (env : Environment) (assertion : Assertion)
    (entries : List Statement) :
    FailsOnly Error.OtherThanUnlabelled (conclude env assertion entries) :=
  (matchFloating_failsOnly _ _ _).bind fun σ =>
    (matchEssential_failsOnly σ _ _).bind fun _ =>
      (checkDisjoint_failsOnly _ σ _).bind fun _ => trivial

namespace Context

variable (context : Context)

theorem step_failsOnly (label : Symbol) :
    FailsOnly Error.OtherThanUnlabelled (context.step label) := by
  rw [step]
  split
  · trivial
  · split <;> trivial
  · split <;> trivial
  · trivial
  · trivial

theorem perform_failsOnly (step : Step) (stack : Stack Statement) :
    FailsOnly Error.OtherThanUnlabelled (context.perform step stack) := by
  cases step with
  | hypothesis statement => trivial
  | assertion assertion =>
    rw [perform]
    split
    · trivial
    · exact (conclude_failsOnly _ _ _).map _

theorem execute_failsOnly (steps : Array Step) (memory : Memory) (code : Code) :
    FailsOnly Error.OtherThanUnlabelled (context.execute steps memory code) := by
  cases code with
  | save =>
    rw [execute]
    split <;> trivial
  | index number =>
    rw [execute]
    split
    · exact (context.perform_failsOnly _ _).map _
    · split <;> trivial

/-! Only the hypotheses of the theorem itself are looked for in the environment, so nothing else can
fail for want of a label. -/

variable {floating : List Typing} {essential : List Statement}
  (himplicit : FailsOnly Error.OtherThanUnlabelled (context.implicitLabels floating essential))
include himplicit

theorem decompress_failsOnly (proof : List Symbol) :
    FailsOnly Error.OtherThanUnlabelled (context.decompress floating essential proof) := by
  rw [decompress]
  split
  · trivial
  · exact himplicit.bind fun _ =>
      (failsOnly_mapM fun label _ => context.step_failsOnly label).bind fun _ =>
        (Code.decodeFrom_failsOnly _ _ _).bind fun _ => trivial

theorem replay_failsOnly (proof : List Symbol) :
    FailsOnly Error.OtherThanUnlabelled (context.replay floating essential proof) := by
  cases proof with
  | nil => trivial
  | cons first rest =>
    rw [replay]
    split
    · exact (context.decompress_failsOnly himplicit rest).bind fun resolved =>
        (failsOnly_foldlM (context.execute_failsOnly resolved.1) _ _).bind fun _ => trivial
    · exact failsOnly_foldlM (fun stack label =>
        (context.step_failsOnly label).bind fun step => context.perform_failsOnly step stack) _ _

theorem verify_failsOnly (conclusion : Statement) (proof : List Symbol) :
    FailsOnly Error.OtherThanUnlabelled (context.verify floating essential conclusion proof) := by
  refine (context.replay_failsOnly himplicit proof).bind fun stack => ?_
  split
  · trivial
  · split <;> trivial
  · trivial

end Context

end Failures

namespace Context

variable {context : Context} {floating : List Typing} {essential : List Statement}

/-- The label exists and stands for the hypothesis. -/
def LeadsBack (context : Context) (label? : Option Symbol) (statement : Statement) : Prop :=
  ∃ label, label? = some label ∧ context.step label = .ok (.hypothesis statement)

section

variable
  (hfloating : ∀ typing ∈ floating,
    context.LeadsBack (context.environment.floatingLabel? typing.var) typing.statement)
  (hessential : ∀ statement ∈ essential,
    context.LeadsBack (context.environment.essentialLabel? statement) statement)
include hfloating hessential

theorem exists_implicitLabels_of_leadsBack :
    ∃ implicit, context.implicitLabels floating essential = .ok implicit ∧
      implicit.mapM context.step =
        .ok ((floating.map Typing.statement ++ essential).map .hypothesis) := by
  obtain ⟨implicit, himplicit, hforall⟩ := exists_implicitLabels_forall₂ hfloating hessential
  exact ⟨implicit, himplicit, mapM_eq_ok_iff.mpr (List.forall₂_map_right_iff.mpr hforall.flip)⟩

/-- The labels of the theorem's own hypotheses cannot be the reason why a compressed proof is
refused: if it is closed, what remains to be resolved are the labels it lists and its letters. -/
theorem decompress_of_leadsBack {block : List Symbol} (hblock : ")" ∉ block)
    (digits : List String) :
    context.decompress floating essential (block ++ ")" :: digits) = do
      let listed ← block.mapM context.step
      let codes ← Code.decode digits
      return (((floating.map Typing.statement ++ essential).map Step.hypothesis
        ++ listed).toArray, codes) := by
  obtain ⟨implicit, himplicit, hsteps⟩ :=
    exists_implicitLabels_of_leadsBack hfloating hessential
  rw [decompress, cutAt?_append hblock]
  show (do
    let implicit ← context.implicitLabels floating essential
    let steps ← (implicit ++ block).mapM context.step
    let codes ← Code.decode digits
    return (steps.toArray, codes)) = _
  rw [himplicit]
  show (do
    let steps ← (implicit ++ block).mapM context.step
    let codes ← Code.decode digits
    return (steps.toArray, codes)) = _
  rw [List.mapM_append, hsteps]
  cases block.mapM context.step <;> rfl

end

end Context

end Proof

namespace Place

variable {labels : LabelTable} {place : Place}

theorem Orderly.leadsBack_floating (horderly : place.Orderly labels) {typing : Typing}
    (htyping : typing ∈ place.floating) :
    Proof.Context.LeadsBack ⟨labels, place.environment⟩
      (place.environment.floatingLabel? typing.var) typing.statement := by
  obtain ⟨label, hlabel, hactive, hget⟩ := horderly.floating typing htyping
  exact ⟨label, hlabel, Proof.Context.step_eq_hypothesis_iff.mpr ⟨.inl hget, hactive⟩⟩

/-- The label may be that of another hypothesis with the same statement. -/
theorem Orderly.leadsBack_essential (horderly : place.Orderly labels) {statement : Statement}
    (hstatement : statement ∈ place.essential) :
    Proof.Context.LeadsBack ⟨labels, place.environment⟩
      (place.environment.essentialLabel? statement) statement := by
  obtain ⟨label, hlabel⟩ := Option.isSome_iff_exists.mp (horderly.essential statement hstatement)
  obtain ⟨hactive, hget⟩ := horderly.earliest statement label hlabel
  exact ⟨label, hlabel, Proof.Context.step_eq_hypothesis_iff.mpr ⟨.inr hget, hactive⟩⟩

end Place

/-! ### Checks -/

namespace Database

/-- What a check knows fits the blocks that were open at its theorem, and it fits the table of
labels that the read of the theorem left behind. -/
structure Check.Agrees (check : Check) (frames : List Frame) (later : LabelTable) : Prop where
  floating : ∀ typing ∈ check.assertion.floating,
    check.context.LeadsBack (check.context.environment.floatingLabel? typing.var)
      typing.statement
  essential : ∀ statement ∈ check.assertion.essential,
    check.context.LeadsBack (check.context.environment.essentialLabel? statement) statement
  /-- of a compressed proof, the listed labels and the letters remain to be resolved -/
  resolves : ∀ (block : List Symbol) (digits : List String), ")" ∉ block →
    check.context.decompress check.assertion.floating check.assertion.essential
      (block ++ ")" :: digits) = do
        let listed ← block.mapM check.context.step
        let codes ← Proof.Code.decode digits
        return (((check.assertion.floating.map Typing.statement
          ++ check.assertion.essential).map Proof.Step.hypothesis ++ listed).toArray, codes)
  /-- no proof is refused for want of a label -/
  labelled : ∀ (proof : List Symbol) (text : String),
    check.context.verify check.assertion.floating check.assertion.essential
      check.assertion.conclusion proof ≠ .error (.unlabelledHypothesis text)
  /-- a proof can use no other hypotheses than those of the open blocks -/
  active : ∀ label statement, check.context.step label = .ok (.hypothesis statement) →
    check.context.environment.isHypothesis label ∧ ∃ frame ∈ frames,
      (check.context.labels.get? label = some (.floating statement) ∧
        ∃ typing ∈ frame.floating, typing.statement = statement) ∨
      (check.context.labels.get? label = some (.essential statement) ∧
        statement ∈ frame.essential)
  recorded : later.get? check.label = some (.provable check.assertion)
  /-- the known labels are those before the theorem, in order -/
  labels : check.context.labels.toList = later.before check.label
  known : ∀ label entry, check.context.labels.get? label = some entry ↔
    (label, entry) ∈ later.before check.label
  itself : ¬ check.context.labels.contains check.label

namespace Builder

variable {builder result last : Builder} {check : Check}

/-- Hypotheses with a step are those of the open blocks. -/
theorem Valid.exists_frame_of_step (hvalid : builder.Valid) {label : Symbol}
    {statement : Statement}
    (hstep : Proof.Context.step ⟨builder.labels, builder.scope.environment⟩ label =
      .ok (.hypothesis statement)) :
    builder.scope.environment.isHypothesis label ∧ ∃ frame ∈ builder.scope.frames,
      (builder.labels.get? label = some (.floating statement) ∧
        ∃ typing ∈ frame.floating, typing.statement = statement) ∨
      (builder.labels.get? label = some (.essential statement) ∧
        statement ∈ frame.essential) := by
  have hagrees := hvalid.scope.agrees
  obtain ⟨hfound, hactive⟩ := Proof.Context.step_eq_hypothesis_iff.mp hstep
  refine ⟨hactive, ?_⟩
  rcases hfound with hget | hget
  · obtain ⟨typing, htyping, hstatement⟩ := hagrees.floating label statement hactive hget
    obtain ⟨frame, hframe, hmem⟩ := List.mem_flatMap.mp htyping
    exact ⟨frame, List.mem_reverse.mp hframe, .inl ⟨hget, typing, hmem, hstatement⟩⟩
  · have hstatement := hagrees.essential label statement hactive hget
    obtain ⟨frame, hframe, hmem⟩ := List.mem_flatMap.mp hstatement
    exact ⟨frame, List.mem_reverse.mp hframe, .inr ⟨hget, hmem⟩⟩

/-- The theorem of a check is recorded right behind the labels that the check knows, and there it
stays. -/
theorem Step.exists_toList_eq (hstep : builder.Step (some check) result)
    (hlast : result.Leads last) :
    ∃ late, last.labels.toList =
      builder.labels.toList ++ (check.label, .provable check.assertion) :: late := by
  obtain ⟨_, larger, -, -, hinsert, rfl⟩ := hstep.exists_of_check
  obtain ⟨late, hlate⟩ := hlast.toList_prefix
  refine ⟨late, ?_⟩
  rw [← hlate, LabelTable.toList_of_insert? hinsert, List.append_assoc]
  rfl

theorem Orderly.agrees_of_step (horderly : builder.Orderly)
    (hstep : builder.Step (some check) result) (hlast : result.Leads last) :
    check.Agrees builder.scope.frames last.labels := by
  obtain ⟨late, htable⟩ := hstep.exists_toList_eq hlast
  have hbefore := LabelTable.before_of_toList_eq htable
  obtain ⟨statement, larger, hassertion, hcontext, hinsert, -⟩ := hstep.exists_of_check
  have hplace := horderly.places.here
  have hfloating : ∀ typing ∈ check.assertion.floating,
      check.context.LeadsBack (check.context.environment.floatingLabel? typing.var)
        typing.statement := by
    intro typing htyping
    rw [hassertion] at htyping
    rw [hcontext]
    exact hplace.leadsBack_floating
      ((builder.scope.floating_assertion_sublist statement).subset htyping)
  have hessential : ∀ statement ∈ check.assertion.essential,
      check.context.LeadsBack (check.context.environment.essentialLabel? statement)
        statement := by
    intro statement hstatement
    rw [hassertion] at hstatement
    rw [hcontext]
    exact hplace.leadsBack_essential hstatement
  refine
    { floating := hfloating
      essential := hessential
      resolves := fun block digits hblock =>
        Proof.Context.decompress_of_leadsBack hfloating hessential hblock digits
      labelled := fun proof text herror => ?_
      active := fun label statement hlabel => ?_
      recorded := ?_
      labels := ?_
      known := fun label entry => ?_
      itself := ?_ }
  · obtain ⟨implicit, himplicit, -⟩ :=
      Proof.Context.exists_implicitLabels_of_leadsBack hfloating hessential
    exact (check.context.verify_failsOnly (by rw [himplicit]; trivial) _ proof).of_eq_error herror
  · rw [hcontext] at hlabel ⊢
    exact horderly.valid.exists_frame_of_step hlabel
  · rw [← LabelTable.mem_toList_iff, htable]
    simp
  · rw [hbefore, hcontext]
  · rw [hbefore, hcontext]
    exact LabelTable.mem_toList_iff.symm
  · rw [hcontext]
    exact LabelTable.not_contains_of_insert? hinsert

/-- Whenever a read gives out a check, after any other reads, there is a token that gives it out,
and the check fits the blocks that are open there. Each floating and each essential hypothesis of
the theorem has a label in the environment of the check, and the step of this label is the
hypothesis; so the theorem's own hypotheses are no reason to refuse a compressed proof. Conversely,
the steps that are hypotheses are those of hypotheses of the open blocks. And the check knows the
labels before the theorem and no others. -/
theorem check_agrees_of_reached (hreached : builder.Reached)
    {accept : Check → Except Error Unit} {items : List (Except Inclusion.Error Token)}
    (hcheck : check ∈ (builder.read accept items).checks) :
    ∃ (before : List Token) (token : Token) (after : List (Except Inclusion.Error Token))
      (current next : Reading), items = before.map .ok ++ .ok token :: after ∧
      (Reading.start builder).feedAll before = .ok current ∧
      current.feed token = .check check next ∧
      check.Agrees current.builder.scope.frames (builder.read accept items).builder.labels := by
  have hchecked : (Reading.start builder).Checked := nofun
  obtain ⟨current, next, hgives⟩ := Reading.exists_givesOut_of_mem_checks hchecked hcheck
  obtain ⟨before, token, after, hitems, hreads, hfeed⟩ := hgives.token
  refine ⟨before, token, after, current, next, hitems, hreads, hfeed, ?_⟩
  have horderly : current.builder.Orderly :=
    hgives.leads.invariant (fun _ _ => Orderly.move) (hreached.orderly.step .enter)
  have hfollows := Reading.feed_follows hgives.checked token
  rw [hfeed] at hfollows
  exact horderly.agrees_of_step hfollows.1 hgives.ends

/-- What is read in the block that `interruptedTokens` leaves open: a hypothesis with the statement
of an earlier one, a theorem whose compressed proof uses it without listing a label, and an axiom
after that. -/
def nestedTokens : List (Except Inclusion.Error Token) :=
  ["$\x7b", "hh", "$e", "|-", "=", "x", "y", "$.",
    "th", "$p", "|-", "=", "x", "y", "$=", "(", ")", "D", "$.", "$\x7d",
    "ax", "$a", "|-", "=", "y", "x", "$."].map fun word => .ok (.ofRun word.toList)

theorem check_agrees_of_reached_nested :
    interruptedBuilder.Reached ∧ (interruptedBuilder.read Check.run nestedTokens).result = .ok () ∧
      ∃ check ∈ (interruptedBuilder.read Check.run nestedTokens).checks, check.label = "th" ∧
        ∃ before token after current next, nestedTokens = before.map .ok ++ .ok token :: after ∧
          (Reading.start interruptedBuilder).feedAll before = .ok current ∧
          current.feed token = .check check next ∧
          check.Agrees current.builder.scope.frames
            (interruptedBuilder.read Check.run nestedTokens).builder.labels := by
  have hreached : interruptedBuilder.Reached := .read _ _ (.new _)
  have hlabels : "th" ∈ (interruptedBuilder.read Check.run nestedTokens).checks.map
      Check.label := by decide +kernel
  obtain ⟨check, hcheck, hlabel⟩ := List.mem_map.mp hlabels
  refine ⟨hreached, by decide +kernel, check, hcheck, hlabel, ?_⟩
  exact check_agrees_of_reached hreached hcheck

end Builder

end Database

end Metamath
