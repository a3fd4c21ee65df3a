import Metamath.Proofs.Places

/-!
# Builders with other bounds

A label to stop at and a label to start verifying at are looked at in one situation only: when the
label of a statement is read. As long as no label makes a difference, builders with other bounds
stay in step: each token is accepted or refused by both, and the builders differ in nothing but the
bounds and the checks that they give out.

So reading commutes with a change of the bounds. This is shown for each part of a statement, then
for a single token, and then along all tokens of a run.
-/

namespace Metamath.Database

variable {bounds : Bounds} {keeps : Bool}

namespace Builder

/-- The builder with other bounds. If `keeps` is false, it does not verify proofs yet. -/
def rebound (builder : Builder) (bounds : Bounds) (keeps : Bool) : Builder :=
  { builder with bounds, verifying := keeps && builder.verifying }

/-- A label makes no difference for the other bounds. -/
def Overlooks (builder : Builder) (bounds : Bounds) (keeps : Bool) (label : Symbol) : Prop :=
  (builder.rebound bounds keeps).noteLabel label = (builder.noteLabel label).rebound bounds keeps

@[simp]
theorem scope_rebound (builder : Builder) :
    (builder.rebound bounds keeps).scope = builder.scope := rfl

@[simp]
theorem labels_rebound (builder : Builder) :
    (builder.rebound bounds keeps).labels = builder.labels := rfl

@[simp]
theorem stopped_rebound (builder : Builder) :
    (builder.rebound bounds keeps).stopped = builder.stopped := rfl

@[simp]
theorem depth_rebound (builder : Builder) :
    (builder.rebound bounds keeps).depth = builder.depth := rfl

@[simp]
theorem checkStatement_rebound (builder : Builder) (statement : Statement) :
    (builder.rebound bounds keeps).checkStatement statement =
      builder.checkStatement statement := rfl

end Builder

namespace Reading

/-- The reading with other bounds. -/
def rebound (reading : Reading) (bounds : Bounds) (keeps : Bool) : Reading :=
  { reading with builder := reading.builder.rebound bounds keeps }

@[simp]
theorem builder_rebound (reading : Reading) :
    (reading.rebound bounds keeps).builder = reading.builder.rebound bounds keeps := rfl

@[simp]
theorem floor_rebound (reading : Reading) :
    (reading.rebound bounds keeps).floor = reading.floor := rfl

@[simp]
theorem phase_rebound (reading : Reading) :
    (reading.rebound bounds keeps).phase = reading.phase := rfl

end Reading

/-- The progress with other bounds. -/
def Progress.rebound (bounds : Bounds) (keeps : Bool) : Progress → Progress
  | .more reading => .more (reading.rebound bounds keeps)
  | .check given reading =>
    if keeps then .check given (reading.rebound bounds keeps)
    else .more (reading.rebound bounds keeps)
  | .refused error builder => .refused error (builder.rebound bounds keeps)

/-- The outcome with other bounds. -/
def Outcome.rebound (outcome : Outcome) (bounds : Bounds) (keeps : Bool) : Outcome where
  builder := outcome.builder.rebound bounds keeps
  checks := if keeps then outcome.checks else []
  result := outcome.result

theorem Outcome.after_rebound (checks : List Check) (outcome : Outcome) :
    (outcome.after checks).rebound bounds keeps =
      (outcome.rebound bounds keeps).after (if keeps then checks else []) := by
  cases keeps <;> rfl

/-! ### Statements with other bounds -/

namespace Builder

variable (builder : Builder) (label : Symbol) (statement : Statement)

theorem define_rebound (entry : Entry) :
    (builder.rebound bounds keeps).define label entry =
      (builder.define label entry).map (rebound · bounds keeps) := by
  rw [define, define, labels_rebound]
  cases builder.labels.insert? label entry <;> rfl

theorem addFloating_rebound :
    (builder.rebound bounds keeps).addFloating label statement =
      (builder.addFloating label statement).map (rebound · bounds keeps) := by
  rw [addFloating.eq_def, addFloating.eq_def, scope_rebound]
  split
  · rename_i typecode v
    cases builder.scope.addFloating ⟨typecode, v⟩ label with
    | error error => rfl
    | ok scope => exact define_rebound { builder with scope } label _
  · rfl

theorem addEssential_rebound :
    (builder.rebound bounds keeps).addEssential label statement =
      (builder.addEssential label statement).map (rebound · bounds keeps) := by
  rw [addEssential, addEssential, checkStatement_rebound, scope_rebound]
  cases builder.checkStatement statement with
  | error cause => rfl
  | ok checked =>
    cases builder.scope.addEssential statement label with
    | error error => rfl
    | ok scope => exact define_rebound { builder with scope } label _

theorem addAxiomatic_rebound :
    (builder.rebound bounds keeps).addAxiomatic label statement =
      (builder.addAxiomatic label statement).map (rebound · bounds keeps) := by
  rw [addAxiomatic, addAxiomatic, checkStatement_rebound]
  cases builder.checkStatement statement with
  | error cause => rfl
  | ok checked => exact define_rebound builder label _

theorem addProvable_rebound (proof : List Symbol) :
    (builder.rebound bounds keeps).addProvable label statement proof =
      (builder.addProvable label statement proof).map fun added =>
        (added.1.rebound bounds keeps, if keeps then added.2 else none) := by
  simp only [addProvable, define_rebound, scope_rebound]
  cases builder.define label (.provable (builder.scope.assertion statement)) with
  | error cause => rfl
  | ok defined => cases keeps <;> rfl

theorem declare_rebound (declaration : Declaration) (symbols : List Symbol) :
    (builder.rebound bounds keeps).declare declaration symbols =
      ((builder.declare declaration symbols).1.rebound bounds keeps,
        (builder.declare declaration symbols).2) := rfl

end Builder

namespace Reading

theorem complete_rebound (reading : Reading) (outcome : Except Cause Builder) :
    (reading.rebound bounds keeps).complete (outcome.map (·.rebound bounds keeps)) =
      (reading.complete outcome).rebound bounds keeps := by
  cases outcome <;> rfl

theorem feedBlock_rebound (reading : Reading) (pending : Option Symbol) (opens : Bool) :
    (reading.rebound bounds keeps).feedBlock pending opens =
      (reading.feedBlock pending opens).rebound bounds keeps := by
  cases pending with
  | some label => rfl
  | none =>
    cases opens with
    | true => rfl
    | false =>
      simp only [feedBlock, Bool.false_eq_true, if_false]
      rw [builder_rebound, Builder.depth_rebound, Builder.scope_rebound]
      split_ifs
      · rfl
      · cases reading.builder.scope.pop <;> rfl

/-- Only a label that makes a difference is taken in another way. -/
theorem feedLabel_rebound (reading : Reading) (pending : Option Symbol) {label : Symbol}
    (hover : pending = none → reading.builder.Overlooks bounds keeps label) :
    (reading.rebound bounds keeps).feedLabel pending label =
      (reading.feedLabel pending label).rebound bounds keeps := by
  cases pending with
  | some earlier => rfl
  | none =>
    have hnote : (reading.builder.rebound bounds keeps).noteLabel label =
      (reading.builder.noteLabel label).rebound bounds keeps := hover rfl
    rw [feedLabel, feedLabel, builder_rebound, Builder.labels_rebound, hnote]
    split_ifs <;> rfl

theorem finishDeclaration_rebound (reading : Reading) (kind : Declaration)
    (symbols : List Symbol) :
    (reading.rebound bounds keeps).finishDeclaration kind symbols =
      (reading.finishDeclaration kind symbols).rebound bounds keeps := by
  rw [finishDeclaration, finishDeclaration, builder_rebound, Builder.declare_rebound]
  obtain ⟨result, refused⟩ := reading.builder.declare kind symbols
  cases refused <;> rfl

theorem finishStatement_rebound (reading : Reading) (kind : Labelled) (label : Symbol)
    (statement : Statement) :
    (reading.rebound bounds keeps).finishStatement kind label statement =
      (reading.finishStatement kind label statement).rebound bounds keeps := by
  cases kind with
  | floating =>
    rw [finishStatement, finishStatement, ← complete_rebound, ← Builder.addFloating_rebound]
    rfl
  | essential =>
    rw [finishStatement, finishStatement, ← complete_rebound, ← Builder.addEssential_rebound]
    rfl
  | axiomatic =>
    rw [finishStatement, finishStatement, ← complete_rebound, ← Builder.addAxiomatic_rebound]
    rfl
  | provable =>
    rw [finishStatement, finishStatement, builder_rebound, Builder.checkStatement_rebound]
    cases reading.builder.checkStatement statement <;> rfl

theorem finishProof_rebound (reading : Reading) (label : Symbol) (statement : Statement)
    (proof : List Symbol) :
    (reading.rebound bounds keeps).finishProof label statement proof =
      (reading.finishProof label statement proof).rebound bounds keeps := by
  rw [finishProof, finishProof, builder_rebound, Builder.addProvable_rebound]
  cases reading.builder.addProvable label statement proof with
  | error cause => rfl
  | ok added =>
    obtain ⟨result, check⟩ := added
    cases keeps <;> cases check <;> rfl

theorem feedOuter_rebound (reading : Reading) (pending : Option Symbol) (token : Token)
    (hover : ∀ label, pending = none → token = .word label → ¬ startsWithDollar label →
      reading.builder.Overlooks bounds keeps label) :
    (reading.rebound bounds keeps).feedOuter pending token =
      (reading.feedOuter pending token).rebound bounds keeps := by
  cases token with
  | word text =>
    rw [feedOuter, feedOuter]
    split_ifs with hdollar
    · rfl
    · exact feedLabel_rebound reading pending fun hpending => hover text hpending rfl hdollar
  | keyword keyword =>
    cases keyword with
    | statement kind =>
      cases kind with
      | declaration kind => cases pending <;> rfl
      | labelled kind => cases pending <;> rfl
    | blockOpen => exact feedBlock_rebound reading pending true
    | blockClose => exact feedBlock_rebound reading pending false
    | _ => rfl

/-- The bounds do not matter for a token, unless it is a label at which they differ. -/
theorem feed_rebound (reading : Reading) (token : Token)
    (hover : ∀ label, reading.phase = .outer none → token = .word label →
      ¬ startsWithDollar label → reading.builder.Overlooks bounds keeps label) :
    (reading.rebound bounds keeps).feed token = (reading.feed token).rebound bounds keeps := by
  obtain ⟨builder, floor, phase⟩ := reading
  cases phase with
  | outer pending =>
    refine feedOuter_rebound ⟨builder, floor, _⟩ pending token fun label hpending => ?_
    exact hover label (congrArg Phase.outer hpending)
  | declaring kind words =>
    simp only [feed, rebound]
    cases Member.ofToken .terminator token with
    | word text => rfl
    | stop => exact finishDeclaration_rebound ⟨builder, floor, _⟩ kind words.reverse
    | fault fault => rfl
  | stating kind label words =>
    simp only [feed, rebound]
    cases Member.ofToken (stopKeyword kind) token with
    | word text => rfl
    | stop => exact finishStatement_rebound ⟨builder, floor, _⟩ kind label words.reverse
    | fault fault => rfl
  | proving label statement proof =>
    simp only [feed, rebound]
    cases Member.ofToken .terminator token with
    | word text => rfl
    | stop => exact finishProof_rebound ⟨builder, floor, _⟩ label statement proof.reverse
    | fault fault => rfl

theorem finish_rebound (reading : Reading) :
    (reading.rebound bounds keeps).finish =
      (reading.finish.1.rebound bounds keeps, reading.finish.2) := by
  rw [finish, finish, builder_rebound, phase_rebound, floor_rebound, Builder.stopped_rebound,
    Builder.depth_rebound]
  by_cases hstop : reading.builder.stopped
  · rw [if_pos hstop, if_pos hstop]
    rfl
  · rw [if_neg hstop, if_neg hstop]
    split
    · rfl
    · by_cases hopen : reading.builder.depth > reading.floor + 1
      · rw [if_pos hopen, if_pos hopen]
      · rw [if_neg hopen, if_neg hopen]
        rfl
    · rfl

/-! ### Runs with other bounds -/

variable {reading next last : Reading} {token : Token} {given : Option Check} {tokens : List Token}
  {checks : List Check} {items : List (Except Inclusion.Error Token)}

/-- None of the labels of the input makes a difference for the other bounds. -/
def OverlooksAll (reading : Reading) (items : List (Except Inclusion.Error Token))
    (bounds : Bounds) (keeps : Bool) : Prop :=
  ∀ label before after checks current, LabelAt label reading items before after →
    Arrives acceptAll reading before checks current →
    current.builder.Overlooks bounds keeps label

theorem OverlooksAll.head (hover : reading.OverlooksAll (.ok token :: items) bounds keeps)
    (hstopped : ¬ reading.builder.stopped) (label : Symbol) (hphase : reading.phase = .outer none)
    (htoken : token = .word label) (hword : ¬ startsWithDollar label) :
    reading.builder.Overlooks bounds keeps label := by
  subst htoken
  exact hover label [] items [] reading (.here hstopped hphase hword) .here

theorem OverlooksAll.tail (hover : reading.OverlooksAll (.ok token :: items) bounds keeps)
    (hstopped : ¬ reading.builder.stopped) (hpasses : reading.Passes acceptAll token given next) :
    next.OverlooksAll items bounds keeps := by
  intro label before after checks current hplace harrives
  exact hover label _ after _ current (.later hstopped hpasses hplace)
    (.pass hstopped hpasses harrives)

theorem Passes.rebound (hpasses : reading.Passes acceptAll token given next)
    (hover : ∀ label, reading.phase = .outer none → token = .word label →
      ¬ startsWithDollar label → reading.builder.Overlooks bounds keeps label) :
    (reading.rebound bounds keeps).Passes acceptAll token (if keeps then given else none)
      (next.rebound bounds keeps) := by
  have hrebound := feed_rebound reading token hover
  cases hpasses with
  | more hfeed =>
    rw [hfeed] at hrebound
    rw [ite_self]
    exact .more hrebound
  | check hfeed haccept =>
    rw [hfeed] at hrebound
    cases keeps with
    | false => exact .more hrebound
    | true => exact .check hrebound haccept

theorem Arrives.rebound (harrives : Arrives acceptAll reading tokens checks last)
    (hover : reading.OverlooksAll (tokens.map .ok) bounds keeps) :
    Arrives acceptAll (reading.rebound bounds keeps) tokens (if keeps then checks else [])
      (last.rebound bounds keeps) := by
  induction harrives with
  | here =>
    rw [ite_self]
    exact .here
  | @pass reading next last token tokens given checks hstopped hpasses _ ih =>
    have hfirst := hpasses.rebound (hover.head hstopped)
    have hrest := ih (hover.tail hstopped hpasses)
    have hrunning : ¬ (reading.rebound bounds keeps).builder.stopped := hstopped
    cases keeps with
    | false => exact .pass hrunning hfirst hrest
    | true => exact .pass hrunning hfirst hrest

/-- A run with other bounds stays in step, as long as no label makes a difference. -/
theorem run_rebound (hover : reading.OverlooksAll items bounds keeps) :
    (reading.rebound bounds keeps).run acceptAll items =
      (reading.run acceptAll items).rebound bounds keeps := by
  have hnone : (if keeps then ([] : List Check) else []) = [] := ite_self _
  induction items generalizing reading with
  | nil => rw [run, run, finish_rebound, Outcome.rebound, hnone]
  | cons item rest ih =>
    by_cases hstopped : reading.builder.stopped
    · have hended : (reading.rebound bounds keeps).builder.stopped := hstopped
      rw [run_of_stopped hstopped, run_of_stopped hended, finish_rebound, Outcome.rebound, hnone]
    · have hrunning : ¬ (reading.rebound bounds keeps).builder.stopped := hstopped
      cases item with
      | error error =>
        rw [run_cons_error hstopped, run_cons_error hrunning, Outcome.rebound, hnone]
        rfl
      | ok token =>
        -- checks are all accepted, so a token passes with a check as it does without one
        have hpass : ∀ {given next}, reading.Passes acceptAll token given next →
            (reading.rebound bounds keeps).run acceptAll (.ok token :: rest) =
              (reading.run acceptAll (.ok token :: rest)).rebound bounds keeps := by
          intro given next hpasses
          have hrebound := hpasses.rebound (hover.head hstopped)
          rw [hpasses.run_cons hstopped, hrebound.run_cons hrunning,
            ih (hover.tail hstopped hpasses), Outcome.after_rebound]
          cases keeps <;> rfl
        cases hfeed : reading.feed token with
        | refused error builder =>
          have hrebound := feed_rebound reading token (hover.head hstopped)
          rw [hfeed] at hrebound
          rw [run_cons_of_refused hstopped hfeed, run_cons_of_refused hrunning hrebound,
            Outcome.rebound, hnone]
        | more next => exact hpass (.more hfeed)
        | check given next => exact hpass (.check hfeed rfl)

end Reading

end Metamath.Database
