import Metamath.Proofs.Lockstep

/-!
# The bounds of a read

A read with a stop label is the read without it, cut off at the first place of the label. A read
with a start label is the read without it, less the checks of the theorems before the first place of
the label. Both are shown by comparing two runs that stay in step up to that place: one of them ends
there, or it begins to give out checks.
-/

namespace Metamath.Database

variable {bounds : Bounds} {keeps : Bool}

namespace Builder

variable {builder result : Builder} {check : Option Check} {label other : Symbol}

theorem Step.bounds_eq (hstep : builder.Step check result) : result.bounds = builder.bounds := by
  cases hstep with
  | idle => rfl
  | note label => rfl
  | enter => rfl
  | leave hpop => rfl
  | declare declaration symbols => rfl
  | floating hadd =>
    obtain ⟨_, _, _, -, -, rfl⟩ := exists_of_addFloating hadd
    rfl
  | essential hadd =>
    obtain ⟨-, _, _, -, -, rfl⟩ := exists_of_addEssential hadd
    rfl
  | axiomatic hadd =>
    obtain ⟨-, _, -, rfl⟩ := exists_of_addAxiomatic hadd
    rfl
  | provable _ hadd =>
    obtain ⟨_, -, rfl, -⟩ := exists_of_addProvable hadd
    rfl

/-- Another label than the one to stop at makes no difference. -/
theorem overlooks_of_ne_stop {start : Option Symbol} (hbounds : builder.bounds = ⟨start, none⟩)
    (hne : other ≠ label) : builder.Overlooks ⟨start, some label⟩ true other := by
  simp [Overlooks, noteLabel, rebound, hbounds, hne.symm]

/-- Another label than the one to start at makes no difference. -/
theorem overlooks_of_ne_start {stop : Option Symbol} (hbounds : builder.bounds = ⟨none, stop⟩)
    (hne : other ≠ label) : builder.Overlooks ⟨some label, stop⟩ false other := by
  simp [Overlooks, noteLabel, rebound, hbounds, hne.symm]

/-- Where proofs are verified already, the label to start at makes no difference. -/
theorem overlooks_of_verifying (hverifying : builder.verifying)
    (hstop : builder.bounds.stop = bounds.stop) : builder.Overlooks bounds true other := by
  simp [Overlooks, noteLabel, rebound, hverifying, hstop]

/-- At the label to start at, a builder begins to verify proofs like the others. -/
theorem noteLabel_rebound {stop : Option Symbol} (hbounds : builder.bounds = ⟨none, stop⟩)
    (hverifying : builder.verifying) :
    (builder.rebound ⟨some label, stop⟩ false).noteLabel label =
      (builder.noteLabel label).rebound ⟨some label, stop⟩ true := by
  simp [noteLabel, rebound, hbounds, hverifying]

/-- Builders that have read the same, with whatever bounds. -/
structure Alike (first second : Builder) : Prop where
  scope : first.scope = second.scope
  labels : first.labels = second.labels
  stopped : first.stopped = second.stopped

theorem alike_rebound (builder : Builder) : (builder.rebound bounds keeps).Alike builder :=
  ⟨rfl, rfl, rfl⟩

/-- A builder that has stopped takes nothing any more. -/
theorem read_of_stopped (hstopped : builder.stopped) (accept : Check → Except Error Unit)
    (items : List (Except Inclusion.Error Token)) :
    builder.read accept items = ⟨builder, [], .ok ()⟩ := by
  have hstart : (Reading.start builder).builder.stopped := hstopped
  have hscope : builder.scope.push.truncate builder.scope.depth = builder.scope := by
    simp [Scope.truncate, Scope.push, Scope.depth]
  rw [read, Reading.run_of_stopped hstart, Reading.finish, if_pos hstart]
  simp only [Reading.start, truncate, depth, hscope]

end Builder

/-! ### Labels to stop at -/

namespace Reading

variable {accept : Check → Except Error Unit} {reading last : Reading} {tokens before : List Token}
  {checks : List Check} {items after : List (Except Inclusion.Error Token)} {label : Symbol}
  {start stop : Option Symbol}

theorem Arrives.bounds_eq (harrives : Arrives accept reading tokens checks last)
    (hchecked : reading.Checked) : last.builder.bounds = reading.builder.bounds :=
  harrives.invariant (P := fun builder => builder.bounds = reading.builder.bounds)
    (fun _ _ _ hbounds hstep => hstep.bounds_eq.trans hbounds) hchecked rfl

/-- If only one label makes a difference, and it is not read, then none does. -/
theorem overlooksAll_of_not_labelAt {former : Bounds}
    (hnever : ∀ before after, ¬ LabelAt label (.start (.new former)) items before after)
    (hover : ∀ {builder : Builder} {other : Symbol}, builder.bounds = former → other ≠ label →
      builder.Overlooks bounds keeps other) :
    (Reading.start (.new former)).OverlooksAll items bounds keeps := by
  intro other before after checks current hplace harrives
  apply hover (harrives.bounds_eq (checked_start _))
  rintro rfl
  exact hnever before after hplace

/-- The run has stopped at the first place of the label. -/
theorem FirstAt.exists_arrives_stopped
    (hfirst : FirstAt label (.start (.new ⟨start, none⟩)) items before after) :
    ∃ checks current stopped,
      Arrives acceptAll (.start (.new ⟨start, none⟩)) before checks current ∧
      Arrives acceptAll (.start (.new ⟨start, some label⟩)) (before ++ [.word label]) checks
        stopped ∧
      stopped.builder.stopped ∧ stopped.floor = 0 ∧
      stopped.builder.labels = current.builder.labels := by
  obtain ⟨checks, current, harrives, hphase, hgoing, hnew⟩ := hfirst.exists_arrives
  have hcut : Arrives acceptAll (.start (.new ⟨start, some label⟩)) before checks
      (current.rebound ⟨start, some label⟩ true) :=
    harrives.rebound (overlooksAll_of_not_labelAt hfirst.not_labelAt Builder.overlooks_of_ne_stop)
  have hfeed : (current.rebound ⟨start, some label⟩ true).feed (.word label) = .more
      ⟨(current.builder.rebound ⟨start, some label⟩ true).noteLabel label, current.floor,
        .outer (some label)⟩ :=
    feed_label hphase hfirst.place.not_startsWithDollar hnew
  have hlast := hcut.append (.pass hgoing (.more hfeed) .here)
  rw [Option.toList_none, List.append_nil, List.append_nil] at hlast
  exact ⟨checks, current, _, harrives, hlast, by simp [Builder.noteLabel, Builder.rebound],
    harrives.floor_eq, rfl⟩

end Reading

namespace Builder

theorem read_stop_of_not_labelAt {start : Option Symbol} {label : Symbol}
    {items : List (Except Inclusion.Error Token)}
    (hnever : ∀ before after,
      ¬ Reading.LabelAt label (.start (new ⟨start, none⟩)) items before after) :
    (new ⟨start, some label⟩).read acceptAll items =
      ((new ⟨start, none⟩).read acceptAll items).rebound ⟨start, some label⟩ true :=
  Reading.run_rebound (Reading.overlooksAll_of_not_labelAt hnever overlooks_of_ne_stop)

/-- If the stop label is not read anywhere, the read is the same as without it. Otherwise it ends
well at the first place where the label is read, even inside of blocks, it has stopped, and what it
has recorded and given out comes from the tokens before the label. What stands after the label does
not matter. The builder does not read anything afterwards. -/
theorem read_stop_cuts (start : Option Symbol) (label : Symbol)
    (items : List (Except Inclusion.Error Token)) :
    ((∀ before after, ¬ Reading.LabelAt label (.start (new ⟨start, none⟩)) items before after) →
      ((new ⟨start, some label⟩).read acceptAll items).result =
          ((new ⟨start, none⟩).read acceptAll items).result ∧
        ((new ⟨start, some label⟩).read acceptAll items).builder.Alike
          ((new ⟨start, none⟩).read acceptAll items).builder ∧
        ((new ⟨start, some label⟩).read acceptAll items).checks =
          ((new ⟨start, none⟩).read acceptAll items).checks) ∧
    ∀ before after, Reading.FirstAt label (.start (new ⟨start, none⟩)) items before after →
      items = before.map .ok ++ .ok (.word label) :: after ∧
      (∃ checks last, Reading.Arrives acceptAll (.start (new ⟨start, some label⟩))
        (before ++ [.word label]) checks last ∧ last.builder.stopped) ∧
      ∃ builder : Builder,
        (∀ other, (new ⟨start, some label⟩).read acceptAll
            (before.map .ok ++ .ok (.word label) :: other) =
          ⟨builder, ((new ⟨start, none⟩).read acceptAll (before.map .ok)).checks, .ok ()⟩) ∧
        builder.stopped ∧ builder.depth = 0 ∧
        builder.labels = ((new ⟨start, none⟩).read acceptAll (before.map .ok)).builder.labels ∧
        ∀ accept more, builder.read accept more = ⟨builder, [], .ok ()⟩ := by
  refine ⟨fun hnever => ?_, fun before after hfirst => ?_⟩
  · rw [read_stop_of_not_labelAt hnever]
    exact ⟨rfl, alike_rebound _, rfl⟩
  · obtain ⟨checks, current, last, harrives, hcut, hstopped, hfloor, hlabels⟩ :=
      hfirst.exists_arrives_stopped
    have hbefore := harrives.run_append []
    rw [List.append_nil] at hbefore
    refine ⟨hfirst.place.split, ⟨checks, last, hcut, hstopped⟩, last.builder.truncate 0,
      fun other => ?_, hstopped, depth_truncate_zero _, ?_, read_of_stopped hstopped⟩
    · have hitems : before.map .ok ++ .ok (.word label) :: other =
          (before ++ [Token.word label]).map .ok ++ other := by
        rw [List.map_append, List.append_assoc]
        rfl
      rw [read, read, hitems, hcut.run_append, hbefore, Reading.run_of_stopped hstopped,
        Reading.finish, if_pos hstopped, hfloor]
      rfl
    · rw [read, hbefore]
      exact hlabels.trans current.labels_finish.symm

/-- A theorem inside of a block; the word `here` is a symbol of it. -/
def openBlockTokens : List Token :=
  ["$c", "|-", "here", "$.", "$\x7b", "ax", "$a", "|-", "here", "$.", "th", "$p", "|-", "here",
    "$=", "ax", "$."].map fun word => .ofRun word.toList

theorem read_stop_cuts_openBlockTokens :
    ∃ (builder : Builder) (checks : List Check),
      (∀ other, (new ⟨none, some "here"⟩).read acceptAll
        (openBlockTokens.map .ok ++ .ok (.word "here") :: other) = ⟨builder, checks, .ok ()⟩) ∧
      builder.stopped ∧ builder.depth = 0 ∧
      builder.labels.toList.map Prod.fst = ["ax", "th"] ∧ checks.map Check.label = ["th"] := by
  have hfirst : Reading.FirstAt "here" (.start (new ⟨none, none⟩))
      (openBlockTokens.map .ok ++ [.ok (.word "here")]) openBlockTokens [] :=
    Reading.firstAt_of_feedAll (by decide +kernel) (by decide +kernel) []
  obtain ⟨-, -, builder, hread, hstopped, hdepth, hlabels, -⟩ :=
    (read_stop_cuts none "here" _).2 _ _ hfirst
  refine ⟨builder, _, hread, hstopped, hdepth, ?_, ?_⟩
  · rw [hlabels]
    decide +kernel
  · decide +kernel

end Builder

/-! ### Labels to start at -/

namespace Reading

variable {tokens before : List Token} {checks : List Check}
  {items after : List (Except Inclusion.Error Token)} {label : Symbol} {stop : Option Symbol}

theorem overlooksAll_of_verifying {reading : Reading} (hchecked : reading.Checked)
    (hverifying : reading.builder.verifying) (hstop : reading.builder.bounds.stop = bounds.stop) :
    reading.OverlooksAll items bounds true := by
  intro other before after checks current hplace harrives
  apply Builder.overlooks_of_verifying (harrives.verifying hchecked hverifying)
  rw [harrives.bounds_eq hchecked, hstop]

/-- If checks are all accepted, then those of a run are given out on the way. -/
theorem exists_arrives_checks (reading : Reading) (items : List (Except Inclusion.Error Token)) :
    ∃ tokens rest last, items = tokens.map .ok ++ rest ∧
      Arrives acceptAll reading tokens (reading.run acceptAll items).checks last := by
  obtain ⟨tokens, rest, checks, last, outcome, rfl, harrives, hends⟩ :=
    exists_arrives_ends acceptAll reading items
  refine ⟨tokens, rest, last, rfl, ?_⟩
  have hnone : outcome.checks = [] := by
    cases hends with
    | finish => rfl
    | fault => rfl
    | refused => rfl
    | rejected _ _ haccept => cases haccept
  rw [harrives.run_eq hends, Outcome.after, hnone, List.append_nil]
  exact harrives

/-- From the first place of the label on, the run is the one without it, and the checks before are
not given out. -/
theorem FirstAt.exists_run_eq
    (hfirst : FirstAt label (.start (.new ⟨none, stop⟩)) items before after) :
    ∃ dropped current noted, Arrives acceptAll (.start (.new ⟨none, stop⟩)) before dropped current ∧
      current.phase = .outer none ∧ ¬ current.builder.stopped ∧
      current.Passes acceptAll (.word label) none noted ∧
      (start (.new ⟨none, stop⟩)).run acceptAll items =
        (noted.run acceptAll after).after dropped ∧
      (start (.new ⟨some label, stop⟩)).run acceptAll items =
        (noted.run acceptAll after).rebound ⟨some label, stop⟩ true := by
  obtain ⟨dropped, current, harrives, hphase, hgoing, hnew⟩ := hfirst.exists_arrives
  have hword := hfirst.place.not_startsWithDollar
  have hchecked := checked_start (.new ⟨none, stop⟩)
  have hbounds : current.builder.bounds = ⟨none, stop⟩ := harrives.bounds_eq hchecked
  have hverifying := harrives.verifying hchecked rfl
  have hpasses : current.Passes acceptAll (.word label) none
      ⟨current.builder.noteLabel label, current.floor, .outer (some label)⟩ :=
    .more (feed_label hphase hword hnew)
  obtain ⟨hstep, hnoted⟩ := hpasses.step (harrives.checked hchecked)
  refine ⟨dropped, current, _, harrives, hphase, hgoing, hpasses, ?_, ?_⟩
  · rw [hfirst.place.split, harrives.run_append, hpasses.run_cons hgoing]
    rfl
  · have hlate : Arrives acceptAll (.start (.new ⟨some label, stop⟩)) before []
        (current.rebound ⟨some label, stop⟩ false) :=
      harrives.rebound
        (overlooksAll_of_not_labelAt hfirst.not_labelAt Builder.overlooks_of_ne_start)
    have hfeed : (current.rebound ⟨some label, stop⟩ false).feed (.word label) = .more
        ⟨(current.builder.rebound ⟨some label, stop⟩ false).noteLabel label, current.floor,
          .outer (some label)⟩ := feed_label hphase hword hnew
    rw [Builder.noteLabel_rebound hbounds hverifying] at hfeed
    have hrunning : ¬ (current.rebound ⟨some label, stop⟩ false).builder.stopped := hgoing
    rw [hfirst.place.split, hlate.run_append, run_cons_of_more hrunning hfeed, ← run_rebound]
    · rfl
    · have hstop : current.builder.bounds.stop = stop := congrArg Bounds.stop hbounds
      exact overlooksAll_of_verifying hnoted (hstep.grows.verifying hverifying) hstop

end Reading

namespace Builder

variable {stop : Option Symbol} {label : Symbol} {items after : List (Except Inclusion.Error Token)}
  {before : List Token}

/-- The checks that are dropped belong to labels before the start label, and the others do not. -/
theorem exists_dropped_of_firstAt
    (hfirst : Reading.FirstAt label (.start (new ⟨none, stop⟩)) items before after) :
    ∃ dropped, ((new ⟨none, stop⟩).read acceptAll items).checks =
        dropped ++ ((new ⟨some label, stop⟩).read acceptAll items).checks ∧
      (∀ check ∈ dropped, ∃ earlier later,
        Reading.FirstAt check.label (.start (new ⟨none, stop⟩)) items earlier later ∧
          earlier.length < before.length) ∧
      ∀ check ∈ ((new ⟨some label, stop⟩).read acceptAll items).checks,
        check.label = label ∨ ∃ earlier later,
          Reading.FirstAt check.label (.start (new ⟨none, stop⟩)) items earlier later ∧
            before.length < earlier.length := by
  obtain ⟨dropped, current, noted, harrives, hphase, hgoing, hpasses, hfull, hlate⟩ :=
    hfirst.exists_run_eq
  rw [read, read, hfull, hlate]
  refine ⟨dropped, rfl, fun check hmem => ?_, fun check hmem => ?_⟩
  · rw [hfirst.place.split]
    exact harrives.exists_firstAt hmem _
  · -- the whole run reads the label of the check somewhere, and not before the start label
    obtain ⟨tokens, rest, last, hafter, hrest⟩ := noted.exists_arrives_checks after
    have hall := harrives.append (.pass hgoing hpasses hrest)
    obtain ⟨earlier, later, hplace, -⟩ :=
      hall.exists_firstAt (List.mem_append_right _ hmem) rest
    have hitems : (before ++ .word label :: tokens).map .ok ++ rest = items := by
      rw [hfirst.place.split, hafter, List.map_append, List.append_assoc]
      rfl
    rw [hitems] at hplace
    have hnew := (hrest.contains_of_mem_checks hmem).1
    by_cases hlabel : check.label = label
    · exact .inl hlabel
    · exact .inr ⟨earlier, later, hplace,
        hfirst.lt_length harrives hphase hpasses hplace.place hnew hlabel⟩

theorem read_start_of_not_labelAt
    (hnever : ∀ before after,
      ¬ Reading.LabelAt label (.start (new ⟨none, stop⟩)) items before after) :
    (new ⟨some label, stop⟩).read acceptAll items =
      ((new ⟨none, stop⟩).read acceptAll items).rebound ⟨some label, stop⟩ false :=
  Reading.run_rebound (Reading.overlooksAll_of_not_labelAt hnever overlooks_of_ne_start)

theorem read_start_alike (stop : Option Symbol) (label : Symbol)
    (items : List (Except Inclusion.Error Token)) :
    ((new ⟨some label, stop⟩).read acceptAll items).result =
        ((new ⟨none, stop⟩).read acceptAll items).result ∧
      ((new ⟨some label, stop⟩).read acceptAll items).builder.Alike
        ((new ⟨none, stop⟩).read acceptAll items).builder := by
  by_cases hnever : ∀ before after,
      ¬ Reading.LabelAt label (.start (new ⟨none, stop⟩)) items before after
  · rw [read_start_of_not_labelAt hnever]
    exact ⟨rfl, alike_rebound _⟩
  · push Not at hnever
    obtain ⟨_, _, hplace⟩ := hnever
    obtain ⟨before, after, hfirst, -⟩ := hplace.exists_firstAt
    obtain ⟨dropped, _, noted, -, -, -, -, hfull, hlate⟩ := hfirst.exists_run_eq
    rw [read, read, hfull, hlate]
    exact ⟨rfl, alike_rebound _⟩

/-- A read with a start label reads the same, and ends in the same way, as without it. If the label
is not read anywhere, no checks are given out. Otherwise the checks are those of the theorems whose
label is the start label or is read after it. -/
theorem read_start_drops (stop : Option Symbol) (label : Symbol)
    (items : List (Except Inclusion.Error Token)) :
    ((new ⟨some label, stop⟩).read acceptAll items).result =
        ((new ⟨none, stop⟩).read acceptAll items).result ∧
      ((new ⟨some label, stop⟩).read acceptAll items).builder.Alike
        ((new ⟨none, stop⟩).read acceptAll items).builder ∧
      ((∀ before after, ¬ Reading.LabelAt label (.start (new ⟨none, stop⟩)) items before after) →
        ((new ⟨some label, stop⟩).read acceptAll items).checks = []) ∧
      ∀ before after, Reading.FirstAt label (.start (new ⟨none, stop⟩)) items before after →
        ∃ dropped, ((new ⟨none, stop⟩).read acceptAll items).checks =
            dropped ++ ((new ⟨some label, stop⟩).read acceptAll items).checks ∧
          (∀ check ∈ dropped, ∃ earlier later,
            Reading.FirstAt check.label (.start (new ⟨none, stop⟩)) items earlier later ∧
              earlier.length < before.length) ∧
          ∀ check ∈ ((new ⟨some label, stop⟩).read acceptAll items).checks,
            check.label = label ∨ ∃ earlier later,
              Reading.FirstAt check.label (.start (new ⟨none, stop⟩)) items earlier later ∧
                before.length < earlier.length := by
  obtain ⟨hresult, halike⟩ := read_start_alike stop label items
  refine ⟨hresult, halike, fun hnever => ?_, fun _ _ => exists_dropped_of_firstAt⟩
  rw [read_start_of_not_labelAt hnever]
  rfl

/-- An axiom and a theorem. -/
def earlierTokens : List Token :=
  ["$c", "|-", "$.", "ax", "$a", "|-", "$.", "first", "$p", "|-", "$=", "ax", "$."].map
    fun word => .ofRun word.toList

/-- An axiom without its label, and a theorem. -/
def laterTokens : List (Except Inclusion.Error Token) :=
  ["$a", "|-", "|-", "$.", "second", "$p", "|-", "|-", "$=", "mark", "$."].map
    fun word => .ok (.ofRun word.toList)

theorem read_start_drops_earlierTokens :
    ∃ dropped,
      ((new ⟨none, none⟩).read acceptAll
          (earlierTokens.map .ok ++ .ok (.word "mark") :: laterTokens)).checks =
        dropped ++ ((new ⟨some "mark", none⟩).read acceptAll
          (earlierTokens.map .ok ++ .ok (.word "mark") :: laterTokens)).checks ∧
      dropped.map Check.label = ["first"] ∧
      ((new ⟨some "mark", none⟩).read acceptAll
        (earlierTokens.map .ok ++ .ok (.word "mark") :: laterTokens)).checks.map Check.label =
        ["second"] := by
  have hfirst : Reading.FirstAt "mark" (.start (new ⟨none, none⟩))
      (earlierTokens.map .ok ++ .ok (.word "mark") :: laterTokens) earlierTokens laterTokens :=
    Reading.firstAt_of_feedAll (by decide +kernel) (by decide +kernel) laterTokens
  obtain ⟨dropped, hchecks, -⟩ := (read_start_drops none "mark" _).2.2.2 _ _ hfirst
  have hkept : ((new ⟨some "mark", none⟩).read acceptAll
      (earlierTokens.map .ok ++ .ok (.word "mark") :: laterTokens)).checks.map Check.label =
      ["second"] := by decide +kernel
  have hall : ((new ⟨none, none⟩).read acceptAll
      (earlierTokens.map .ok ++ .ok (.word "mark") :: laterTokens)).checks.map Check.label =
      ["first"] ++ ["second"] := by decide +kernel
  rw [hchecks, List.map_append, hkept] at hall
  exact ⟨dropped, hchecks, List.append_cancel_right hall, hkept⟩

end Builder

end Metamath.Database
