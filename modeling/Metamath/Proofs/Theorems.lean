import Metamath.Database
import Metamath.Proofs.Arrival
import Metamath.Proofs.Checks

/-!
# Recorded theorems and their proofs

A theorem is recorded as soon as its statement ends, and its proof is verified after that. If all
proofs of a read are right, then the order does not matter. If one of them is wrong, the read ends,
but the theorem has been recorded by then, and whoever uses the builder again finds it in the table
like any other theorem.

So the theorems of a table are those of the checks that were run, one for one and in order, and not
only those of the checks that succeeded. They are all verified exactly if no read was broken off by
a wrong proof.
-/

namespace Metamath

/-- The assertion of a theorem. -/
def Entry.provable? : Entry → Option Assertion
  | .provable assertion => some assertion
  | .floating _ | .essential _ | .axiomatic _ => none

namespace LabelTable

variable {labels larger : LabelTable} {label : Symbol} {entry : Entry} {assertion : Assertion}

/-- The theorems of a table in the order of definition. -/
def theorems (labels : LabelTable) : List (Symbol × Assertion) :=
  labels.toList.filterMap fun (label, entry) => entry.provable?.map fun assertion =>
    (label, assertion)

theorem mem_theorems_iff :
    (label, assertion) ∈ labels.theorems ↔ (label, .provable assertion) ∈ labels.toList := by
  rw [theorems, List.mem_filterMap]
  constructor
  · rintro ⟨⟨other, entry⟩, hmem, hentry⟩
    cases entry with
    | provable found =>
      cases hentry
      exact hmem
    | _ => cases hentry
  · intro hmem
    exact ⟨_, hmem, rfl⟩

theorem theorems_of_insert? (hinsert : labels.insert? label entry = some larger) :
    larger.theorems =
      labels.theorems ++ (entry.provable?.map fun assertion => (label, assertion)).toList := by
  rw [theorems, toList_of_insert? hinsert, List.filterMap_append]
  cases entry <;> rfl

theorem pairwise_theorems (labels : LabelTable) :
    labels.theorems.Pairwise fun first second => first.1 ≠ second.1 := by
  rw [theorems, List.pairwise_filterMap]
  refine labels.pairwise_label_ne.imp ?_
  rintro ⟨label, entry⟩ ⟨other, found⟩ hne first hfirst second hsecond
  obtain ⟨_, -, rfl⟩ := Option.map_eq_some_iff.mp hfirst
  obtain ⟨_, -, rfl⟩ := Option.map_eq_some_iff.mp hsecond
  exact hne

end LabelTable

namespace Database

/-- The theorem that a check is about. -/
def Check.subject (check : Check) : Symbol × Assertion :=
  (check.label, check.assertion)

/-- The read ended because the proof of this check is wrong. -/
def Outcome.BrokenOffBy (outcome : Outcome) (check : Check) : Prop :=
  check ∈ outcome.checks ∧ ∃ error, check.run = .error error ∧ outcome.result = .error error

namespace Builder

variable {builder result : Builder} {check : Option Check}

/-- How reads end, one after another, each of which verifies every proof at once. A read that failed
is followed by the next one all the same. -/
def readEach (builder : Builder) : List (List (Except Inclusion.Error Token)) → List Outcome
  | [] => []
  | items :: inputs =>
    let outcome := builder.read Check.run items
    outcome :: outcome.builder.readEach inputs

/-- The builder after these reads. -/
def afterEach (builder : Builder) (inputs : List (List (Except Inclusion.Error Token))) : Builder :=
  inputs.foldl (fun current items => (current.read Check.run items).builder) builder

/-- Where proofs are verified, a step records a theorem if and only if it gives out its check. -/
theorem Step.theorems_eq (hstep : builder.Step check result) (hverifying : builder.verifying) :
    result.labels.theorems = builder.labels.theorems ++ check.toList.map Check.subject := by
  cases check with
  | some given =>
    obtain ⟨_, larger, -, -, hinsert, rfl⟩ := hstep.exists_of_check
    exact LabelTable.theorems_of_insert? hinsert
  | none =>
    rw [Option.toList_none, List.map_nil, List.append_nil]
    rcases hstep.grows.labels with hsame | ⟨label, entry, hinsert, hprovable⟩
    · rw [hsame]
    · rw [LabelTable.theorems_of_insert? hinsert]
      cases entry with
      | provable assertion =>
        obtain ⟨_, _, -, hcheck⟩ := hprovable assertion rfl
        rw [if_pos hverifying] at hcheck
        cases hcheck
      | _ => exact List.append_nil _

end Builder

namespace Reading

variable {accept : Check → Except Error Unit} {reading last : Reading} {tokens : List Token}
  {checks : List Check} {items : List (Except Inclusion.Error Token)} {outcome : Outcome}

theorem Arrives.theorems_eq (harrives : Arrives accept reading tokens checks last)
    (hchecked : reading.Checked) (hverifying : reading.builder.verifying) :
    last.builder.labels.theorems =
      reading.builder.labels.theorems ++ checks.map Check.subject := by
  induction harrives with
  | here => exact (List.append_nil _).symm
  | pass _ hpasses _ ih =>
    obtain ⟨hstep, hnext⟩ := hpasses.step hchecked
    rw [ih hnext (hstep.grows.verifying hverifying), hstep.theorems_eq hverifying,
      List.append_assoc, List.map_append]

theorem Ends.theorems_eq (hends : reading.Ends accept items outcome)
    (hchecked : reading.Checked) (hverifying : reading.builder.verifying) :
    outcome.builder.labels.theorems =
      reading.builder.labels.theorems ++ outcome.checks.map Check.subject := by
  cases hends with
  | finish =>
    rw [labels_finish]
    exact (List.append_nil _).symm
  | fault => exact (List.append_nil _).symm
  | @refused token _ _ _ _ hfeed =>
    have hfollows := feed_follows hchecked token
    rw [hfeed] at hfollows
    exact hfollows.theorems_eq hverifying
  | @rejected token _ _ _ _ _ hfeed _ =>
    have hfollows := feed_follows hchecked token
    rw [hfeed] at hfollows
    exact hfollows.1.theorems_eq hverifying

/-- A check was accepted, or else it is the one that the run ended with. -/
theorem accept_of_mem_checks {check : Check} (hmem : check ∈ (reading.run accept items).checks) :
    accept check = .ok () ∨
      ∃ error, accept check = .error error ∧ (reading.run accept items).result = .error error := by
  obtain ⟨tokens, rest, checks, last, outcome, rfl, harrives, hends⟩ :=
    exists_arrives_ends accept reading items
  rw [harrives.run_eq hends] at hmem ⊢
  rcases List.mem_append.mp hmem with hearly | hlast
  · exact .inl (harrives.accepted check hearly)
  · cases hends with
    | finish => cases hlast
    | fault => cases hlast
    | refused => cases hlast
    | @rejected _ _ _ error _ _ _ haccept =>
      obtain rfl := List.mem_singleton.mp hlast
      exact .inr ⟨error, haccept, rfl⟩

end Reading

namespace Builder

variable {builder : Builder}

theorem verifying_read (hverifying : builder.verifying) (accept : Check → Except Error Unit)
    (items : List (Except Inclusion.Error Token)) :
    (builder.read accept items).builder.verifying := by
  refine (read_leads builder accept items).invariant (P := fun later => later.verifying) ?_
    hverifying
  intro current result hcurrent hmove
  cases hmove with
  | step hstep => exact hstep.grows.verifying hcurrent
  | truncate depth => exact hcurrent

theorem theorems_read (hverifying : builder.verifying) (accept : Check → Except Error Unit)
    (items : List (Except Inclusion.Error Token)) :
    (builder.read accept items).builder.labels.theorems =
      builder.labels.theorems ++ (builder.read accept items).checks.map Check.subject := by
  have hchecked := Reading.checked_start builder
  obtain ⟨tokens, rest, checks, last, outcome, rfl, harrives, hends⟩ :=
    Reading.exists_arrives_ends accept (Reading.start builder) items
  have hlast := harrives.verifying hchecked hverifying
  rw [read, harrives.run_eq hends, Outcome.after]
  rw [hends.theorems_eq (harrives.checked hchecked) hlast,
    harrives.theorems_eq hchecked hverifying, List.append_assoc, List.map_append]
  rfl

theorem theorems_afterEach (hverifying : builder.verifying)
    (inputs : List (List (Except Inclusion.Error Token))) :
    (builder.afterEach inputs).labels.theorems =
      builder.labels.theorems ++
        ((builder.readEach inputs).flatMap Outcome.checks).map Check.subject := by
  induction inputs generalizing builder with
  | nil => exact (List.append_nil _).symm
  | cons items inputs ih =>
    have hnext := verifying_read hverifying Check.run items
    rw [afterEach, List.foldl_cons]
    rw [readEach, List.flatMap_cons, List.map_append, ← List.append_assoc,
      ← theorems_read hverifying]
    exact ih hnext

theorem exists_read_of_mem_readEach {inputs : List (List (Except Inclusion.Error Token))}
    {outcome : Outcome} (hmem : outcome ∈ builder.readEach inputs) :
    ∃ (current : Builder) (items : List (Except Inclusion.Error Token)),
      outcome = current.read Check.run items := by
  induction inputs generalizing builder with
  | nil => cases hmem
  | cons items inputs ih =>
    rcases List.mem_cons.mp hmem with hhere | hlater
    · exact ⟨builder, items, hhere⟩
    · exact ih hlater

/-- No two checks of a sequence of reads are about the same label. -/
theorem eq_of_label_eq_of_mem_readEach (hverifying : builder.verifying)
    {inputs : List (List (Except Inclusion.Error Token))} {first second : Check}
    (hfirst : first ∈ (builder.readEach inputs).flatMap Outcome.checks)
    (hsecond : second ∈ (builder.readEach inputs).flatMap Outcome.checks)
    (hlabel : first.label = second.label) : first = second := by
  have hdistinct := (builder.afterEach inputs).labels.pairwise_theorems
  rw [theorems_afterEach hverifying, List.pairwise_append, List.pairwise_map] at hdistinct
  have hnodup : (((builder.readEach inputs).flatMap Outcome.checks).map Check.label).Nodup :=
    List.pairwise_map.mpr hdistinct.2.1
  exact List.inj_on_of_nodup_map hnodup hfirst hsecond hlabel

/-- If all proofs are verified at once, from the first label on, then the theorems in the table are
those whose proofs were checked, in order. All of them were found right, and so all theorems of the
database, if and only if none of the reads was broken off by a wrong proof: the theorem whose proof
breaks off a read stays in the table, too. -/
theorem theorems_verified_iff (stop : Option Symbol)
    (inputs : List (List (Except Inclusion.Error Token))) :
    ((new ⟨none, stop⟩).afterEach inputs).labels.theorems =
        (((new ⟨none, stop⟩).readEach inputs).flatMap Outcome.checks).map Check.subject ∧
      ((∀ label assertion,
          (label, .provable assertion) ∈
            ((new ⟨none, stop⟩).afterEach inputs).finish.labels.toList →
          ∃ outcome ∈ (new ⟨none, stop⟩).readEach inputs, ∃ check ∈ outcome.checks,
            check.label = label ∧ check.assertion = assertion ∧ check.run = .ok ()) ↔
        ∀ outcome ∈ (new ⟨none, stop⟩).readEach inputs, ∀ check, ¬ outcome.BrokenOffBy check) := by
  have hverifying : (new ⟨none, stop⟩).verifying := rfl
  have htheorems := theorems_afterEach hverifying inputs
  refine ⟨htheorems, ?_, ?_⟩
  · rintro hverified outcome houtcome check ⟨hmem, error, hwrong, -⟩
    have hcheck := List.mem_flatMap_of_mem houtcome hmem
    have hsubject : check.subject ∈ ((new ⟨none, stop⟩).afterEach inputs).labels.theorems := by
      rw [htheorems]
      exact List.mem_append_right _ (List.mem_map_of_mem hcheck)
    obtain ⟨other, hother, right, hright, hlabel, -, hrun⟩ :=
      hverified check.label check.assertion (LabelTable.mem_theorems_iff.mp hsubject)
    -- the check that succeeded has the same label, so it is the one that failed
    obtain rfl := eq_of_label_eq_of_mem_readEach hverifying
      (List.mem_flatMap_of_mem hother hright) hcheck hlabel
    rw [hwrong] at hrun
    cases hrun
  · intro hunbroken label assertion hrecorded
    have hmem : (label, assertion) ∈ ((new ⟨none, stop⟩).afterEach inputs).labels.theorems :=
      LabelTable.mem_theorems_iff.mpr hrecorded
    rw [htheorems] at hmem
    obtain ⟨check, hcheck, hsubject⟩ := List.mem_map.mp hmem
    obtain ⟨outcome, houtcome, hgiven⟩ := List.mem_flatMap.mp hcheck
    refine ⟨outcome, houtcome, check, hgiven, congrArg Prod.fst hsubject,
      congrArg Prod.snd hsubject, ?_⟩
    obtain ⟨current, items, rfl⟩ := exists_read_of_mem_readEach houtcome
    exact (Reading.accept_of_mem_checks hgiven).resolve_right fun hwrong =>
      hunbroken _ houtcome check ⟨hgiven, hwrong⟩

/-- A theorem whose proof is empty. -/
def unprovedTheorem : List (Except Inclusion.Error Token) :=
  ["$c", "|-", "$.", "th", "$p", "|-", "$=", "$."].map fun word => .ok (.ofRun word.toList)

/-- A theorem whose proof is the theorem before. -/
def derivedTheorem : List (Except Inclusion.Error Token) :=
  ["use", "$p", "|-", "$=", "th", "$."].map fun word => .ok (.ofRun word.toList)

theorem wrong_theorem_recorded :
    ((new ⟨none, none⟩).afterEach [unprovedTheorem]).finish.labels.theorems.map Prod.fst = ["th"] ∧
      (∀ outcome ∈ (new ⟨none, none⟩).readEach [unprovedTheorem], ∀ check ∈ outcome.checks,
        ¬ (check.label = "th" ∧ check.run = .ok ())) ∧
      (((new ⟨none, none⟩).afterEach [unprovedTheorem]).read Check.run derivedTheorem).result =
        .ok () := by
  decide +kernel

end Builder

end Database

end Metamath
