import Mathlib.Logic.Relation
import Metamath.Command.Verification
import Metamath.Proofs.Reading

/-!
# Verifying alongside reading

A pipeline may be interrupted in many ways: the reader may be far ahead of the consumer when a wrong
proof is found, it may have met an error of its own by then, or it may be told that nobody takes its
checks any more. None of this can be seen in the outcome. If one check is verified at a time, the
outcome is that of verifying each proof as soon as it is read. If the consumer works concurrently,
only the choice among several wrong proofs is left open.

The reason is that a read is determined by two things which do not depend on the consumer: the
checks that it gives out when nobody refuses any, and how it ends then. A refusal only cuts it off
at the first check that is refused. So the invariant of a pipeline is that the checks that were
taken, those that wait and those that are still to come are always the same list.
-/

namespace Metamath.Database

/-- Refuse no check. -/
def acceptAll (_ : Check) : Except Error Unit := .ok ()

namespace Reading

/-- A read ends with the first refusal of a check, or else as if nothing were refused. -/
theorem result_run (accept : Check → Except Error Unit) (reading : Reading)
    (items : List (Except Inclusion.Error Token)) :
    (reading.run accept items).result =
      (do
        (reading.run acceptAll items).checks.forM accept
        (reading.run acceptAll items).result) := by
  induction items generalizing reading with
  | nil => rfl
  | cons item rest ih =>
    by_cases hstopped : reading.builder.stopped
    · rw [run_of_stopped hstopped, run_of_stopped hstopped]
      rfl
    · cases item with
      | error error =>
        rw [run_cons_error hstopped, run_cons_error hstopped]
        rfl
      | ok token =>
        cases hfeed : reading.feed token with
        | refused error builder =>
          rw [run_cons_of_refused hstopped hfeed, run_cons_of_refused hstopped hfeed]
          rfl
        | more next =>
          rw [run_cons_of_more hstopped hfeed, run_cons_of_more hstopped hfeed]
          exact ih next
        | check check next =>
          have hall : acceptAll check = .ok () := rfl
          rw [run_cons_of_accepted hstopped hfeed hall, List.forM]
          cases haccept : accept check with
          | error error =>
            rw [run_cons_of_rejected hstopped hfeed haccept]
            rfl
          | ok accepted =>
            rw [run_cons_of_accepted hstopped hfeed haccept]
            exact ih next

/-- Without refusals, it does not matter who is asked. -/
theorem run_eq_of_forM_ok {accept : Check → Except Error Unit} {reading : Reading}
    {items : List (Except Inclusion.Error Token)}
    (haccept : (reading.run acceptAll items).checks.forM accept = .ok ()) :
    reading.run accept items = reading.run acceptAll items := by
  induction items generalizing reading with
  | nil => rfl
  | cons item rest ih =>
    by_cases hstopped : reading.builder.stopped
    · rw [run_of_stopped hstopped, run_of_stopped hstopped]
    · cases item with
      | error error => rw [run_cons_error hstopped, run_cons_error hstopped]
      | ok token =>
        cases hfeed : reading.feed token with
        | refused error builder =>
          rw [run_cons_of_refused hstopped hfeed, run_cons_of_refused hstopped hfeed]
        | more next =>
          rw [run_cons_of_more hstopped hfeed] at haccept ⊢
          rw [run_cons_of_more hstopped hfeed]
          exact ih haccept
        | check check next =>
          have hall : acceptAll check = .ok () := rfl
          rw [run_cons_of_accepted hstopped hfeed hall, List.forM, bind_eq_ok_iff] at haccept
          obtain ⟨⟨⟩, hcheck, hrest⟩ := haccept
          rw [run_cons_of_accepted hstopped hfeed hcheck, run_cons_of_accepted hstopped hfeed hall,
            ih hrest]

end Reading

end Metamath.Database

namespace Metamath.Command

open Database (Builder Bounds Check Outcome Reading acceptAll)

/-- What has been read, or why reading failed. -/
def readerVerdict (outcome : Outcome) : Except Failure Builder :=
  (outcome.result.mapError .refused).map fun _ => outcome.builder

/-- The checks of a read that are to be verified. -/
def checksOf (verifies : Bool) (outcome : Outcome) : List Check :=
  if verifies then outcome.checks else []

/-- What a read amounts to: the first wrong proof among the given checks, or else how it ends. -/
def verdict (checks : List Check) (ending : Except Failure Builder) : Except Failure Builder := do
  (checks.forM Check.run).mapError Failure.refused
  ending

theorem verdict_of_forall_ok {checks : List Check} {ending : Except Failure Builder}
    (hchecks : ∀ check ∈ checks, check.run = .ok ()) : verdict checks ending = ending := by
  rw [verdict, forM_eq_ok_iff.mpr hchecks]
  rfl

theorem verdict_of_first_error {before after : List Check} {check : Check}
    {ending : Except Failure Builder} {error : Database.Error}
    (hbefore : ∀ earlier ∈ before, earlier.run = .ok ()) (hcheck : check.run = .error error) :
    verdict (before ++ check :: after) ending = .error (.refused error) := by
  induction before with
  | nil =>
    rw [verdict, List.nil_append, List.forM, hcheck]
    rfl
  | cons earlier before ih =>
    obtain ⟨hearlier, hbefore⟩ := List.forall_mem_cons.mp hbefore
    rw [verdict, List.cons_append, List.forM, hearlier]
    exact ih hbefore

/-- Nothing is read successfully if some proof is wrong. -/
theorem verdict_ne_ok {checks : List Check} {check : Check} {ending : Except Failure Builder}
    {error : Database.Error} {builder : Builder} (hmem : check ∈ checks)
    (hcheck : check.run = .error error) : verdict checks ending ≠ .ok builder := by
  intro hok
  obtain ⟨⟨⟩, hall, -⟩ := bind_eq_ok_iff.mp hok
  cases hforM : checks.forM Check.run with
  | error first =>
    rw [hforM] at hall
    cases hall
  | ok _ =>
    have hpass := forM_eq_ok_iff.mp hforM check hmem
    rw [hcheck] at hpass
    cases hpass

/-- Verifying in turn means to look for the first wrong proof, and only then at how reading ends. -/
theorem readInTurn_eq_verdict (verifies : Bool) (bounds : Bounds)
    (items : List (Except Inclusion.Error Token)) :
    readInTurn verifies bounds items =
      verdict (checksOf verifies ((Builder.new bounds).read acceptAll items))
        (readerVerdict ((Builder.new bounds).read acceptAll items)) := by
  have hverdict : readInTurn verifies bounds items =
      readerVerdict ((Builder.new bounds).read (if verifies then Check.run else acceptAll)
        items) := by
    unfold readInTurn readerVerdict acceptAll
    extract_lets accept outcome
    cases outcome.result <;> rfl
  cases verifies with
  | false => exact hverdict
  | true =>
    refine hverdict.trans ?_
    rw [if_pos rfl]
    have hresult := Reading.result_run Check.run (.start (Builder.new bounds)) items
    cases hforM : ((Builder.new bounds).read acceptAll items).checks.forM Check.run with
    | ok _ =>
      have hrun : (Builder.new bounds).read Check.run items =
          (Builder.new bounds).read acceptAll items := Reading.run_eq_of_forM_ok hforM
      rw [hrun]
      exact (verdict_of_forall_ok (forM_eq_ok_iff.mp hforM)).symm
    | error error =>
      have hfailed : ((Builder.new bounds).read Check.run items).result = .error error := by
        refine hresult.trans ?_
        rw [Builder.read] at hforM
        rw [hforM]
        rfl
      rw [readerVerdict, hfailed, verdict, checksOf, if_pos rfl, hforM]
      rfl

/-- The checks that the reader still hands over, if nobody refuses one. -/
def Reader.upcoming (verifies : Bool) : Reader → List Check
  | .reading current items => checksOf verifies (current.run acceptAll items)
  | .sending check current items => check :: checksOf verifies (current.run acceptAll items)
  | .finished _ _ => []

/-- How the reader ends, if nobody refuses a check. -/
def Reader.ending : Reader → Except Failure Builder
  | .reading current items => readerVerdict (current.run acceptAll items)
  | .sending _ current items => readerVerdict (current.run acceptAll items)
  | .finished builder result => result.map fun _ => builder

namespace Pipeline

/-- Reading on changes neither what the reader hands over nor how it ends. -/
theorem readOn_prospect (verifies : Bool) (reading : Reading)
    (items : List (Except Inclusion.Error Token)) :
    (readOn verifies reading items).upcoming verifies =
        checksOf verifies (reading.run acceptAll items) ∧
      (readOn verifies reading items).ending = readerVerdict (reading.run acceptAll items) := by
  cases items with
  | nil =>
    refine ⟨?_, rfl⟩
    simp [readOn, Reader.upcoming, checksOf, Reading.run]
  | cons item rest =>
    by_cases hstopped : reading.builder.stopped
    · simp only [readOn, if_pos hstopped, Reading.run_of_stopped hstopped]
      exact ⟨by simp [Reader.upcoming, checksOf], rfl⟩
    · simp only [readOn, if_neg hstopped]
      cases item with
      | error error =>
        rw [Reading.run_cons_error hstopped]
        exact ⟨by simp [Reader.upcoming, checksOf], rfl⟩
      | ok token =>
        cases hfeed : reading.feed token with
        | refused error builder =>
          simp only [hfeed, Reading.run_cons_of_refused hstopped hfeed]
          exact ⟨by simp [Reader.upcoming, checksOf], rfl⟩
        | more next =>
          simp only [hfeed, Reading.run_cons_of_more hstopped hfeed]
          exact ⟨rfl, rfl⟩
        | check check next =>
          have hall : acceptAll check = .ok () := rfl
          simp only [hfeed, Reading.run_cons_of_accepted hstopped hfeed hall]
          cases verifies with
          | false => exact ⟨rfl, rfl⟩
          | true => exact ⟨rfl, rfl⟩

/-- The account of a pipeline whose reader hands over the given checks and has the given ending, if
nobody refuses a check. -/
structure Accounts (checks : List Check) (ending : Except Failure Builder) (taken : List Check)
    (pipeline : Pipeline) : Prop where
  /-- no check is lost, and none overtakes another -/
  complete : taken ++ pipeline.queue ++ pipeline.reader.upcoming pipeline.verifies = checks
  ending : pipeline.reader.ending = ending

/-- The checks that were taken have passed or are in hand. If one check is taken at a time, they
pass in the order in which they were taken. -/
structure Splits (concurrent : Bool) (taken passed inHand : List Check) : Prop where
  right : ∀ check ∈ passed, check.run = .ok ()
  complete : taken.Perm (passed ++ inHand)
  inTurn : concurrent = false → taken = passed ++ inHand ∧ inHand.length ≤ 1

/-- The invariant of a pipeline. A consumer that has found a wrong proof needs no account of the
reader, because its finding will be the outcome. -/
inductive Invariant (concurrent : Bool) (checks : List Check) (ending : Except Failure Builder)
    (pipeline : Pipeline) : Prop where
  | working {inHand taken passed : List Check} (hconsumer : pipeline.consumer = .working inHand)
      (haccounts : pipeline.Accounts checks ending taken)
      (hsplits : Splits concurrent taken passed inHand) :
      Invariant concurrent checks ending pipeline
  | succeeded {builder : Builder} {result : Except Failure Unit}
      (hconsumer : pipeline.consumer = .finished (.ok ()))
      (hright : ∀ check ∈ checks, check.run = .ok ())
      (hreader : pipeline.reader = .finished builder result)
      (hending : pipeline.reader.ending = ending) : Invariant concurrent checks ending pipeline
  | failed {check : Check} {error : Database.Error}
      (hconsumer : pipeline.consumer = .finished (.error error)) (hcheck : check ∈ checks)
      (hwrong : check.run = .error error)
      (hfirst : concurrent = false → verdict checks ending = .error (.refused error)) :
      Invariant concurrent checks ending pipeline

variable {concurrent : Bool} {checks : List Check} {ending : Except Failure Builder}
  {pipeline next : Pipeline}

theorem invariant_start (capacity : Option Nat) (verifies : Bool) (builder : Builder)
    (items : List (Except Inclusion.Error Token)) :
    (start capacity verifies builder items).Invariant concurrent
      (checksOf verifies (builder.read acceptAll items))
      (readerVerdict (builder.read acceptAll items)) := by
  have hsplits : Splits concurrent [] [] [] := ⟨by simp, .nil, fun _ => ⟨rfl, Nat.zero_le 1⟩⟩
  exact .working rfl ⟨rfl, rfl⟩ hsplits

/-! ### The reader's moves -/

/-- What the reader can do: read on, put a check into the queue, or give up. -/
theorem readerMove?_cases (hmove : pipeline.readerMove? = some next) :
    (∃ reading items, pipeline.reader = .reading reading items ∧
      next = { pipeline with reader := readOn pipeline.verifies reading items }) ∨
    (∃ check reading items inHand, pipeline.reader = .sending check reading items ∧
      pipeline.consumer = .working inHand ∧
      next = { pipeline with
        reader := .reading reading items, queue := pipeline.queue ++ [check] }) ∨
    (∃ check reading items result, pipeline.reader = .sending check reading items ∧
      pipeline.consumer = .finished result ∧
      next = { pipeline with reader := .finished reading.builder (.error .disconnected) }) := by
  unfold readerMove? at hmove
  split at hmove
  · cases hmove
  · rename_i reading items hreader
    exact .inl ⟨reading, items, hreader, (Option.some.inj hmove).symm⟩
  · rename_i check reading items hreader
    split at hmove
    · rename_i result hconsumer
      exact .inr (.inr ⟨check, reading, items, result, hreader, hconsumer,
        (Option.some.inj hmove).symm⟩)
    · rename_i inHand hconsumer
      split_ifs at hmove
      exact .inr (.inl ⟨check, reading, items, inHand, hreader, hconsumer,
        (Option.some.inj hmove).symm⟩)

/-- While the consumer works, the reader's moves keep the account. -/
theorem Accounts.read {taken inHand : List Check}
    (haccounts : pipeline.Accounts checks ending taken)
    (hconsumer : pipeline.consumer = .working inHand) (hmove : pipeline.readerMove? = some next) :
    next.Accounts checks ending taken ∧ next.consumer = .working inHand := by
  obtain ⟨hchecks, hending⟩ := haccounts
  obtain ⟨reading, items, hreader, rfl⟩ | ⟨check, reading, items, _, hreader, -, rfl⟩ |
    ⟨_, _, _, result, -, hfinished, -⟩ := readerMove?_cases hmove
  · obtain ⟨hupcoming, hends⟩ := readOn_prospect pipeline.verifies reading items
    rw [hreader] at hchecks hending
    refine ⟨⟨?_, hends.trans hending⟩, hconsumer⟩
    rw [hupcoming]
    exact hchecks
  · rw [hreader] at hchecks hending
    refine ⟨⟨?_, hending⟩, hconsumer⟩
    rw [← hchecks]
    simp [Reader.upcoming]
  · rw [hconsumer] at hfinished
    cases hfinished

theorem Invariant.read (hinvariant : pipeline.Invariant concurrent checks ending)
    (hmove : pipeline.readerMove? = some next) : next.Invariant concurrent checks ending := by
  cases hinvariant with
  | working hconsumer haccounts hsplits =>
    obtain ⟨haccounts, hconsumer⟩ := haccounts.read hconsumer hmove
    exact .working hconsumer haccounts hsplits
  | succeeded hconsumer hright hreader hending =>
    -- the consumer ends well only after the reader, who then has no move
    rw [readerMove?, hreader] at hmove
    cases hmove
  | failed hconsumer hcheck hwrong hfirst =>
    have hsame : next.consumer = pipeline.consumer := by
      obtain ⟨_, _, _, rfl⟩ | ⟨_, _, _, _, _, _, rfl⟩ | ⟨_, _, _, _, _, _, rfl⟩ :=
        readerMove?_cases hmove <;> rfl
    exact .failed (hsame.trans hconsumer) hcheck hwrong hfirst

/-! ### The consumer's moves -/

section

variable {taken passed inHand : List Check} {check : Check}

theorem Splits.take (hsplits : Splits concurrent taken passed inHand)
    (hfree : concurrent ∨ inHand = []) :
    Splits concurrent (taken ++ [check]) passed (inHand ++ [check]) where
  right := hsplits.right
  complete := by
    rw [← List.append_assoc]
    exact hsplits.complete.append_right [check]
  inTurn := by
    rintro rfl
    obtain ⟨htaken, -⟩ := hsplits.inTurn rfl
    obtain rfl : inHand = [] := hfree.resolve_left nofun
    rw [htaken, List.append_assoc]
    exact ⟨rfl, Nat.le_refl 1⟩

theorem Splits.pass {before after : List Check}
    (hsplits : Splits concurrent taken passed (before ++ check :: after))
    (hrun : check.run = .ok ()) :
    Splits concurrent taken (passed ++ [check]) (before ++ after) where
  right := by
    intro other hother
    rcases List.mem_append.mp hother with hpassed | hself
    · exact hsplits.right other hpassed
    · rw [List.mem_singleton.mp hself, hrun]
  complete := by
    rw [List.append_assoc, List.singleton_append]
    exact hsplits.complete.trans (List.perm_middle.append_left passed)
  inTurn := by
    intro hconcurrent
    obtain ⟨htaken, hlength⟩ := hsplits.inTurn hconcurrent
    -- nothing else is in hand
    obtain ⟨rfl, rfl⟩ : before = [] ∧ after = [] := by
      rw [List.length_append, List.length_cons] at hlength
      constructor <;> apply List.eq_nil_of_length_eq_zero <;> omega
    exact ⟨by simpa using htaken, Nat.zero_le 1⟩

/-- A wrong proof in hand is one of the reader's, and the first one if one check is taken at a
time. -/
theorem Splits.fail {rest : List Check} {error : Database.Error}
    (hsplits : Splits concurrent taken passed inHand) (htaken : taken ++ rest = checks)
    (hcheck : check ∈ inHand) (hrun : check.run = .error error) :
    check ∈ checks ∧ (concurrent = false → verdict checks ending = .error (.refused error)) := by
  subst htaken
  constructor
  · have hmem : check ∈ taken := hsplits.complete.mem_iff.mpr (List.mem_append_right _ hcheck)
    exact List.mem_append_left _ hmem
  · intro hconcurrent
    obtain ⟨htaken, hlength⟩ := hsplits.inTurn hconcurrent
    obtain rfl : inHand = [check] := by
      match inHand, hlength, hcheck with
      | [_], _, hcheck => rw [List.mem_singleton.mp hcheck]
    rw [htaken, List.append_assoc]
    exact verdict_of_first_error hsplits.right hrun

end

theorem Invariant.exists_splits {inHand : List Check}
    (hinvariant : pipeline.Invariant concurrent checks ending)
    (hworking : pipeline.consumer = .working inHand) :
    ∃ taken passed, pipeline.Accounts checks ending taken ∧
      Splits concurrent taken passed inHand := by
  cases hinvariant with
  | working hconsumer haccounts hsplits =>
    cases hconsumer.symm.trans hworking
    exact ⟨_, _, haccounts, hsplits⟩
  | succeeded hconsumer | failed hconsumer => cases hconsumer.symm.trans hworking

/-- Every move of either side keeps the invariant. -/
theorem Invariant.move (hinvariant : pipeline.Invariant concurrent checks ending)
    (hmove : Move concurrent pipeline next) : next.Invariant concurrent checks ending := by
  cases hmove with
  | read hmove => exact hinvariant.read hmove
  | take hworking hfree hqueue =>
    obtain ⟨taken, passed, ⟨hcomplete, hending⟩, hsplits⟩ := hinvariant.exists_splits hworking
    rw [hqueue] at hcomplete
    exact .working rfl ⟨by simpa using hcomplete, hending⟩ (hsplits.take hfree)
  | takeOver hworking hfree hqueue hreader =>
    obtain ⟨taken, passed, ⟨hcomplete, hending⟩, hsplits⟩ := hinvariant.exists_splits hworking
    rw [hreader] at hcomplete hending
    rw [hqueue] at hcomplete
    exact .working rfl ⟨by simpa [hqueue, Reader.upcoming] using hcomplete, hending⟩
      (hsplits.take hfree)
  | pass hworking hrun =>
    obtain ⟨taken, passed, haccounts, hsplits⟩ := hinvariant.exists_splits hworking
    exact .working rfl ⟨haccounts.complete, haccounts.ending⟩ (hsplits.pass hrun)
  | fail hworking hcheck hrun =>
    obtain ⟨taken, passed, ⟨hcomplete, -⟩, hsplits⟩ := hinvariant.exists_splits hworking
    rw [List.append_assoc] at hcomplete
    obtain ⟨hmem, hfirst⟩ := hsplits.fail hcomplete hcheck hrun
    exact .failed rfl hmem hrun hfirst
  | close hworking hqueue hreader =>
    obtain ⟨taken, passed, ⟨hcomplete, hending⟩, hsplits⟩ := hinvariant.exists_splits hworking
    -- all checks have been taken, and none of them is in hand
    rw [hqueue, hreader, Reader.upcoming, List.append_nil, List.append_nil] at hcomplete
    have hperm := hsplits.complete
    rw [List.append_nil, hcomplete] at hperm
    exact .succeeded rfl (fun check hcheck => hsplits.right check (hperm.mem_iff.mp hcheck))
      hreader hending

/-- A pipeline that results from another one by moves of both sides in any order. -/
abbrev Reaches (concurrent : Bool) : Pipeline → Pipeline → Prop :=
  Relation.ReflTransGen (Move concurrent)

theorem Invariant.reaches (hinvariant : pipeline.Invariant concurrent checks ending)
    (hreaches : Reaches concurrent pipeline next) : next.Invariant concurrent checks ending := by
  induction hreaches with
  | refl => exact hinvariant
  | tail _ hmove ih => exact ih.move hmove

/-- Letting the consumer move first is one of the orders. -/
theorem reaches_run (concurrent : Bool) (pipeline : Pipeline) :
    Reaches concurrent pipeline pipeline.run := by
  fun_induction run pipeline with
  | case1 pipeline next hconsumer ih => exact .head (move_of_consumerMove? hconsumer) ih
  | case2 pipeline _ next hreader ih => exact .head (.read hreader) ih
  | case3 => exact .refl

/-- The outcome of a pipeline that has ended: what verifying in turn yields, or, if checks are
verified concurrently, a wrong proof. -/
theorem Invariant.outcome {outcome : Except Failure Builder}
    (hinvariant : pipeline.Invariant concurrent checks ending)
    (houtcome : pipeline.outcome? = some outcome) :
    (outcome = verdict checks ending ∧ pipeline.consumer = .finished (.ok ())) ∨
      ∃ error check, pipeline.consumer = .finished (.error error) ∧
        outcome = .error (.refused error) ∧ check ∈ checks ∧ check.run = .error error ∧
        (concurrent = false → outcome = verdict checks ending) := by
  cases hinvariant with
  | working hconsumer =>
    rw [outcome?, hconsumer] at houtcome
    cases houtcome
  | succeeded hconsumer hright hreader hending =>
    rw [outcome?, hconsumer, hreader] at houtcome
    rw [hreader] at hending
    refine .inl ⟨?_, hconsumer⟩
    rw [verdict_of_forall_ok hright, ← hending]
    exact (Option.some.inj houtcome).symm
  | failed hconsumer hcheck hwrong hfirst =>
    rename_i check error
    refine .inr ⟨error, check, hconsumer, ?_⟩
    rw [outcome?, hconsumer] at houtcome
    cases hreader : pipeline.reader with
    | finished builder result =>
      rw [hreader] at houtcome
      cases houtcome
      exact ⟨rfl, hcheck, hwrong, fun hconcurrent => (hfirst hconcurrent).symm⟩
    | reading | sending =>
      rw [hreader] at houtcome
      cases houtcome

end Pipeline

theorem readInTurn_ne_disconnected (verifies : Bool) (bounds : Bounds)
    (items : List (Except Inclusion.Error Token)) :
    readInTurn verifies bounds items ≠ .error .disconnected := by
  intro hdisconnected
  rw [readInTurn] at hdisconnected
  split at hdisconnected <;> cases hdisconnected

/-- Without verification, exactly what can be read is accepted. -/
theorem exists_readInTurn_eq_ok_iff (bounds : Bounds)
    (items : List (Except Inclusion.Error Token)) :
    (∃ builder, readInTurn false bounds items = .ok builder) ↔
      ((Builder.new bounds).read acceptAll items).result = .ok () := by
  rw [readInTurn_eq_verdict, checksOf, if_neg Bool.false_ne_true,
    verdict_of_forall_ok (by simp), readerVerdict]
  cases ((Builder.new bounds).read acceptAll items).result with
  | error error => exact iff_of_false (by rintro ⟨_, ⟨⟩⟩) nofun
  | ok done => exact iff_of_true ⟨_, rfl⟩ rfl

/-- Whatever the order of moves, a pipeline can always be brought to an end. If its consumer takes
one check at a time, it ends as verifying in turn does. If the consumer works concurrently, it
succeeds exactly if verifying in turn does, with the same builder, and a wrong proof that it reports
is one of the proofs that were read. That nobody takes checks is never reported. Without
verification, exactly what can be read is accepted. -/
theorem Pipeline.outcome_agrees_readInTurn {capacity : Option Nat} {verifies concurrent : Bool}
    {bounds : Bounds} {items : List (Except Inclusion.Error Token)} {pipeline : Pipeline}
    (hreaches : Reaches concurrent (start capacity verifies (Builder.new bounds) items) pipeline) :
    (∃ last outcome, Reaches concurrent pipeline last ∧ last.outcome? = some outcome) ∧
    ∀ outcome, pipeline.outcome? = some outcome →
      (concurrent = false → outcome = readInTurn verifies bounds items) ∧
      outcome ≠ .error .disconnected ∧
      (∀ builder, outcome = .ok builder ↔ readInTurn verifies bounds items = .ok builder) ∧
      (∀ error, pipeline.consumer = .finished (.error error) →
        ∃ check ∈ ((Builder.new bounds).read acceptAll items).checks, check.run = .error error) ∧
      (pipeline.consumer = .finished (.ok ()) → outcome = readInTurn verifies bounds items) ∧
      (verifies = false →
        ((∃ builder, outcome = .ok builder) ↔
          ((Builder.new bounds).read acceptAll items).result = .ok ()) ∧
        ((∃ builder, readInTurn verifies bounds items = .ok builder) ↔
          ((Builder.new bounds).read acceptAll items).result = .ok ())) := by
  have hinvariant := (invariant_start capacity verifies (Builder.new bounds) items).reaches hreaches
  refine ⟨?_, fun outcome houtcome => ?_⟩
  · obtain ⟨outcome, houtcome⟩ := exists_outcome_run pipeline
    exact ⟨pipeline.run, outcome, reaches_run concurrent pipeline, houtcome⟩
  · have hended := hinvariant.outcome houtcome
    rw [← readInTurn_eq_verdict] at hended
    rcases hended with ⟨rfl, hconsumer⟩ | ⟨error, check, hconsumer, rfl, hmem, hwrong, hfirst⟩
    · refine ⟨fun _ => rfl, readInTurn_ne_disconnected verifies bounds items, fun _ => Iff.rfl,
        fun error herror => ?_, fun _ => rfl, ?_⟩
      · cases hconsumer.symm.trans herror
      · rintro rfl
        exact ⟨exists_readInTurn_eq_ok_iff bounds items, exists_readInTurn_eq_ok_iff bounds items⟩
    · have hverifies : verifies = true := by
        cases verifies with
        | true => rfl
        | false => cases hmem
      subst hverifies
      refine ⟨hfirst, nofun, fun builder => iff_of_false nofun ?_, fun other hother => ?_,
        fun hother => ?_, nofun⟩
      · rw [readInTurn_eq_verdict]
        exact verdict_ne_ok hmem hwrong
      · cases hconsumer.symm.trans hother
        exact ⟨check, hmem, hwrong⟩
      · cases hconsumer.symm.trans hother

/-- A theorem without proof, and then the end of a block that was never opened. -/
def unprovedTokens : List (Except Inclusion.Error Token) :=
  ["$c", "a", "$.", "th", "$p", "a", "$=", "$.", "$\x7d"].map fun word => .ok (.ofRun word.toList)

/-- The reader may meet the second fault first, but the first one is reported. -/
theorem Pipeline.outcome_agrees_unprovedTokens :
    ∃ outcome, (start (some 3) true (Builder.new ⟨none, none⟩) unprovedTokens).run.outcome? =
        some outcome ∧
      outcome = .error (.refused ⟨some ⟨.labelled .provable, some "th"⟩, .proof .emptyProof⟩) := by
  obtain ⟨outcome, houtcome⟩ :=
    exists_outcome_run (start (some 3) true (Builder.new ⟨none, none⟩) unprovedTokens)
  have hagrees := (outcome_agrees_readInTurn (reaches_run false _)).2 outcome houtcome
  exact ⟨outcome, houtcome, (hagrees.1 rfl).trans (by rfl)⟩

end Metamath.Command
