import Metamath.Database.Reading

/-!
# Verifying while reading

A reader reads a database and hands every check to a consumer, which verifies it. Checks wait for
the consumer in the order in which they were read, and at most as many of them as the capacity
allows; with capacity zero, the reader hands over each check in person. The consumer ends with a
wrong proof, and then the reader can hand over nothing any more and ends, too.

A consumer takes one check at a time, or, if it works concurrently, takes further checks while it
still has some in hand, and finishes them in any order. Of several wrong proofs in hand, any one may
then be the one that is reported.

Both sides are part of one state. `Pipeline.Move` says which moves there are, in whichever order the
two sides make them, and `Pipeline.run` lets the consumer move first. A wrong proof is reported
rather than the reader's own complaint, because the latter may only say that nobody takes checks any
more.
-/

namespace Metamath.Command

open Database (Builder Check Reading)

/-- Why no database comes about. -/
inductive Failure where
  | refused (error : Database.Error)
  /-- the consumer of checks ended before the reader -/
  | disconnected

def Failure.message : Failure → String
  | refused error => error.message
  | disconnected => "verification channel disconnected"

inductive Reader where
  | reading (reading : Reading) (items : List (Except Inclusion.Error Token))
  /-- the reader wants to hand over a check and then go on -/
  | sending (check : Check) (reading : Reading) (items : List (Except Inclusion.Error Token))
  | finished (builder : Builder) (result : Except Failure Unit)

inductive Consumer where
  /-- the checks in hand were taken, but are not verified yet -/
  | working (inHand : List Check)
  | finished (result : Except Database.Error Unit)

/-- A reader, a consumer, and the checks on their way from the one to the other. -/
structure Pipeline where
  /-- how many checks may be on their way; arbitrarily many if there is no number -/
  capacity : Option Nat
  /-- whether checks are handed over at all -/
  verifies : Bool
  reader : Reader
  /-- the checks that wait, the earliest one first -/
  queue : List Check
  consumer : Consumer

namespace Pipeline

def start (capacity : Option Nat) (verifies : Bool) (builder : Builder)
    (items : List (Except Inclusion.Error Token)) : Pipeline :=
  ⟨capacity, verifies, .reading (.start builder) items, [], .working []⟩

def hasRoom (pipeline : Pipeline) : Bool :=
  match pipeline.capacity with
  | none => true
  | some capacity => pipeline.queue.length < capacity

/-- What the reader does after the next token. -/
def readOn (verifies : Bool) (reading : Reading) :
    List (Except Inclusion.Error Token) → Reader
  | [] => .finished reading.finish.1 (reading.finish.2.mapError .refused)
  | item :: rest =>
    if reading.builder.stopped then
      .finished reading.finish.1 (reading.finish.2.mapError .refused)
    else
      match item with
      | .error error =>
        .finished reading.builder
          (.error (.refused ⟨reading.phase.place?, .inclusion error⟩))
      | .ok token =>
        match reading.feed token with
        | .refused error builder => .finished builder (.error (.refused error))
        | .more next => .reading next rest
        | .check check next => if verifies then .sending check next rest else .reading next rest

/-- The reader's move, unless it has ended or has to wait for room. -/
def readerMove? (pipeline : Pipeline) : Option Pipeline :=
  match pipeline.reader with
  | .finished _ _ => none
  | .reading reading items =>
    some { pipeline with reader := readOn pipeline.verifies reading items }
  | .sending check reading items =>
    match pipeline.consumer with
    | .finished _ =>
      some { pipeline with reader := .finished reading.builder (.error .disconnected) }
    | .working _ =>
      if pipeline.hasRoom then
        some { pipeline with
          reader := .reading reading items
          queue := pipeline.queue ++ [check] }
      else none

/-- What the consumer does after verifying a check, with the given checks still in hand. -/
def conclude (check : Check) (inHand : List Check) : Consumer :=
  match check.run with
  | .ok () => .working inHand
  | .error error => .finished (.error error)

/-- The consumer's move, unless it has ended or has to wait for a check. A check in hand comes
first. If no check is on its way, the consumer takes the one that the reader wants to hand over. -/
def consumerMove? (pipeline : Pipeline) : Option Pipeline :=
  match pipeline.consumer, pipeline.queue, pipeline.reader with
  | .finished _, _, _ => none
  | .working (check :: inHand), _, _ => some { pipeline with consumer := conclude check inHand }
  | .working [], check :: queue, _ => some { pipeline with queue, consumer := .working [check] }
  | .working [], [], .sending check reading items =>
    some { pipeline with reader := .reading reading items, consumer := .working [check] }
  | .working [], [], .finished _ _ => some { pipeline with consumer := .finished (.ok ()) }
  | .working [], [], .reading _ _ => none

/-- The moves of both sides. A consumer that works concurrently may take a check at any time. -/
inductive Move (concurrent : Bool) (pipeline : Pipeline) : Pipeline → Prop where
  | read {next : Pipeline} (hmove : pipeline.readerMove? = some next) :
      Move concurrent pipeline next
  /-- the consumer takes the earliest check that waits -/
  | take {inHand queue : List Check} {check : Check}
      (hconsumer : pipeline.consumer = .working inHand) (hfree : concurrent ∨ inHand = [])
      (hqueue : pipeline.queue = check :: queue) :
      Move concurrent pipeline { pipeline with queue, consumer := .working (inHand ++ [check]) }
  /-- the consumer takes the check that the reader wants to hand over -/
  | takeOver {inHand : List Check} {check : Check} {reading : Reading}
      {items : List (Except Inclusion.Error Token)}
      (hconsumer : pipeline.consumer = .working inHand) (hfree : concurrent ∨ inHand = [])
      (hqueue : pipeline.queue = []) (hreader : pipeline.reader = .sending check reading items) :
      Move concurrent pipeline { pipeline with
        reader := .reading reading items
        consumer := .working (inHand ++ [check]) }
  /-- a check in hand turns out to be right -/
  | pass {before after : List Check} {check : Check}
      (hconsumer : pipeline.consumer = .working (before ++ check :: after))
      (hrun : check.run = .ok ()) :
      Move concurrent pipeline { pipeline with consumer := .working (before ++ after) }
  /-- a check in hand turns out to be wrong -/
  | fail {inHand : List Check} {check : Check} {error : Database.Error}
      (hconsumer : pipeline.consumer = .working inHand) (hcheck : check ∈ inHand)
      (hrun : check.run = .error error) :
      Move concurrent pipeline { pipeline with consumer := .finished (.error error) }
  /-- the reader has ended, and there is nothing left to verify -/
  | close {builder : Builder} {result : Except Failure Unit}
      (hconsumer : pipeline.consumer = .working []) (hqueue : pipeline.queue = [])
      (hreader : pipeline.reader = .finished builder result) :
      Move concurrent pipeline { pipeline with consumer := .finished (.ok ()) }

/-- The consumer's move is one that a consumer can make, be it concurrent or not. -/
theorem move_of_consumerMove? {concurrent : Bool} {pipeline next : Pipeline}
    (hmove : pipeline.consumerMove? = some next) : Move concurrent pipeline next := by
  unfold consumerMove? at hmove
  split at hmove
  · cases hmove
  · rename_i check inHand hconsumer
    have hfirst : pipeline.consumer = .working ([] ++ check :: inHand) := hconsumer
    cases hmove
    unfold conclude
    split
    · exact .pass hfirst ‹_›
    · exact .fail hconsumer List.mem_cons_self ‹_›
  · rename_i check queue hconsumer hqueue
    cases hmove
    exact .take hconsumer (.inr rfl) hqueue
  · rename_i check reading items hconsumer hqueue hreader
    cases hmove
    exact .takeOver hconsumer (.inr rfl) hqueue hreader
  · cases hmove
    exact .close ‹_› ‹_› ‹_›
  · cases hmove

/-- A bound on the number of moves the reader can still cause. -/
def readerWeight : Reader → Nat
  | .reading _ items => 4 * items.length + 1
  | .sending _ _ items => 4 * items.length + 4
  | .finished _ _ => 0

/-- A bound on the number of moves the consumer can make without further checks. -/
def consumerWeight : Consumer → Nat
  | .working inHand => inHand.length + 1
  | .finished _ => 0

/-- A bound on the number of moves that are left. -/
def weight (pipeline : Pipeline) : Nat :=
  readerWeight pipeline.reader + 2 * pipeline.queue.length + consumerWeight pipeline.consumer

theorem readerWeight_readOn_lt (verifies : Bool) (reading : Reading)
    (items : List (Except Inclusion.Error Token)) :
    readerWeight (readOn verifies reading items) < 4 * items.length + 1 := by
  unfold readOn
  split
  · exact Nat.succ_pos _
  · split
    · exact Nat.succ_pos _
    · split
      · exact Nat.succ_pos _
      · split
        · exact Nat.succ_pos _
        · simp only [readerWeight, List.length_cons]
          omega
        · split <;> simp only [readerWeight, List.length_cons] <;> omega

theorem weight_readerMove?_lt {pipeline next : Pipeline}
    (hmove : pipeline.readerMove? = some next) : next.weight < pipeline.weight := by
  unfold readerMove? at hmove
  split at hmove
  · cases hmove
  · rename_i reading items hreader
    cases hmove
    have hless := readerWeight_readOn_lt pipeline.verifies reading items
    simp only [weight, hreader, readerWeight] at hless ⊢
    omega
  · rename_i check reading items hreader
    split at hmove
    · cases hmove
      simp only [weight, hreader, readerWeight]
      omega
    · split at hmove
      · cases hmove
        simp only [weight, hreader, readerWeight, List.length_append, List.length_cons,
          List.length_nil]
        omega
      · cases hmove

/-- Every move comes closer to the end, so no pipeline can move on and on. -/
theorem Move.weight_lt {concurrent : Bool} {pipeline next : Pipeline}
    (hmove : Move concurrent pipeline next) : next.weight < pipeline.weight := by
  cases hmove with
  | read hmove => exact weight_readerMove?_lt hmove
  | take hconsumer _ hqueue =>
    simp only [weight, hconsumer, hqueue, consumerWeight, List.length_append, List.length_cons,
      List.length_nil]
    omega
  | takeOver hconsumer _ _ hreader =>
    simp only [weight, hconsumer, hreader, consumerWeight, readerWeight, List.length_append,
      List.length_cons, List.length_nil]
    omega
  | pass hconsumer _ =>
    simp only [weight, hconsumer, consumerWeight, List.length_append, List.length_cons]
    omega
  | fail hconsumer _ _ | close hconsumer _ _ =>
    simp only [weight, hconsumer, consumerWeight]
    omega

/-- Make moves, the consumer's first, until neither side has one. -/
def run (pipeline : Pipeline) : Pipeline :=
  match _hconsumer : pipeline.consumerMove? with
  | some next => next.run
  | none =>
    match _hreader : pipeline.readerMove? with
    | some next => next.run
    | none => pipeline
termination_by pipeline.weight
decreasing_by
  · exact (move_of_consumerMove? _hconsumer : Move false _ _).weight_lt
  · exact weight_readerMove?_lt _hreader

/-- The outcome when both sides have ended: a wrong proof, or else how reading ended. -/
def outcome? (pipeline : Pipeline) : Option (Except Failure Builder) :=
  match pipeline.consumer, pipeline.reader with
  | .finished (.error error), .finished _ _ => some (.error (.refused error))
  | .finished (.ok ()), .finished builder result => some (result.map fun _ => builder)
  | _, _ => none

/-- A pipeline in which neither side has a move has ended on both sides. -/
theorem exists_outcome_of_stuck {pipeline : Pipeline} (hconsumer : pipeline.consumerMove? = none)
    (hreader : pipeline.readerMove? = none) : ∃ outcome, pipeline.outcome? = some outcome := by
  obtain ⟨capacity, verifies, reader, queue, consumer⟩ := pipeline
  cases consumer with
  | working inHand =>
    cases inHand <;> cases queue <;> cases reader <;> simp_all [consumerMove?, readerMove?]
  | finished result =>
    cases reader with
    | finished builder ended =>
      cases result with
      | ok => exact ⟨_, rfl⟩
      | error error => exact ⟨_, rfl⟩
    | reading | sending => simp [readerMove?] at hreader

theorem exists_outcome_run (pipeline : Pipeline) :
    ∃ outcome, pipeline.run.outcome? = some outcome := by
  fun_induction run pipeline with
  | case1 _ _ _ ih | case2 _ _ _ _ ih => exact ih
  | case3 pipeline hconsumer hreader => exact exists_outcome_of_stuck hconsumer hreader

end Pipeline

end Metamath.Command
