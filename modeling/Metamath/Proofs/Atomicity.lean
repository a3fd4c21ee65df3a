import Metamath.Proofs.Bookkeeping

/-!
# Calls succeed as a whole or not at all

A tactic can be refused for many reasons: its number is not that of the latest tactic state, its
text is malformed, it names no fact, a variable has no typecode, its conclusion is not the goal. All
of them are found before anything is changed, so all that a refused tactic leaves behind is the
status of the session. After that, and after the last goal is gone, a session stays as it is for
good.

An accepted tactic in turn changes no more than it has to. It adds one tactic state to the history,
and it puts its subgoals in the place of the goal on top. The goals below are left alone, although
settling the goal on top may reach far up in the tree: what it touches are goals that wait for their
subgoals, and no open goal does.

So the answers to a sequence of calls are the numbers from one on, until a call is refused or the
session is closed, and then always the same error.
-/

namespace Metamath.Search.Session

variable {session start result : Session} {facts : Facts} {plan : Plan} {id : Nat} {text : String}

/-- What an accepted tactic does to a session, given the subgoals it leaves. -/
structure Advances (session : Session) (subgoals : List Statement) (result : Session) : Prop where
  /-- the new tactic state comes after all others -/
  history : result.history = session.history.push result.render
  opened : session.goals ≠ []
  /-- the subgoals take the place of the goal on top, the last one topmost -/
  goals : result.goals = subgoalIds session.nodes subgoals ++ session.goals.tail
  size : result.nodes.size = session.nodes.size + subgoals.length
  /-- each subgoal is created for the goal that was on top -/
  created : ∀ (k : Nat) (goal : Statement), subgoals[k]? = some goal →
    result.nodes[session.nodes.size + k]? = some ⟨goal, 0, session.goals.head?, true⟩
  below : ∀ other ∈ session.goals.tail, result.nodes[other]? = session.nodes[other]?
  premises : result.premises = session.premises
  floating : result.floating = session.floating
  essential : result.essential = session.essential
  types : result.types = session.types
  status : result.status = if result.goals = [] then .closed else .active

/-- The answers to a sequence of calls. -/
def answers (session : Session) (facts : Facts) : List (Nat × String) → List (Except Error Nat)
  | [] => []
  | call :: calls =>
    (session.runTactic facts call.1 call.2).2 ::
      (session.runTactic facts call.1 call.2).1.answers facts calls

/-- How a session treats calls. -/
structure Transactional (facts : Facts) (session : Session) : Prop where
  /-- an error changes nothing but the status of a session that accepts tactics -/
  refused : ∀ id text error, (session.runTactic facts id text).2 = .error error →
    (session.runTactic facts id text).1 =
      { session with status := if session.status = .active then .failed else session.status }
  /-- after a failure all calls are refused and change nothing -/
  failed : session.status = .failed → ∀ calls, session.runTactics facts calls = session ∧
    session.answers facts calls = List.replicate calls.length (.error .sessionFailed)
  /-- so are they when no goal is left -/
  closed : session.status = .closed → ∀ calls, session.runTactics facts calls = session ∧
    session.answers facts calls = List.replicate calls.length (.error .sessionClosed)
  /-- an accepted call extends the latest tactic state and puts its subgoals in place -/
  accepted : ∀ id text next, (session.runTactic facts id text).2 = .ok next →
    session.status = .active ∧ id = session.stateId ∧ next = id + 1 ∧
      ∃ tactic typings, Tactic.parse text = .ok tactic ∧
        session.typings tactic.substitution = .ok typings ∧
        session.Advances (session.subgoals typings tactic) (session.runTactic facts id text).1

/-! ### Refused calls -/

theorem runTactics_cons (session : Session) (facts : Facts) (call : Nat × String)
    (calls : List (Nat × String)) :
    session.runTactics facts (call :: calls) =
      (session.runTactic facts call.1 call.2).1.runTactics facts calls :=
  rfl

theorem runTactic_of_failed (hstatus : session.status = .failed) (id : Nat) (text : String) :
    session.runTactic facts id text = (session, .error .sessionFailed) := by
  rw [runTactic, hstatus]

theorem runTactic_of_closed (hstatus : session.status = .closed) (id : Nat) (text : String) :
    session.runTactic facts id text = (session, .error .sessionClosed) := by
  rw [runTactic, hstatus]

theorem runTactic_of_plan_error {error : Error} (hstatus : session.status = .active)
    (hplan : session.plan facts id text = .error error) :
    session.runTactic facts id text = ({ session with status := .failed }, .error error) := by
  rw [runTactic, hstatus, hplan]

theorem runTactic_of_plan_ok (hstatus : session.status = .active)
    (hplan : session.plan facts id text = .ok plan) :
    session.runTactic facts id text =
      (session.execute plan, .ok (session.execute plan).stateId) := by
  rw [runTactic, hstatus, hplan]

theorem runTactic_of_error {error : Error}
    (herror : (session.runTactic facts id text).2 = .error error) :
    (session.runTactic facts id text).1 =
      { session with status := if session.status = .active then .failed else session.status } := by
  cases hstatus : session.status with
  | failed =>
    rw [runTactic_of_failed hstatus, if_neg (by decide), ← hstatus]
  | closed =>
    rw [runTactic_of_closed hstatus, if_neg (by decide), ← hstatus]
  | active =>
    rw [if_pos rfl]
    cases hplan : session.plan facts id text with
    | error found => rw [runTactic_of_plan_error hstatus hplan]
    | ok plan =>
      rw [runTactic_of_plan_ok hstatus hplan] at herror
      cases herror

/-- A session that does not change when it is called answers all calls in the same way. -/
theorem runTactics_of_forall_eq {error : Error}
    (hstays : ∀ id text, session.runTactic facts id text = (session, .error error))
    (calls : List (Nat × String)) :
    session.runTactics facts calls = session ∧
      session.answers facts calls = List.replicate calls.length (.error error) := by
  induction calls with
  | nil => exact ⟨rfl, rfl⟩
  | cons call calls ih =>
    rw [runTactics_cons, answers, hstays]
    exact ⟨ih.1, congrArg (_ :: ·) ih.2⟩

/-! ### Accepted calls -/

theorem exists_plan_of_ok {next : Nat} (hok : (session.runTactic facts id text).2 = .ok next) :
    session.status = .active ∧ ∃ plan, session.plan facts id text = .ok plan := by
  cases hstatus : session.status with
  | failed =>
    rw [runTactic_of_failed hstatus] at hok
    cases hok
  | closed =>
    rw [runTactic_of_closed hstatus] at hok
    cases hok
  | active =>
    cases hplan : session.plan facts id text with
    | error error =>
      rw [runTactic_of_plan_error hstatus hplan] at hok
      cases hok
    | ok plan => exact ⟨rfl, plan, rfl⟩

theorem eq_stateId_of_plan (hplan : session.plan facts id text = .ok plan) :
    id = session.stateId := by
  rw [Session.plan] at hplan
  split_ifs at hplan with hunknown hstale
  exact Nat.le_antisymm (Nat.not_lt.mp hunknown) (Nat.not_lt.mp hstale)

/-- Settling touches only goals that wait for a subgoal. -/
theorem Climbs.getElem?_of_pending_eq_zero (hclimbs : Climbs session id result) {other : Nat}
    {node : Node} (hnode : session.nodes[other]? = some node) (hpending : node.pending = 0) :
    result.nodes[other]? = some node := by
  have hreport : ∀ {session : Session} {parent : Nat} {above settled : Node},
      session.nodes[parent]? = some above → 0 < above.pending →
      session.nodes[other]? = some node →
      (session.report settled parent).nodes[other]? = some node := by
    intro session parent above settled habove hpositive hother
    have hne : parent ≠ other := by
      rintro rfl
      cases habove.symm.trans hother
      omega
    rw [report, Array.getElem?_modify, if_neg hne, hother]
  induction hclimbs with
  | root => exact hnode
  | waits _ _ habove hmore => exact hreport habove (by omega) hnode
  | climbs _ _ habove hone _ ih => exact ih (hreport habove (by omega) hnode)

/-- The open goals below the one on top stay as they are. -/
theorem getElem?_advance_of_mem_tail {tail : List Nat} {node : Node} {other : Nat}
    (hgoals : session.goals = plan.target :: tail)
    (hnode : session.nodes[plan.target]? = some node)
    (htree : Consistent session.nodes session.goals) (hother : other ∈ tail) :
    (session.advance plan).nodes[other]? = session.nodes[other]? := by
  obtain ⟨hnotmem, -⟩ := List.nodup_cons.mp (hgoals ▸ htree.nodup)
  obtain ⟨found, hfound, hpending⟩ :=
    htree.agenda_pending other (hgoals ▸ List.mem_cons_of_mem _ hother)
  have hne : other ≠ plan.target := fun heq => hnotmem (heq ▸ hother)
  have hexpand : (session.expand plan).nodes[other]? = some found :=
    (getElem?_expandNodes_eq_some_iff hnode).mpr (.inr (.inl ⟨hne, hfound⟩))
  rw [hfound]
  by_cases hsubgoals : plan.subgoals = []
  · exact (advance_climbs hgoals hnode htree hsubgoals).getElem?_of_pending_eq_zero hexpand hpending
  · rwa [advance, if_neg (mt List.isEmpty_iff.mp hsubgoals)]

theorem getElem?_advance_of_subgoal {node : Node} {k : Nat} {goal : Statement}
    (hnode : session.nodes[plan.target]? = some node) (hgoal : plan.subgoals[k]? = some goal) :
    (session.advance plan).nodes[session.nodes.size + k]? =
      some ⟨goal, 0, some plan.target, true⟩ := by
  have hsubgoals : ¬ plan.subgoals.isEmpty := by
    intro hempty
    rw [List.isEmpty_iff.mp hempty] at hgoal
    cases hgoal
  rw [advance, if_neg hsubgoals]
  refine (getElem?_expandNodes_eq_some_iff hnode).mpr (.inr (.inr ⟨goal, Nat.le_add_right _ _, ?_,
    rfl⟩))
  rwa [Nat.add_sub_cancel_left]

/-- Executing a plan does to a session what an accepted tactic should do. -/
theorem advances_execute (htree : Consistent session.nodes session.goals)
    (hactive : session.status = .active) (hplan : session.plan facts id text = .ok plan) :
    session.Advances plan.subgoals (session.execute plan) := by
  obtain ⟨-, node, tail, -, hgoals, hnode, -⟩ := exists_tactic_of_plan hplan
  have hsettles := advance_settles hgoals hnode htree
  -- settling changes nothing but nodes and proved goals
  have hframe := hsettles.frame
  rw [Session.execute, present]
  refine
    { history := congrArg (·.push (session.advance plan).render) (congrArg Session.history hframe)
      opened := hgoals ▸ List.cons_ne_nil _ _
      goals := hsettles.goals_eq
      size := ?_
      created := fun k goal hgoal => ?_
      below := fun other hother => ?_
      premises := (congrArg Session.premises hframe :)
      floating := (congrArg Session.floating hframe :)
      essential := (congrArg Session.essential hframe :)
      types := (congrArg Session.types hframe :)
      status := ?_ }
  · rw [size_eq_of_place hsettles.place, expand, expandNodes]
    simp
  · rw [hgoals, List.head?_cons]
    exact getElem?_advance_of_subgoal hnode hgoal
  · rw [hgoals, List.tail_cons] at hother
    exact getElem?_advance_of_mem_tail hgoals hnode htree hother
  · have hstatus : (session.advance plan).status = .active := hsettles.status_eq.trans hactive
    rw [hstatus]
    simp only [List.isEmpty_iff]

theorem Advances.stateId_eq {subgoals : List Statement}
    (hadvances : session.Advances subgoals result) (hhistory : 0 < session.history.size) :
    result.stateId = session.stateId + 1 := by
  rw [stateId, hadvances.history, Array.size_push, stateId]
  omega

theorem transactional_of_consistent (htree : Consistent session.nodes session.goals)
    (hhistory : 0 < session.history.size) : session.Transactional facts where
  refused _ _ _ := runTactic_of_error
  failed hstatus := runTactics_of_forall_eq (runTactic_of_failed hstatus)
  closed hstatus := runTactics_of_forall_eq (runTactic_of_closed hstatus)
  accepted := by
    intro id text next hok
    obtain ⟨hactive, plan, hplan⟩ := exists_plan_of_ok hok
    rw [runTactic_of_plan_ok hactive hplan] at hok ⊢
    cases hok
    have hadvances := advances_execute htree hactive hplan
    have hid := eq_stateId_of_plan hplan
    obtain ⟨tactic, _, _, _, hparse, -, -, hplanned⟩ := exists_planFor_of_plan hplan
    obtain ⟨-, -, typings, htypings, rfl⟩ := planFor_eq_ok_iff.mp hplanned
    refine ⟨hactive, hid, ?_, tactic, typings, hparse, htypings, hadvances⟩
    rw [hid]
    exact hadvances.stateId_eq hhistory

/-! ### Runs -/

/-- A session starts with the conclusion as its only goal, and with one tactic state. -/
theorem exists_root_of_init {database : Database} {label : Symbol}
    (hinit : init database label = .ok start) :
    ∃ assertion, (database.labels.get? label).bind Entry.assertion? = some assertion ∧
      start.status = .active ∧ start.history.size = 1 ∧ start.goals = [0] ∧
      start.nodes = #[⟨assertion.conclusion, 0, none, true⟩] ∧ start.proved = ∅ ∧
      start.types = typesOf (database.labels.before label) := by
  rw [init] at hinit
  split at hinit
  · cases hinit
  · next assertion hassertion =>
    cases hinit
    exact ⟨assertion, hassertion, rfl, rfl, rfl, rfl, rfl, rfl⟩

/-- How the answers of a run end, by the status of the session at its end. -/
inductive Dismissed : Status → List (Except Error Nat) → Prop where
  | active : Dismissed .active []
  | closed (count : Nat) : Dismissed .closed (List.replicate count (.error .sessionClosed))
  | failed (error : Error) (count : Nat) :
      Dismissed .failed (.error error :: List.replicate count (.error .sessionFailed))

/-- The answers to a run: first the numbers of new tactic states, given to calls that name the state
before, and then errors only. -/
def Answered (session : Session) (facts : Facts) (calls : List (Nat × String)) : Prop :=
  ∃ (count : Nat) (ending : List (Except Error Nat)),
    session.answers facts calls =
      (List.range' (session.stateId + 1) count).map .ok ++ ending ∧
    (calls.take count).map Prod.fst = List.range' session.stateId count ∧
    (session.runTactics facts calls).stateId = session.stateId + count ∧
    Dismissed (session.runTactics facts calls).status ending

theorem answered_nil (hstatus : session.status = .active) : session.Answered facts [] := by
  refine ⟨0, [], rfl, rfl, rfl, ?_⟩
  rw [runTactics, List.foldl_nil, hstatus]
  exact .active

theorem answered_of_closed (hstatus : session.status = .closed) (calls : List (Nat × String)) :
    session.Answered facts calls := by
  obtain ⟨hsame, hanswers⟩ := runTactics_of_forall_eq (runTactic_of_closed hstatus) calls
  refine ⟨0, _, hanswers, rfl, ?_, ?_⟩
  · rw [hsame, Nat.add_zero]
  · rw [hsame, hstatus]
    exact .closed calls.length

theorem answered_of_refusal {error : Error} {call : Nat × String}
    (hstatus : session.status = .active)
    (hplan : session.plan facts call.1 call.2 = .error error) (calls : List (Nat × String)) :
    session.Answered facts (call :: calls) := by
  obtain ⟨hsame, hanswers⟩ := runTactics_of_forall_eq
    (@runTactic_of_failed { session with status := .failed } facts rfl) calls
  refine ⟨0, .error error :: List.replicate calls.length (.error .sessionFailed), ?_, rfl, ?_, ?_⟩
  · rw [answers, runTactic_of_plan_error hstatus hplan, hanswers]
    rfl
  · rw [runTactics_cons, runTactic_of_plan_error hstatus hplan, hsame]
    rfl
  · rw [runTactics_cons, runTactic_of_plan_error hstatus hplan, hsame]
    exact .failed error calls.length

/-- An accepted call comes before the answers to the calls after it. -/
theorem Answered.cons {call : Nat × String} {calls : List (Nat × String)}
    (hid : call.1 = session.stateId) (hnext : result.stateId = session.stateId + 1)
    (hcall : session.runTactic facts call.1 call.2 = (result, .ok result.stateId))
    (hrest : result.Answered facts calls) : session.Answered facts (call :: calls) := by
  obtain ⟨count, ending, hanswers, hids, hstate, hdismissed⟩ := hrest
  rw [hnext] at hanswers hids hstate
  refine ⟨count + 1, ending, ?_, ?_, ?_, ?_⟩
  · rw [answers, hcall, hanswers, hnext, List.range'_succ]
    rfl
  · rw [List.take_succ_cons, List.map_cons, hids, hid, List.range'_succ]
  · rw [runTactics_cons, hcall, hstate]
    omega
  · rw [runTactics_cons, hcall]
    exact hdismissed

theorem Balanced.answered {processed : List Nat} (hbalanced : session.Balanced processed)
    (hhistory : 0 < session.history.size) (hactive : session.status = .active)
    (calls : List (Nat × String)) : session.Answered facts calls := by
  induction calls generalizing session processed with
  | nil => exact answered_nil hactive
  | cons call calls ih =>
    cases hplan : session.plan facts call.1 call.2 with
    | error error => exact answered_of_refusal hactive hplan calls
    | ok plan =>
      have hadvances := advances_execute hbalanced.tallied.tree hactive hplan
      refine .cons (eq_stateId_of_plan hplan) (hadvances.stateId_eq hhistory)
        (runTactic_of_plan_ok hactive hplan) ?_
      have hlater : 0 < (session.execute plan).history.size := by
        rw [hadvances.history, Array.size_push]
        exact Nat.succ_pos _
      have hstatus := hadvances.status
      split at hstatus
      · exact answered_of_closed hstatus calls
      · exact ih (hbalanced.execute hactive hplan) hlater hstatus

/-- There always is a tactic state. -/
theorem Balanced.size_history_pos {processed : List Nat} (hbalanced : session.Balanced processed)
    (hhistory : 0 < session.history.size) (calls : List (Nat × String)) :
    0 < (session.runTactics facts calls).history.size := by
  induction calls generalizing session processed with
  | nil => exact hhistory
  | cons call calls ih =>
    rw [runTactics_cons]
    refine ih (hbalanced.runTactic call.1 call.2) ?_
    cases hanswer : (session.runTactic facts call.1 call.2).2 with
    | error error =>
      rw [runTactic_of_error hanswer]
      exact hhistory
    | ok next =>
      obtain ⟨-, -, -, _, _, -, -, hadvances⟩ :=
        (transactional_of_consistent hbalanced.tallied.tree hhistory).accepted _ _ _ hanswer
      rw [hadvances.history, Array.size_push]
      exact Nat.succ_pos _

/-- At every moment of a session, a call that is answered with an error leaves everything as it was;
only a session that accepts tactics has failed then. A session that has failed refuses all later
calls for that reason, and a closed one for having no goals, and both stay as they are. A call is
accepted only if it names the latest tactic state. The answer is the next number; the new tactic
state is added to the history, and the subgoals of the tactic take the place of the goal on top,
while the goals below it stay as they are. So a run is answered by the numbers from one on, as long
as calls are accepted, and after that by errors. -/
theorem calls_atomic {database : Database} {label : Symbol}
    (hinit : init database label = .ok start) (facts : Facts) (calls : List (Nat × String)) :
    (start.runTactics facts calls).Transactional facts ∧ start.Answered facts calls := by
  have hbalanced := balanced_init hinit
  obtain ⟨-, -, hactive, hsize, -⟩ := exists_root_of_init hinit
  have hhistory : 0 < start.history.size := hsize ▸ Nat.one_pos
  constructor
  · exact transactional_of_consistent (hbalanced.runTactics calls).tallied.tree
      (hbalanced.size_history_pos hhistory calls)
  · exact hbalanced.answered hhistory hactive calls

/-- After two accepted tactics, a call names the first tactic state again. -/
def staleCall : List (Nat × String) :=
  deferTwice.take 2 ++ [(0, "[[ ]] |- T"), (2, "[[ ]] |- T")]

theorem calls_atomic_staleCall : ∃ start : Session,
    init reflexivity "th" = .ok start ∧
    start.answers reflexivity.facts staleCall =
      [.ok 1, .ok 2, .error (.staleState 0), .error .sessionFailed] ∧
    (start.runTactics reflexivity.facts (staleCall.take 2)).Transactional reflexivity.facts ∧
    (start.runTactics reflexivity.facts staleCall).Transactional reflexivity.facts ∧
    start.Answered reflexivity.facts staleCall := by
  obtain ⟨start, hinit, hanswers⟩ : ∃ start : Session, init reflexivity "th" = .ok start ∧
      start.answers reflexivity.facts staleCall =
        [.ok 1, .ok 2, .error (.staleState 0), .error .sessionFailed] :=
    ⟨_, rfl, by decide +kernel⟩
  obtain ⟨hearlier, -⟩ := calls_atomic hinit reflexivity.facts (staleCall.take 2)
  obtain ⟨hlater, hanswered⟩ := calls_atomic hinit reflexivity.facts staleCall
  exact ⟨start, hinit, hanswers, hearlier, hlater, hanswered⟩

end Metamath.Search.Session
