import Mathlib.Data.Set.Card
import Metamath.Proofs.SearchSoundness

/-!
# The bookkeeping of a session

A session decides from counters when a goal is settled: a goal that gets subgoals counts them, and
each subgoal that is settled takes one off the count of the goal above it. Whether a goal *is*
settled is a different matter. It is if a tactic has replaced it and all goals that were created
for it are settled. Here it is shown that the counters tell the truth, whatever tactics were tried.

Which goals have been replaced is not recorded in a session, but it can be read off the tactics.
What is left is the list of open goals, and this is what ties counters and tree together: a goal
that waits for a subgoal waits, some way down, for an open goal.

From this follows that settling is safe. It climbs from goal to goal, and on the way every number is
that of a goal and every count it lowers is positive; it stops at a goal that waits for another
subgoal or at the goal that the session started with.
-/

namespace Metamath.Search

/-- The goals that were created for a goal. -/
def children (nodes : Array Node) (id : Nat) : Set Nat :=
  {child | ∃ node : Node, nodes[child]? = some node ∧ node.parent = some id}

/-- A goal is settled if it has been replaced and all goals that were created for it are settled.
This does not mention the counts. -/
inductive Settled (nodes : Array Node) (replaced : List Nat) : Nat → Prop where
  | intro {id : Nat} : id ∈ replaced →
      (∀ child ∈ children nodes id, Settled nodes replaced child) → Settled nodes replaced id

/-! ### Counts and settled goals -/

/-- The goals form a tree whose root is the first one, and the open goals are those that have not
been replaced. -/
structure Tallied (nodes : Array Node) (goals replaced : List Nat) : Prop where
  tree : Consistent nodes goals
  open_iff : ∀ id, id ∈ goals ↔ id < nodes.size ∧ id ∉ replaced
  replaced_lt : ∀ id ∈ replaced, id < nodes.size
  replaced_nodup : replaced.Nodup
  nonempty : 0 < nodes.size
  root_iff : ∀ (id : Nat) (node : Node), nodes[id]? = some node → (node.parent = none ↔ id = 0)

section

variable {nodes : Array Node} {goals replaced : List Nat} {id : Nat} {node : Node}

theorem lt_of_mem_children (htree : Consistent nodes goals) {child : Nat}
    (hchild : child ∈ children nodes id) : id < child ∧ child < nodes.size := by
  obtain ⟨node, hnode, hparent⟩ := hchild
  exact ⟨htree.parent_lt child node id hnode hparent, (Array.getElem?_eq_some_iff.mp hnode).1⟩

/-- A goal that waits is open or waits for one of the goals that were created for it. -/
theorem exists_waiting_child (htree : Consistent nodes goals) (hwaiting : Waiting nodes goals id)
    (hid : id ∉ goals) : ∃ child ∈ children nodes id, Waiting nodes goals child := by
  obtain ⟨node, hnode, hpositive⟩ := hwaiting.resolve_left hid
  obtain ⟨waiting, hmem, hcard⟩ := htree.pending_eq id node hnode
  rw [← hcard, Finset.card_pos] at hpositive
  obtain ⟨child, hchild⟩ := hpositive
  exact ⟨child, (hmem child).mp hchild⟩

/-- A goal that does not wait has no child that does. -/
theorem not_waiting_child (htree : Consistent nodes goals) (hid : id < nodes.size)
    (hwaiting : ¬ Waiting nodes goals id) {child : Nat} (hchild : child ∈ children nodes id) :
    ¬ Waiting nodes goals child := by
  have hnode : nodes[id]? = some nodes[id] := Array.getElem?_eq_getElem hid
  have hpending : nodes[id].pending = 0 := by
    by_contra hpositive
    exact hwaiting (.inr ⟨nodes[id], hnode, Nat.pos_of_ne_zero hpositive⟩)
  exact fun hchildWaiting => htree.not_waitsFor hnode hpending child ⟨hchild, hchildWaiting⟩

/-- Numbers grow from a goal to the goals that were created for it, so what they hand on to it
holds of all goals. -/
theorem Consistent.induction_from_children (htree : Consistent nodes goals) {P : Nat → Prop}
    (hstep : ∀ id < nodes.size, (∀ child ∈ children nodes id, P child) → P id) :
    ∀ id < nodes.size, P id := by
  intro id hid
  induction hheight : nodes.size - id using Nat.strong_induction_on generalizing id with
  | _ height ih =>
    refine hstep id hid fun child hchild => ?_
    obtain ⟨hlt, hsize⟩ := lt_of_mem_children htree hchild
    exact ih (nodes.size - child) (by omega) child hsize rfl

namespace Tallied

variable (htallied : Tallied nodes goals replaced)
include htallied

theorem settled_iff_not_waiting (hid : id < nodes.size) :
    Settled nodes replaced id ↔ ¬ Waiting nodes goals id := by
  refine ⟨fun hsettled => ?_, fun hwaiting => ?_⟩
  · clear hid
    induction hsettled with
    | intro hreplaced _ ih =>
      intro hwaiting
      obtain ⟨child, hchild, hchildWaiting⟩ := exists_waiting_child htallied.tree hwaiting
        fun hopen => ((htallied.open_iff _).mp hopen).2 hreplaced
      exact ih child hchild hchildWaiting
  · revert hwaiting
    refine htallied.tree.induction_from_children (P := fun id => ¬ Waiting nodes goals id →
      Settled nodes replaced id) (fun id hid ih hwaiting => ?_) id hid
    have hreplaced : id ∈ replaced := by
      by_contra hnot
      exact hwaiting (.inl ((htallied.open_iff id).mpr ⟨hid, hnot⟩))
    exact .intro hreplaced fun child hchild =>
      ih child hchild (not_waiting_child htallied.tree hid hwaiting hchild)

/-- The count of a goal is the number of its children that are not settled. -/
theorem encard_unsettled (hnode : nodes[id]? = some node) :
    {child ∈ children nodes id | ¬ Settled nodes replaced child}.encard = node.pending := by
  obtain ⟨waiting, hmem, hcard⟩ := htallied.tree.pending_eq id node hnode
  have hset : {child ∈ children nodes id | ¬ Settled nodes replaced child} = ↑waiting := by
    ext child
    rw [Finset.mem_coe, hmem, WaitsFor]
    refine and_congr_right fun hchild => ?_
    rw [htallied.settled_iff_not_waiting (lt_of_mem_children htallied.tree hchild).2, not_not]
  rw [hset, Set.encard_coe_eq_coe_finsetCard, hcard]

theorem settled_iff_pending_eq_zero (hreplaced : id ∈ replaced) (hnode : nodes[id]? = some node) :
    Settled nodes replaced id ↔ node.pending = 0 := by
  rw [htallied.settled_iff_not_waiting (htallied.replaced_lt id hreplaced), Waiting, not_or]
  have hopen : id ∉ goals := fun hmem => ((htallied.open_iff id).mp hmem).2 hreplaced
  simp [hopen, hnode]

/-- Every goal was created for another one, except for the first. So they are all settled if the
first one is. -/
theorem settled_of_root (hroot : Settled nodes replaced 0) (hid : id < nodes.size) :
    Settled nodes replaced id := by
  induction id using Nat.strong_induction_on with
  | _ id ih =>
    by_cases hzero : id = 0
    · exact hzero ▸ hroot
    · have hnode : nodes[id]? = some nodes[id] := Array.getElem?_eq_getElem hid
      obtain ⟨above, habove⟩ := Option.ne_none_iff_exists'.mp
        (mt (htallied.root_iff id nodes[id] hnode).mp hzero)
      have hlt := htallied.tree.parent_lt id nodes[id] above hnode habove
      cases ih above hlt (hlt.trans hid) with
      | intro _ hchildren => exact hchildren id ⟨nodes[id], hnode, habove⟩

theorem root_settled_iff : Settled nodes replaced 0 ↔ goals = [] := by
  refine ⟨fun hroot => List.eq_nil_iff_forall_not_mem.mpr fun id hopen => ?_, fun hgoals => ?_⟩
  · have hid := ((htallied.open_iff id).mp hopen).1
    exact (htallied.settled_iff_not_waiting hid).mp (htallied.settled_of_root hroot hid)
      (.inl hopen)
  · refine htallied.tree.induction_from_children (fun id hid hchildren => .intro ?_ hchildren) 0
      htallied.nonempty
    by_contra hreplaced
    have hopen := (htallied.open_iff id).mpr ⟨hid, hreplaced⟩
    rw [hgoals] at hopen
    cases hopen

end Tallied

/-! ### Subgoals -/

theorem size_eq_of_place {nodes' : Array Node}
    (hplace : ∀ i : Nat, nodes'[i]?.map Node.place = nodes[i]?.map Node.place) :
    nodes'.size = nodes.size := by
  have hmap : nodes'.map Node.place = nodes.map Node.place := by
    refine Array.ext_getElem? fun i => ?_
    rw [Array.getElem?_map, Array.getElem?_map]
    exact hplace i
  simpa using congrArg Array.size hmap

/-- The goal on top is replaced by its subgoals. Counts may change at the same time. -/
theorem Tallied.expand {target : Nat} {tail : List Nat} {defers : Bool}
    {subgoals : List Statement} {nodes' : Array Node}
    (htallied : Tallied nodes (target :: tail) replaced) (hnode : nodes[target]? = some node)
    (hplace : ∀ i : Nat, nodes'[i]?.map Node.place =
      (expandNodes nodes target defers subgoals)[i]?.map Node.place)
    (htree : Consistent nodes' (subgoalIds nodes subgoals ++ tail)) :
    Tallied nodes' (subgoalIds nodes subgoals ++ tail) (replaced ++ [target]) := by
  obtain ⟨htarget, -⟩ := Array.getElem?_eq_some_iff.mp hnode
  obtain ⟨hnotmem, -⟩ := List.nodup_cons.mp htallied.tree.nodup
  have hunreplaced : target ∉ replaced :=
    ((htallied.open_iff target).mp List.mem_cons_self).2
  have hsize : nodes'.size = nodes.size + subgoals.length := by
    rw [size_eq_of_place hplace, expandNodes]
    simp
  refine
    { tree := htree
      open_iff := fun id => ?_
      replaced_lt := fun id hid => ?_
      replaced_nodup := ?_
      nonempty := ?_
      root_iff := fun id after hafter => ?_ }
  · have hopen := htallied.open_iff id
    have hlt := htallied.replaced_lt id
    rw [List.mem_append, mem_subgoalIds, Finset.mem_Ico, hsize, List.mem_append,
      List.mem_singleton]
    rw [List.mem_cons] at hopen
    by_cases hid : id = target
    · subst hid
      simp only [hnotmem, or_true, not_true_eq_false, and_false, or_false, iff_false]
      omega
    · grind
  · rw [hsize]
    rcases List.mem_append.mp hid with hold | hself
    · exact Nat.lt_add_right _ (htallied.replaced_lt id hold)
    · exact Nat.lt_add_right _ (List.mem_singleton.mp hself ▸ htarget)
  · refine List.nodup_append.mpr ⟨htallied.replaced_nodup, List.nodup_singleton _, ?_⟩
    rintro first hfirst second hsecond rfl
    exact hunreplaced (List.mem_singleton.mp hsecond ▸ hfirst)
  · rw [hsize]
    exact Nat.lt_add_right _ htallied.nonempty
  · have hid := hplace id
    rw [hafter] at hid
    obtain ⟨before, hbefore, heq⟩ := Option.map_eq_some_iff.mp hid.symm
    have hparent : before.parent = after.parent := congrArg Prod.snd heq
    rw [← hparent]
    rcases (getElem?_expandNodes_eq_some_iff hnode).mp hbefore with
      ⟨rfl, rfl⟩ | ⟨-, hold⟩ | ⟨goal, hfirst, -, rfl⟩
    · exact htallied.root_iff id node hnode
    · exact htallied.root_iff id before hold
    · exact iff_of_false (Option.some_ne_none _) (htallied.nonempty.trans_le hfirst).ne'

end

namespace Session

variable {session start : Session} {facts : Facts} {plan : Plan} {processed : List Nat}

/-! ### Settling -/

/-- How a goal is settled if nothing goes wrong: all numbers are those of goals, and the count of
the goal above is positive. -/
inductive Climbs : Session → Nat → Session → Prop where
  | root {session : Session} {id : Nat} {node : Node} :
      session.nodes[id]? = some node → node.parent = none →
      Climbs session id (session.record node)
  | waits {session : Session} {id parent : Nat} {node above : Node} :
      session.nodes[id]? = some node → node.parent = some parent →
      session.nodes[parent]? = some above → 1 < above.pending →
      Climbs session id (session.report node parent)
  | climbs {session result : Session} {id parent : Nat} {node above : Node} :
      session.nodes[id]? = some node → node.parent = some parent →
      session.nodes[parent]? = some above → above.pending = 1 →
      Climbs (session.report node parent) parent result → Climbs session id result

theorem settle_climbs {id : Nat} {rest : List Nat}
    (htree : Consistent session.nodes (id :: rest)) : Climbs session id (session.settle id) := by
  -- the goal above is created earlier, so its number is smaller
  induction id using Nat.strong_induction_on generalizing session with
  | _ id ih =>
    obtain ⟨node, hnode, -⟩ := htree.agenda_pending id List.mem_cons_self
    cases hparent : node.parent with
    | none =>
      rw [settle_of_root hnode hparent]
      exact .root hnode hparent
    | some parent =>
      have hlt : parent < id := htree.parent_lt id node parent hnode hparent
      obtain ⟨above, habove⟩ : ∃ above : Node, session.nodes[parent]? = some above := by
        obtain ⟨hsize, -⟩ := Array.getElem?_eq_some_iff.mp hnode
        exact ⟨_, Array.getElem?_eq_getElem (hlt.trans hsize)⟩
      have hcounts := htree.pending_pos_of_child List.mem_cons_self hnode hparent habove
      rw [settle_of_child hnode hparent habove hlt]
      by_cases hone : above.pending = 1
      · have htree' := htree.settleChild hnode hparent habove
        rw [if_pos hone] at htree'
        simp only [hone, Nat.sub_self, Nat.lt_irrefl, if_false]
        have hclimbs : Climbs (session.report node parent) parent
            ((session.report node parent).settle parent) := ih parent hlt htree'
        exact .climbs hnode hparent habove hone hclimbs
      · have hmore : 0 < above.pending - 1 := by omega
        simp only [hmore, if_true]
        exact .waits hnode hparent habove (by omega)

/-- A goal without subgoals is settled right away. -/
theorem advance_climbs {tail : List Nat} {node : Node}
    (hgoals : session.goals = plan.target :: tail)
    (hnode : session.nodes[plan.target]? = some node)
    (htree : Consistent session.nodes session.goals) (hsubgoals : plan.subgoals = []) :
    Climbs (session.expand plan) plan.target (session.advance plan) := by
  rw [hgoals] at htree
  have hexpand : Consistent (session.expand plan).nodes (plan.target :: tail) := by
    have hconsistent := @Consistent.expand _ _ _ _ plan.defers plan.subgoals htree hnode
    rwa [expandAgenda, hsubgoals, List.isEmpty_nil, if_pos rfl, ← hsubgoals] at hconsistent
  have hadvance : session.advance plan = (session.expand plan).settle plan.target := by
    rw [advance, hsubgoals, List.isEmpty_nil, if_pos rfl]
  rw [hadvance]
  exact settle_climbs hexpand

/-! ### Tactics -/

/-- The goal that a tactic replaces, if it is not refused. -/
def replaced? (session : Session) (facts : Facts) (id : Nat) (text : String) : Option Nat :=
  if session.status = .active then (session.plan facts id text).toOption.map Plan.target else none

/-- The goals that a sequence of tactics replaces. -/
def replaced (session : Session) (facts : Facts) : List (Nat × String) → List Nat
  | [] => []
  | call :: calls =>
    (session.replaced? facts call.1 call.2).toList ++
      (session.runTactic facts call.1 call.2).1.replaced facts calls

/-- The books of a session, given the goals that have been replaced so far. -/
structure Balanced (session : Session) (processed : List Nat) : Prop where
  tallied : Tallied session.nodes session.goals processed
  closed_iff : session.status = .closed ↔ session.goals = []

theorem balanced_init {database : Database} {label : Symbol}
    (hinit : init database label = .ok start) : start.Balanced [] := by
  rw [init] at hinit
  split at hinit
  · cases hinit
  · cases hinit
    have hactive : Status.active ≠ .closed := by decide
    refine ⟨⟨consistent_root _, fun id => ?_, List.forall_mem_nil _, List.nodup_nil, Nat.one_pos,
      ?_⟩, iff_of_false hactive (List.cons_ne_nil _ _)⟩
    · simp
    · intro id node hnode
      obtain ⟨rfl, rfl⟩ := eq_root_of_getElem? hnode
      exact iff_of_true rfl rfl

theorem Balanced.open_of_active (hbalanced : session.Balanced processed)
    (hactive : session.status = .active) : session.goals ≠ [] := by
  intro hgoals
  have hclosed := hbalanced.closed_iff.mpr hgoals
  rw [hactive] at hclosed
  cases hclosed

theorem Balanced.execute (hbalanced : session.Balanced processed)
    (hactive : session.status = .active) {id : Nat} {text : String}
    (hplan : session.plan facts id text = .ok plan) :
    (session.execute plan).Balanced (processed ++ [plan.target]) := by
  obtain ⟨-, node, tail, -, hgoals, hnode, -⟩ := exists_tactic_of_plan hplan
  have htallied := hbalanced.tallied
  have hsettles := advance_settles hgoals hnode htallied.tree
  have hconsistent := hsettles.consistent
  rw [expand, hgoals, List.tail_cons] at hconsistent
  rw [hgoals] at htallied
  refine ⟨?_, ?_⟩
  · show Tallied (session.advance plan).nodes (session.advance plan).goals _
    rw [hsettles.goals_eq, expand, hgoals, List.tail_cons]
    exact htallied.expand hnode hsettles.place hconsistent
  · exact closed_present_iff (hsettles.status_eq.trans hactive)

theorem Balanced.runTactic (hbalanced : session.Balanced processed) (id : Nat) (text : String) :
    (session.runTactic facts id text).1.Balanced
      (processed ++ (session.replaced? facts id text).toList) := by
  rw [Session.runTactic, replaced?]
  cases hstatus : session.status with
  | failed => simpa using hbalanced
  | closed => simpa using hbalanced
  | active =>
    simp only [if_true]
    cases hplan : session.plan facts id text with
    | error error =>
      show Balanced { session with status := .failed } (processed ++ [])
      rw [List.append_nil]
      have hfailed : Status.failed ≠ .closed := by decide
      exact ⟨hbalanced.tallied, iff_of_false hfailed (hbalanced.open_of_active hstatus)⟩
    | ok plan => exact hbalanced.execute hstatus hplan

theorem Balanced.runTactics (hbalanced : session.Balanced processed)
    (calls : List (Nat × String)) :
    (session.runTactics facts calls).Balanced (processed ++ session.replaced facts calls) := by
  induction calls generalizing session processed with
  | nil =>
    rw [replaced, List.append_nil]
    exact hbalanced
  | cons call calls ih =>
    rw [replaced, ← List.append_assoc]
    exact ih (hbalanced.runTactic call.1 call.2)

/-- What the numbers and counts of a session mean, given the goals that tactics have replaced. -/
structure Bookkeeping (session : Session) (processed : List Nat) : Prop where
  goals_nodup : session.goals.Nodup
  mem_goals_iff : ∀ id, id ∈ session.goals ↔ id < session.nodes.size ∧ id ∉ processed
  processed_nodup : processed.Nodup
  processed_lt : ∀ id ∈ processed, id < session.nodes.size
  parent_lt : ∀ (id : Nat) (node : Node) (above : Nat),
    session.nodes[id]? = some node → node.parent = some above → above < id
  pending_eq : ∀ id ∈ processed, ∀ node : Node, session.nodes[id]? = some node →
    {child ∈ children session.nodes id | ¬ Settled session.nodes processed child}.encard =
      node.pending
  settled_iff : ∀ id ∈ processed, ∀ node : Node, session.nodes[id]? = some node →
    (Settled session.nodes processed id ↔ node.pending = 0)
  closed_iff : session.status = .closed ↔ session.goals = []
  root_settled_iff : Settled session.nodes processed 0 ↔ session.goals = []

/-- A session that accepts tactics has a goal for them, and executing a plan is safe. -/
structure Safe (session : Session) : Prop where
  goals_ne_nil : session.status = .active → session.goals ≠ []
  planned : session.status = .active → ∀ facts id text,
    session.plan facts id text ≠ .error .sessionClosed
  executed : ∀ facts id text plan, session.plan facts id text = .ok plan → plan.subgoals = [] →
    ∃ settled, Climbs (session.expand plan) plan.target settled ∧
      session.execute plan = { settled with
        history := settled.history.push settled.render
        status := if settled.goals.isEmpty then .closed else settled.status }

theorem Balanced.bookkeeping (hbalanced : session.Balanced processed) :
    session.Bookkeeping processed where
  goals_nodup := hbalanced.tallied.tree.nodup
  mem_goals_iff := hbalanced.tallied.open_iff
  processed_nodup := hbalanced.tallied.replaced_nodup
  processed_lt := hbalanced.tallied.replaced_lt
  parent_lt := hbalanced.tallied.tree.parent_lt
  pending_eq _ _ _ hnode := hbalanced.tallied.encard_unsettled hnode
  settled_iff _ hid _ hnode := hbalanced.tallied.settled_iff_pending_eq_zero hid hnode
  closed_iff := hbalanced.closed_iff
  root_settled_iff := hbalanced.tallied.root_settled_iff

theorem plan_ne_sessionClosed {target : Nat} {tail : List Nat} {node : Node}
    (hgoals : session.goals = target :: tail) (hnode : session.nodes[target]? = some node)
    (id : Nat) (text : String) : session.plan facts id text ≠ .error .sessionClosed := by
  intro hplan
  rw [plan, hgoals, List.head?_cons, Option.bind_some, hnode] at hplan
  split_ifs at hplan
  · cases hplan
  · cases hplan
  · split at hplan
    · cases hplan
    · exact (planFor_failsOnly session facts target node.statement _).of_eq_error hplan

theorem Balanced.safe (hbalanced : session.Balanced processed) : session.Safe where
  goals_ne_nil := hbalanced.open_of_active
  planned hactive facts id text := by
    obtain ⟨target, tail, hgoals⟩ :=
      List.exists_cons_of_ne_nil (hbalanced.open_of_active hactive)
    obtain ⟨node, hnode, -⟩ :=
      hbalanced.tallied.tree.agenda_pending target (hgoals ▸ List.mem_cons_self)
    exact plan_ne_sessionClosed hgoals hnode id text
  executed facts id text plan hplan hsubgoals := by
    obtain ⟨-, node, tail, -, hgoals, hnode, -⟩ := exists_tactic_of_plan hplan
    exact ⟨session.advance plan, advance_climbs hgoals hnode hbalanced.tallied.tree hsubgoals, rfl⟩

/-- However a session goes on from its start, the open goals are different numbers of goals, namely
of those that no tactic has replaced; goals are created after those they are created for; each
replaced goal counts those of its children that are not settled, and is settled itself if it counts
none. The session is closed if and only if no goal is open, and then and only then the goal that it
started with is settled. So there is a goal for every tactic, and settling goals is safe. -/
theorem bookkeeping_of_runTactics {database : Database} {label : Symbol}
    (hinit : init database label = .ok start) (facts : Facts) (calls : List (Nat × String)) :
    (start.runTactics facts calls).Bookkeeping (start.replaced facts calls) ∧
      (start.runTactics facts calls).Safe := by
  have hbalanced : (start.runTactics facts calls).Balanced ([] ++ start.replaced facts calls) :=
    (balanced_init hinit).runTactics calls
  exact ⟨hbalanced.bookkeeping, hbalanced.safe⟩

/-- The theorem is deferred with two premises. One of them is a fact, the other one is deferred. -/
def deferTwice : List (Nat × String) :=
  [(0, "[[ |- T |- ( T -> T ) ]] |- ( T -> T )"), (1, "[[ ]] |- ( T -> T )"), (2, "[[ ]] |- T")]

theorem bookkeeping_of_deferTwice : ∃ start : Session,
    init reflexivity "th" = .ok start ∧ start.replaced reflexivity.facts deferTwice = [0, 2, 1] ∧
    (start.runTactics reflexivity.facts (deferTwice.take 2)).nodes.toList.map Node.pending =
      [1, 0, 0] ∧
    (start.runTactics reflexivity.facts (deferTwice.take 2)).Bookkeeping [0, 2] ∧
    (start.runTactics reflexivity.facts (deferTwice.take 2)).Safe ∧
    (start.runTactics reflexivity.facts deferTwice).status = .closed ∧
    Settled (start.runTactics reflexivity.facts deferTwice).nodes [0, 2, 1] 0 := by
  obtain ⟨start, hinit, htwo, hthree, hpending, hstatus⟩ : ∃ start : Session,
      init reflexivity "th" = .ok start ∧
      start.replaced reflexivity.facts (deferTwice.take 2) = [0, 2] ∧
      start.replaced reflexivity.facts deferTwice = [0, 2, 1] ∧
      (start.runTactics reflexivity.facts (deferTwice.take 2)).nodes.toList.map Node.pending =
        [1, 0, 0] ∧
      (start.runTactics reflexivity.facts deferTwice).status = .closed :=
    ⟨_, rfl, by decide +kernel, by decide +kernel, by decide +kernel, by decide +kernel⟩
  obtain ⟨hbooks, hsafe⟩ := bookkeeping_of_runTactics hinit reflexivity.facts (deferTwice.take 2)
  obtain ⟨hclosed, -⟩ := bookkeeping_of_runTactics hinit reflexivity.facts deferTwice
  rw [htwo] at hbooks
  rw [hthree] at hclosed
  exact ⟨start, hinit, hthree, hpending, hbooks, hsafe, hstatus,
    hclosed.root_settled_iff.mpr (hclosed.closed_iff.mp hstatus)⟩

end Session

end Metamath.Search
