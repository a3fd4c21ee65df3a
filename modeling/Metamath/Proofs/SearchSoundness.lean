import Metamath.Proofs.GoalTree
import Metamath.Proofs.Replay

/-!
# Soundness of proof search

What a session may use without proof are the hypotheses it starts with. What follows from them by
the facts of the database is derivable. A session accepts deferred goals on trust, removes a goal
from the deferred ones before its subgoals are proved, and drops subgoals that have been proved
elsewhere. None of this lets anything through.

For a goal that is proved, the reason is in the tree of goals: no deferred goal is below it. For the
conclusion it is not, since the goals of a closed session may all depend on deferred ones. Instead,
at any time the conclusion is derivable from the hypotheses, the open goals and the deferred goals
taken together. A fact that is applied to a goal makes that goal derivable from its subgoals, which
are open from then on; so the goal is needed neither as an open nor as a deferred one. If in the end
no goal is open or deferred, only the hypotheses are left.
-/

namespace Metamath.Search

/-- What follows from the given statements by the facts of a database. A fact is used under a
substitution for any of its variables, all of which must have the typecodes of the session. -/
inductive Derivable (facts : Facts) (types : Std.TreeMap Symbol Symbol)
    (known : Statement → Prop) : Statement → Prop where
  | known {statement : Statement} : known statement → Derivable facts types known statement
  | fact {goal : Goal} {σ : Substitution} (holds : facts.holds goal)
      (typed : ∀ v expression, σ.get? v = some expression → ∃ typecode, types[v]? = some typecode)
      (typings : ∀ v expression typecode, σ.get? v = some expression →
        types[v]? = some typecode → Derivable facts types known (typecode :: expression))
      (premises : ∀ premise ∈ goal.premises, Derivable facts types known (σ.apply premise)) :
      Derivable facts types known (σ.apply goal.conclusion)

theorem Derivable.trans {facts : Facts} {types : Std.TreeMap Symbol Symbol}
    {known known' : Statement → Prop} {statement : Statement}
    (hderivable : Derivable facts types known statement)
    (hknown : ∀ s, known s → Derivable facts types known' s) :
    Derivable facts types known' statement := by
  induction hderivable with
  | known hmem => exact hknown _ hmem
  | fact hholds htyped _ _ htypings hpremises => exact .fact hholds htyped htypings hpremises

/-- The reason lies in what a tactic says about the goal on top. -/
def Error.OfTactic : Error → Prop
  | .unknownFact _ | .untypedVariable _ | .inconsistentConclusion _ _ => True
  | _ => False

namespace Session

/-- The hypotheses of a session: those of the theorem, and all floating and essential ones before
it. -/
def Known (session : Session) (statement : Statement) : Prop :=
  statement ∈ session.premises ∨ session.floating.contains statement ∨
    session.essential.contains statement

variable {session : Session} {facts : Facts} {plan : Plan}

/-! ### Plans -/

/-- Each binding needs the typing of its expression, with the typecode of its variable. -/
theorem forall₂_of_typings {σ : Substitution} {typings : List Statement}
    (htypings : session.typings σ = .ok typings) :
    List.Forall₂ (fun binding typing => ∃ typecode, session.types[binding.1]? = some typecode ∧
      typing = typecode :: binding.2) σ.bindings typings := by
  apply (mapM_eq_ok_iff.mp htypings).imp
  intro binding typing hmatch
  cases htypecode : session.types[binding.1]? with
  | none => simp [htypecode] at hmatch
  | some typecode =>
    simp only [htypecode, Except.ok.injEq] at hmatch
    exact ⟨typecode, rfl, hmatch.symm⟩

theorem mem_typings {σ : Substitution} {typings : List Statement}
    (htypings : session.typings σ = .ok typings) {v : Symbol} {expression : Statement}
    (hbound : σ.get? v = some expression) :
    ∃ typecode, session.types[v]? = some typecode ∧ typecode :: expression ∈ typings := by
  obtain ⟨typing, hmem, typecode, htypecode, rfl⟩ := exists_of_forall₂_of_mem
    (forall₂_of_typings htypings) (Substitution.mem_bindings_of_get? hbound)
  exact ⟨typecode, htypecode, hmem⟩

theorem planFor_eq_ok_iff {target : Nat} {statement : Statement} {tactic : Tactic} :
    session.planFor facts target statement tactic = .ok plan ↔
      tactic.substitution.apply tactic.goal.conclusion = statement ∧
      (facts.holds tactic.goal ∨ tactic.goal.conclusion = statement) ∧
      ∃ typings, session.typings tactic.substitution = .ok typings ∧
        plan = ⟨target, statement, !facts.holds tactic.goal, session.subgoals typings tactic⟩ := by
  rw [planFor]
  by_cases hknown : facts.holds tactic.goal ∨ tactic.goal.conclusion = statement
  · have hguard : (!facts.holds tactic.goal && tactic.goal.conclusion != statement) = false := by
      rcases hknown with hholds | heq <;> simp [*]
    simp only [hguard, hknown, true_and, Bool.false_eq_true, if_false, bind_eq_ok_iff]
    by_cases hfound : tactic.substitution.apply tactic.goal.conclusion = statement
    · simp [hfound, pure, Except.pure, eq_comm]
    · simp [hfound, throw, throwThe, MonadExceptOf.throw, bind, Except.bind]
  · have hguard : (!facts.holds tactic.goal && tactic.goal.conclusion != statement) = true := by
      simpa using hknown
    simp only [hguard, hknown, if_true]
    exact iff_of_false nofun fun h => h.2.1

theorem planFor_failsOnly (session : Session) (facts : Facts) (target : Nat)
    (statement : Statement) (tactic : Tactic) :
    FailsOnly Error.OfTactic (session.planFor facts target statement tactic) := by
  have htypings : FailsOnly Error.OfTactic (session.typings tactic.substitution) := by
    refine failsOnly_mapM fun binding _ => ?_
    split <;> trivial
  rw [planFor]
  split
  · trivial
  · refine htypings.bind fun typings => ?_
    dsimp only
    split <;> trivial

/-- A plan is made for the goal on top. -/
theorem exists_planFor_of_plan {id : Nat} {text : String}
    (hplan : session.plan facts id text = .ok plan) :
    ∃ (tactic : Tactic) (target : Nat) (tail : List Nat) (node : Node),
      Tactic.parse text = .ok tactic ∧ session.goals = target :: tail ∧
      session.nodes[target]? = some node ∧
      session.planFor facts target node.statement tactic = .ok plan := by
  rw [Session.plan] at hplan
  split_ifs at hplan
  split at hplan
  · cases hplan
  · rename_i tactic hparse
    split at hplan
    · cases hplan
    · rename_i target node htop
      obtain ⟨first, hfirst, hnode⟩ := Option.bind_eq_some_iff.mp htop
      obtain ⟨found, hfound, heq⟩ := Option.map_eq_some_iff.mp hnode
      cases heq
      obtain ⟨tail, htail⟩ := List.head?_eq_some_iff.mp hfirst
      exact ⟨tactic, target, tail, node, hparse, htail, hfound, hplan⟩

/-- What is planned for an open goal: the tactic's conclusion is the goal, and unless the goal is
deferred, the tactic names a fact. -/
theorem exists_tactic_of_plan {id : Nat} {text : String}
    (hplan : session.plan facts id text = .ok plan) :
    ∃ (tactic : Tactic) (node : Node) (tail : List Nat) (typings : List Statement),
      session.goals = plan.target :: tail ∧ session.nodes[plan.target]? = some node ∧
      node.statement = plan.statement ∧
      tactic.substitution.apply tactic.goal.conclusion = plan.statement ∧
      plan.defers = (!facts.holds tactic.goal) ∧
      session.typings tactic.substitution = .ok typings ∧
      plan.subgoals = session.subgoals typings tactic := by
  obtain ⟨tactic, target, tail, node, -, hgoals, hnode, hplanned⟩ := exists_planFor_of_plan hplan
  obtain ⟨happly, -, typings, htypings, rfl⟩ := planFor_eq_ok_iff.mp hplanned
  exact ⟨tactic, node, tail, typings, hgoals, hnode, rfl, happly, rfl, htypings, rfl⟩

theorem known_or_mem_subgoals {typings : List Statement} {tactic : Tactic} {statement : Statement}
    (hneeded : statement ∈ typings ∨
      ∃ premise ∈ tactic.goal.premises, tactic.substitution.apply premise = statement) :
    session.Known statement ∨ session.proved.contains statement ∨
      statement ∈ session.subgoals typings tactic := by
  by_cases hknown : session.Known statement
  · exact .inl hknown
  · simp only [Known, not_or, Bool.not_eq_true] at hknown
    obtain ⟨hpremises, hfloating, hessential⟩ := hknown
    -- typings are looked up among the hypotheses, premises among the premises of the session
    cases hproved : session.proved.contains statement with
    | true => exact .inr (.inl rfl)
    | false =>
      refine .inr (.inr ?_)
      simp only [subgoals, List.mem_filter, List.mem_append, List.mem_map, hproved]
      rcases hneeded with htyping | hpremise
      · simp [htyping, hfloating, hessential]
      · simp [hpremise, hpremises]

/-- Unless a goal is deferred, it is derivable from its subgoals and what is known. -/
theorem derivable_of_plan {id : Nat} {text : String} {known : Statement → Prop}
    (hplan : session.plan facts id text = .ok plan) (hdefers : plan.defers = false)
    (hknown : ∀ s, session.Known s → known s)
    (hproved : ∀ s, session.proved.contains s → Derivable facts session.types known s)
    (hsubgoals : ∀ goal ∈ plan.subgoals, Derivable facts session.types known goal) :
    Derivable facts session.types known plan.statement := by
  obtain ⟨tactic, -, -, typings, -, -, -, happly, hfact, htypings, hgoals⟩ :=
    exists_tactic_of_plan hplan
  have hneeded : ∀ statement, statement ∈ typings ∨
      (∃ premise ∈ tactic.goal.premises, tactic.substitution.apply premise = statement) →
      Derivable facts session.types known statement := by
    intro statement hstatement
    rcases (known_or_mem_subgoals hstatement : session.Known statement ∨ _) with
      hold | hold | hgoal
    · exact .known (hknown statement hold)
    · exact hproved statement hold
    · exact hsubgoals statement (hgoals ▸ hgoal)
  have hholds : facts.holds tactic.goal := by
    simpa [hdefers] using hfact
  rw [← happly]
  refine .fact hholds (fun v expression hbound => ?_) (fun v expression typecode hbound htype => ?_)
    fun premise hpremise => hneeded _ (.inr ⟨premise, hpremise, rfl⟩)
  · obtain ⟨typecode, htypecode, -⟩ := mem_typings htypings hbound
    exact ⟨typecode, htypecode⟩
  · obtain ⟨found, hfound, hmem⟩ := mem_typings htypings hbound
    cases htype.symm.trans hfound
    exact hneeded _ (.inl hmem)

/-! ### Execution -/

theorem advance_settlesSoundly {D : Statement → Prop} {tail : List Nat} {node : Node}
    (hgoals : session.goals = plan.target :: tail)
    (hnode : session.nodes[plan.target]? = some node)
    (htree : Consistent session.nodes session.goals)
    (hjustified : Justified D session.nodes session.goals)
    (hproved : ∀ statement, session.proved.contains statement → D statement)
    (hrule : plan.defers = false → (∀ goal ∈ plan.subgoals, D goal) → D node.statement) :
    SettlesSoundly D (session.expand plan) (session.expand plan).goals (session.advance plan) := by
  rw [hgoals] at htree hjustified
  have htree' : Consistent (expandNodes session.nodes plan.target plan.defers plan.subgoals)
      (expandAgenda session.nodes plan.target plan.subgoals tail) := htree.expand hnode
  have hjustified' := htree.justified_expand hnode hjustified hrule
  rw [expandAgenda] at htree' hjustified'
  rw [advance, expand, hgoals, List.tail_cons]
  by_cases hempty : plan.subgoals.isEmpty
  · rw [if_pos hempty] at htree' hjustified' ⊢
    have hids : subgoalIds session.nodes plan.subgoals = [] := by
      rw [subgoalIds, List.isEmpty_iff.mp hempty]
      rfl
    rw [hids, List.nil_append]
    refine settle_settlesSoundly htree' hjustified' hproved fun after hafter hsound => ?_
    rcases (getElem?_expandNodes_eq_some_iff hnode).mp hafter with
      ⟨-, rfl⟩ | ⟨hne, -⟩ | ⟨goal, -, hgoal, -⟩
    · have hdefers : plan.defers = false := by
        simpa using (Bool.and_eq_true_iff.mp hsound).2
      refine hrule hdefers fun goal hgoal => absurd hgoal ?_
      rw [List.isEmpty_iff.mp hempty]
      exact List.not_mem_nil
    · exact absurd rfl hne
    · rw [List.isEmpty_iff.mp hempty] at hgoal
      cases hgoal
  · rw [if_neg hempty] at htree' hjustified' ⊢
    exact ⟨⟨rfl, fun _ => rfl, htree'⟩, hjustified', hproved⟩

/-- Whatever is proved, the tree is kept in order. -/
theorem advance_settles {tail : List Nat} {node : Node}
    (hgoals : session.goals = plan.target :: tail)
    (hnode : session.nodes[plan.target]? = some node)
    (htree : Consistent session.nodes session.goals) :
    Settles (session.expand plan) (session.expand plan).goals (session.advance plan) :=
  (advance_settlesSoundly (D := fun _ => True) hgoals hnode htree (fun _ _ _ _ _ _ => trivial)
    (fun _ _ => trivial) fun _ _ => trivial).toSettles

/-- A session in which tactics are accepted is closed as soon as no goal is left. -/
theorem closed_present_iff (hactive : session.status = .active) :
    session.present.status = .closed ↔ session.present.goals = [] := by
  show (if session.goals.isEmpty then Status.closed else session.status) = .closed ↔
    session.goals = []
  rw [hactive]
  split
  · next hempty => exact iff_of_true rfl (List.isEmpty_iff.mp hempty)
  · next hopen => exact iff_of_false (by decide) fun hnil => hopen (List.isEmpty_iff.mpr hnil)

/-- The subgoals take the place of the goal on top, the last one topmost. -/
theorem openGoals_expand {tail : List Nat} {node : Node}
    (hgoals : session.goals = plan.target :: tail)
    (hnode : session.nodes[plan.target]? = some node)
    (htree : Consistent session.nodes session.goals) :
    (session.expand plan).openGoals = plan.subgoals.reverse ++ session.openGoals.tail := by
  have hnew : (subgoalIds session.nodes plan.subgoals).filterMap (fun id =>
      (session.expand plan).nodes[id]?.map Node.statement) = plan.subgoals.reverse := by
    have hmap : (List.range plan.subgoals.length).map (fun k =>
        (session.expand plan).nodes[session.nodes.size + k]?.map Node.statement) =
        plan.subgoals.map some := by
      refine List.ext_getElem (by simp) fun k hk _ => ?_
      have hlt : k < plan.subgoals.length := by simpa using hk
      simp [expand, expandNodes, Array.getElem?_append, hlt]
    rw [subgoalIds, List.filterMap_reverse, List.filterMap_map]
    calc ((List.range plan.subgoals.length).filterMap _).reverse
        = (((List.range plan.subgoals.length).map (fun k =>
            (session.expand plan).nodes[session.nodes.size + k]?.map Node.statement)).filterMap
              id).reverse := by rw [List.filterMap_map]; rfl
      _ = plan.subgoals.reverse := by rw [hmap]; simp
  have hold : tail.filterMap (fun id => (session.expand plan).nodes[id]?.map Node.statement) =
      tail.filterMap fun id => session.nodes[id]?.map Node.statement := by
    rw [hgoals] at htree
    refine List.filterMap_congr fun id hid => ?_
    obtain ⟨found, hfound, -⟩ := htree.agenda_pending id (List.mem_cons_of_mem _ hid)
    have hne : id ≠ plan.target := fun heq => (List.nodup_cons.mp htree.nodup).1 (heq ▸ hid)
    rw [hfound, expand]
    simp only [(getElem?_expandNodes_eq_some_iff hnode).mpr (.inr (.inl ⟨hne, hfound⟩))]
  rw [openGoals, openGoals, hgoals, List.filterMap_cons_some (by rw [hnode]; rfl),
    List.tail_cons, ← hold, ← hnew, ← List.filterMap_append]
  simp only [expand, hgoals, List.tail_cons]

theorem Settles.openGoals_eq {rest : List Nat} {result : Session}
    (hsettles : Settles session rest result) : result.openGoals = session.openGoals := by
  rw [openGoals, openGoals, hsettles.goals_eq]
  refine List.filterMap_congr fun id _ => ?_
  have hplace := congrArg (Option.map Prod.fst) (hsettles.place id)
  rw [Option.map_map, Option.map_map] at hplace
  exact hplace

/-! ### Runs -/

/-- What holds of a session at any time. -/
structure Sound (facts : Facts) (types : Std.TreeMap Symbol Symbol) (known : Statement → Prop)
    (conclusion : Statement) (session : Session) : Prop where
  known_iff : ∀ statement, session.Known statement ↔ known statement
  types_eq : session.types = types
  tree : Consistent session.nodes session.goals
  justified : Justified (Derivable facts types known) session.nodes session.goals
  proved : ∀ statement, session.proved.contains statement → Derivable facts types known statement
  derivable : Derivable facts types (fun statement => known statement ∨
    statement ∈ session.openGoals ∨ session.deferred.contains statement) conclusion
  closed : session.status = .closed → session.goals = []

section

variable {types : Std.TreeMap Symbol Symbol} {known : Statement → Prop} {conclusion : Statement}
  {id : Nat} {text : String}

/-- The conclusion needs the goal on top neither as an open nor as a deferred goal, once its
subgoals are open. -/
theorem Sound.derivable_expand (hsound : Sound facts types known conclusion session)
    (hplan : session.plan facts id text = .ok plan) :
    Derivable facts types (fun statement => known statement ∨
      statement ∈ plan.subgoals.reverse ++ session.openGoals.tail ∨
      (session.expand plan).deferred.contains statement) conclusion := by
  obtain rfl := hsound.types_eq
  obtain ⟨-, node, tail, -, hgoals, hnode, hstatement, -⟩ := exists_tactic_of_plan hplan
  have hopen : session.openGoals = plan.statement :: session.openGoals.tail := by
    rw [openGoals, hgoals, List.filterMap_cons_some (by rw [hnode]; rfl), hstatement,
      List.tail_cons]
  have htarget : Derivable facts session.types (fun statement => known statement ∨
      statement ∈ plan.subgoals.reverse ++ session.openGoals.tail ∨
      (session.expand plan).deferred.contains statement) plan.statement := by
    cases hdefers : plan.defers with
    | true =>
      refine .known (.inr (.inr ?_))
      simp [expand, hdefers]
    | false =>
      refine derivable_of_plan hplan hdefers (fun s hs => .inl ((hsound.known_iff s).mp hs))
        (fun s hs => (hsound.proved s hs).trans fun _ h => .known (.inl h)) fun goal hgoal => ?_
      exact .known (.inr (.inl (List.mem_append_left _ (List.mem_reverse.mpr hgoal))))
  refine hsound.derivable.trans fun statement hstatement => ?_
  by_cases htop : statement = plan.statement
  · exact htop ▸ htarget
  · rcases hstatement with hknown | hmem | hdeferred
    · exact .known (.inl hknown)
    · rw [hopen] at hmem
      exact .known (.inr (.inl (List.mem_append_right _
        ((List.mem_cons.mp hmem).resolve_left htop))))
    · refine .known (.inr (.inr ?_))
      rw [expand]
      split <;> simp [Std.TreeSet.contains_insert, Std.TreeSet.contains_erase, hdeferred,
        Ne.symm htop]

theorem Sound.execute (hsound : Sound facts types known conclusion session)
    (hactive : session.status = .active) (hplan : session.plan facts id text = .ok plan) :
    Sound facts types known conclusion (session.execute plan) := by
  obtain rfl := hsound.types_eq
  obtain ⟨-, node, tail, -, hgoals, hnode, hstatement, -⟩ := exists_tactic_of_plan hplan
  have hrule : plan.defers = false →
      (∀ goal ∈ plan.subgoals, Derivable facts session.types known goal) →
      Derivable facts session.types known node.statement := fun hdefers hsubgoals =>
    hstatement ▸ derivable_of_plan hplan hdefers (fun s => (hsound.known_iff s).mp) hsound.proved
      hsubgoals
  have hsettles :=
    advance_settlesSoundly hgoals hnode hsound.tree hsound.justified hsound.proved hrule
  have hopen : (session.execute plan).openGoals =
      plan.subgoals.reverse ++ session.openGoals.tail :=
    hsettles.openGoals_eq.trans (openGoals_expand hgoals hnode hsound.tree)
  have hdeferred : (session.execute plan).deferred = (session.expand plan).deferred := by
    rw [Session.execute, present, hsettles.frame]
  refine ⟨fun s => ?_, ?_, ?_, ?_, hsettles.proved, ?_, ?_⟩
  · rw [← hsound.known_iff s, Session.execute, present, hsettles.frame]
    rfl
  · rw [Session.execute, present, hsettles.frame]
    rfl
  · rw [Session.execute, present]
    exact hsettles.goals_eq ▸ hsettles.consistent
  · rw [Session.execute, present]
    exact hsettles.goals_eq ▸ hsettles.justified
  · rw [hopen, hdeferred]
    exact hsound.derivable_expand hplan
  · exact (closed_present_iff (hsettles.status_eq.trans hactive)).mp

theorem Sound.runTactic (hsound : Sound facts types known conclusion session)
    (id : Nat) (text : String) :
    Sound facts types known conclusion (session.runTactic facts id text).1 := by
  rw [Session.runTactic]
  cases hstatus : session.status with
  | failed => exact hsound
  | closed => exact hsound
  | active =>
    simp only
    cases hplan : session.plan facts id text with
    | error error =>
      exact ⟨hsound.known_iff, hsound.types_eq, hsound.tree, hsound.justified, hsound.proved,
        hsound.derivable, nofun⟩
    | ok plan => exact hsound.execute hstatus hplan

end

/-- The state of a session after a sequence of tactics. -/
def runTactics (session : Session) (facts : Facts) (calls : List (Nat × String)) : Session :=
  calls.foldl (fun session call => (session.runTactic facts call.1 call.2).1) session

theorem Sound.runTactics {types : Std.TreeMap Symbol Symbol} {known : Statement → Prop}
    {conclusion : Statement} (hsound : Sound facts types known conclusion session)
    (calls : List (Nat × String)) :
    Sound facts types known conclusion (session.runTactics facts calls) := by
  induction calls generalizing session with
  | nil => exact hsound
  | cons call rest ih => exact ih (hsound.runTactic call.1 call.2)

theorem sound_init {database : Database} {label : Symbol} {assertion : Assertion}
    (hassertion : (database.labels.get? label).bind Entry.assertion? = some assertion)
    (hinit : init database label = .ok session) :
    Sound database.facts session.types session.Known assertion.conclusion session := by
  rw [init, hassertion] at hinit
  cases hinit
  refine ⟨fun s => Iff.rfl, rfl, consistent_root _, justified_root _ _, fun s hs => ?_, ?_, nofun⟩
  · simp at hs
  · exact .known (.inr (.inl (by simp [openGoals])))

/-- At any time, whatever a session counts as proved is derivable from the hypotheses it started
with; and if no goal is left, neither open nor deferred, so is the conclusion. -/
theorem derivable_of_runTactics {database : Database} {label : Symbol} {assertion : Assertion}
    {start : Session}
    (hassertion : (database.labels.get? label).bind Entry.assertion? = some assertion)
    (hinit : init database label = .ok start) (calls : List (Nat × String)) :
    (∀ statement, (start.runTactics database.facts calls).proved.contains statement →
      Derivable database.facts start.types start.Known statement) ∧
    ((start.runTactics database.facts calls).status = .closed →
      (start.runTactics database.facts calls).deferred.isEmpty →
      Derivable database.facts start.types start.Known assertion.conclusion) := by
  have hsound := (sound_init hassertion hinit).runTactics calls
  refine ⟨hsound.proved, fun hclosed hdeferred => ?_⟩
  refine hsound.derivable.trans fun statement hneeded => ?_
  rcases hneeded with hknown | hopen | hcontains
  · exact .known hknown
  · rw [openGoals, hsound.closed hclosed] at hopen
    cases hopen
  · rw [Std.TreeSet.contains_of_isEmpty hdeferred] at hcontains
    cases hcontains

/-- A database with the theorem `( T -> T )`, an instance of its axiom. -/
def reflexivity : Database :=
  let labels := LabelTable.ofList
    [("wp", .floating ["wff", "p"]),
      ("wt", .axiomatic ⟨[], [], [], ["wff", "T"]⟩),
      ("id", .axiomatic ⟨[], [⟨"wff", "p"⟩], [], ["|-", "(", "p", "->", "p", ")"]⟩),
      ("th", .provable ⟨[], [], [], ["|-", "(", "T", "->", "T", ")"]⟩)]
  ⟨labels, .ofLabels labels⟩

/-- The theorem is first deferred and then proved. -/
def deferThenProve : List (Nat × String) :=
  [(0, "[[ |- ( T -> T ) ]] |- ( T -> T )"),
    (1, "[[ ]] |- ( p -> p ) \x7b\x7b p : T \x7d\x7d"),
    (2, "[[ ]] wff T")]

theorem derivable_of_deferThenProve : ∃ start : Session,
    init reflexivity "th" = .ok start ∧
    (start.runTactics reflexivity.facts (deferThenProve.take 1)).deferred.toList =
      [["|-", "(", "T", "->", "T", ")"]] ∧
    (start.runTactics reflexivity.facts deferThenProve).status = .closed ∧
    (start.runTactics reflexivity.facts deferThenProve).deferred.isEmpty ∧
    Derivable reflexivity.facts start.types start.Known ["|-", "(", "T", "->", "T", ")"] := by
  refine ⟨_, rfl, by decide +kernel, by decide +kernel, by decide +kernel, ?_⟩
  exact (@derivable_of_runTactics reflexivity "th" _ _ rfl rfl deferThenProve).2
    (by decide +kernel) (by decide +kernel)

end Session

end Metamath.Search
