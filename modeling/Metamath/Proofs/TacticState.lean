import Metamath.Proofs.Bookkeeping
import Metamath.Proofs.FactLookup

/-!
# What a tactic state tells

The text of a tactic state shows each open goal on a line of its own. To get the goals back from it,
one has to see where lines end and which words they consist of. Nothing in a session checks for
that: a goal may come from the database, but also from the premises and expressions of a tactic, and
an empty symbol, a blank in a symbol or an empty goal would spoil the text.

The reason why this does not happen is that tactics are read from texts as well. Their words are no
worse than those of a database, and an expression in a tactic is never empty; so a premise keeps at
least one symbol, whatever is put in for its variables. That all goals can be shown is an invariant
of sessions, and with it goes the order of the open goals.
-/

namespace Metamath

/-! ### Texts of goals -/

namespace Goal

variable {premises : List Statement} {conclusion statement : Statement}

theorem Legible.withConclusion (hlegible : Legible ⟨premises, conclusion⟩)
    (hne : statement ≠ []) (hsymbols : ∀ symbol ∈ statement, Text.IsWord symbol) :
    Legible ⟨premises, statement⟩ where
  premises := hlegible.premises
  conclusion := hne
  symbols := List.forall_mem_cons.mpr ⟨hsymbols, (List.forall_mem_cons.mp hlegible.symbols).2⟩

theorem Legible.newline_not_mem_text {goal : Goal} (hlegible : goal.Legible) :
    '\n' ∉ goal.text.toList := by
  intro hmem
  rw [hlegible.text_eq] at hmem
  rcases Text.mem_or_exists_of_mem_intercalate hmem with hspace | ⟨word, hword, hc⟩
  · exact absurd hspace (by decide)
  · exact (hlegible.isWord word hword).2 '\n' hc (by decide)

end Goal

namespace Search

/-- The lines of a tactic state that show goals: all of them but the first one, unless there is only
one. -/
def goalLines (state : String) : List String :=
  if (Text.lines state).length ≤ 1 then Text.lines state else (Text.lines state).tail

namespace Session

variable {session start : Session} {plan : Plan} {premises : List Statement}

/-! ### The lines of a tactic state -/

/-- The texts of the open goals, the topmost one first. -/
def goalTexts (session : Session) : List String :=
  session.openGoals.map (sequentText session.premises)

theorem newline_not_mem_header (count : Nat) : '\n' ∉ (toString count ++ " goals").toList := by
  rw [String.toList_append, List.mem_append, Nat.toString_eq_ofList_toDigits, String.toList_ofList]
  rintro (hdigit | hgoals)
  · exact absurd (Nat.isDigit_of_mem_toDigits (by decide) (by decide) hdigit) (by decide)
  · exact absurd hgoals (by decide)

theorem lines_render (htexts : ∀ line ∈ session.goalTexts, '\n' ∉ line.toList)
    (hne : session.goalTexts ≠ []) :
    Text.lines session.render =
      (if session.goalTexts.length ≤ 1 then []
        else [toString session.goalTexts.length ++ " goals"]) ++ session.goalTexts := by
  rw [render, ← goalTexts]
  generalize session.goalTexts = lines at htexts hne
  split
  · exact absurd rfl hne
  · next line =>
    have hread := Text.lines_intercalate htexts hne
    rwa [String.intercalate_singleton] at hread
  · next hsingle =>
    have hmany : ¬ lines.length ≤ 1 := by
      intro hle
      obtain ⟨line, rest, rfl⟩ := List.exists_cons_of_ne_nil hne
      have hrest : rest = [] := List.length_eq_zero_iff.mp (by simpa using hle)
      exact hsingle line (by rw [hrest])
    have hread := Text.lines_intercalate
      (List.forall_mem_cons.mpr ⟨newline_not_mem_header lines.length, htexts⟩)
      (List.cons_ne_nil _ _)
    rw [String.intercalate_cons_of_ne_nil hne] at hread
    rw [if_neg hmany, List.singleton_append, ← hread]
    simp only [String.append_assoc]
    rfl

/-- Dropping the line with the number of goals leaves the goals. -/
theorem goalLines_render (htexts : ∀ line ∈ session.goalTexts, '\n' ∉ line.toList)
    (hne : session.goalTexts ≠ []) :
    goalLines session.render = session.goalTexts := by
  rw [goalLines, lines_render htexts hne]
  by_cases hle : session.goalTexts.length ≤ 1
  · rw [if_pos hle, List.nil_append, if_pos hle]
  · have hmore : ¬ ((toString session.goalTexts.length ++ " goals") ::
        session.goalTexts).length ≤ 1 := by
      rw [List.length_cons]
      omega
    rw [if_neg hle, List.singleton_append, if_neg hmore, List.tail_cons]

/-! ### Sessions whose goals can be shown -/

/-- All goals can be shown, the open ones are listed with the latest one first, and they are what
the latest tactic state shows. -/
structure Presentable (premises : List Statement) (session : Session) : Prop where
  premises_eq : session.premises = premises
  types : ∀ v typecode : Symbol, session.types[v]? = some typecode → Text.IsWord typecode
  tree : Consistent session.nodes session.goals
  legible : ∀ (id : Nat) (node : Node), session.nodes[id]? = some node →
    Goal.Legible ⟨premises, node.statement⟩
  descending : session.goals.Pairwise (· > ·)
  state_eq : session.state = session.render

/-- What a tactic asks for is made of its own words and of typecodes. -/
theorem legible_of_mem_subgoals {tactic : Tactic} {typings : List Statement}
    {goal conclusion : Statement} (hlegible : Goal.Legible ⟨premises, conclusion⟩)
    (htypes : ∀ v typecode : Symbol, session.types[v]? = some typecode → Text.IsWord typecode)
    (htactic : tactic.Legible) (htypings : session.typings tactic.substitution = .ok typings)
    (hgoal : goal ∈ session.subgoals typings tactic) : Goal.Legible ⟨premises, goal⟩ := by
  have hasked : goal ∈ typings ∨ goal ∈ tactic.goal.premises.map tactic.substitution.apply := by
    simp only [subgoals, List.mem_filter, List.mem_append] at hgoal
    exact hgoal.1.imp And.left And.left
  rcases hasked with htyping | hpremise
  · obtain ⟨binding, hbinding, typecode, htypecode, rfl⟩ :=
      exists_of_forall₂_of_mem (forall₂_of_typings htypings).flip htyping
    apply hlegible.withConclusion (List.cons_ne_nil typecode binding.2)
    exact List.forall_mem_cons.mpr
      ⟨htypes binding.1 typecode htypecode, (htactic.expressions binding hbinding).2⟩
  · obtain ⟨premise, hmem, rfl⟩ := List.mem_map.mp hpremise
    apply hlegible.withConclusion
    · apply Substitution.apply_ne_nil fun binding hbinding =>
        (htactic.expressions binding hbinding).1
      exact (htactic.goal.premises premise hmem).1.ne_nil
    · apply Substitution.forall_mem_apply fun binding hbinding =>
        (htactic.expressions binding hbinding).2
      exact htactic.goal.symbols premise (List.mem_cons_of_mem _ hmem)

/-- Subgoals are created after all other goals, and the last one comes first. -/
theorem pairwise_subgoalIds_append {nodes : Array Node} {subgoals : List Statement}
    {tail : List Nat} (htail : tail.Pairwise (· > ·)) (hlt : ∀ id ∈ tail, id < nodes.size) :
    (subgoalIds nodes subgoals ++ tail).Pairwise (· > ·) := by
  rw [List.pairwise_append]
  refine ⟨?_, htail, ?_⟩
  · rw [subgoalIds, List.pairwise_reverse, List.pairwise_map]
    exact List.pairwise_lt_range.imp fun hless => Nat.add_lt_add_left hless nodes.size
  · intro new hnew old hold
    have hfirst := (Finset.mem_Ico.mp (mem_subgoalIds.mp hnew)).1
    exact Nat.lt_of_lt_of_le (hlt old hold) hfirst

theorem Presentable.execute (hsession : session.Presentable premises) {tail : List Nat}
    {node : Node} (hgoals : session.goals = plan.target :: tail)
    (hnode : session.nodes[plan.target]? = some node)
    (hsubgoals : ∀ goal ∈ plan.subgoals, Goal.Legible ⟨premises, goal⟩) :
    (session.execute plan).Presentable premises := by
  have htree := hsession.tree
  have hsettles := advance_settles hgoals hnode htree
  constructor
  · rw [Session.execute, present, hsettles.frame]
    exact hsession.premises_eq
  · rw [Session.execute, present, hsettles.frame]
    exact hsession.types
  · show Consistent (session.advance plan).nodes (session.advance plan).goals
    rw [hsettles.goals_eq]
    exact hsettles.consistent
  · intro id after hafter
    have hplace := hsettles.place id
    rw [show (session.advance plan).nodes[id]? = some after from hafter] at hplace
    obtain ⟨before, hbefore, heq⟩ := Option.map_eq_some_iff.mp hplace.symm
    have hstatement : before.statement = after.statement := congrArg Prod.fst heq
    rw [← hstatement]
    rcases (getElem?_expandNodes_eq_some_iff hnode).mp hbefore with
      ⟨-, rfl⟩ | ⟨-, hold⟩ | ⟨goal, -, hgoal, rfl⟩
    · exact hsession.legible plan.target node hnode
    · exact hsession.legible id before hold
    · exact hsubgoals goal (List.mem_of_getElem? hgoal)
  · show (session.advance plan).goals.Pairwise (· > ·)
    have hdescending := hsession.descending
    rw [hgoals] at hdescending htree
    rw [hsettles.goals_eq, expand, hgoals, List.tail_cons]
    apply pairwise_subgoalIds_append hdescending.of_cons
    intro id hid
    obtain ⟨found, hfound, -⟩ := htree.agenda_pending id (List.mem_cons_of_mem _ hid)
    exact (Array.getElem?_eq_some_iff.mp hfound).1
  · rw [Session.execute, present, state, Array.back?_push]
    rfl

theorem Presentable.runTactic (hsession : session.Presentable premises) (facts : Facts) (id : Nat)
    (text : String) : (session.runTactic facts id text).1.Presentable premises := by
  rw [Session.runTactic]
  cases hstatus : session.status with
  | failed => exact hsession
  | closed => exact hsession
  | active =>
    simp only
    cases hplan : session.plan facts id text with
    | error error => exact { hsession with }
    | ok plan =>
      obtain ⟨tactic, target, tail, node, hparse, hgoals, hnode, hplanned⟩ :=
        exists_planFor_of_plan hplan
      obtain ⟨-, -, typings, htypings, rfl⟩ := planFor_eq_ok_iff.mp hplanned
      apply hsession.execute hgoals hnode
      intro goal hgoal
      exact legible_of_mem_subgoals (hsession.legible target node hnode) hsession.types
        (Tactic.legible_of_parse hparse) htypings hgoal

theorem Presentable.runTactics (hsession : session.Presentable premises) (facts : Facts)
    (calls : List (Nat × String)) : (session.runTactics facts calls).Presentable premises := by
  induction calls generalizing session with
  | nil => exact hsession
  | cons call rest ih => exact ih (hsession.runTactic facts call.1 call.2)

theorem exists_floating_of_typesOf {entries : List (Symbol × Entry)} {v typecode : Symbol}
    (htype : (typesOf entries)[v]? = some typecode) :
    ∃ label, (label, .floating [typecode, v]) ∈ entries := by
  induction entries using List.reverseRecOn with
  | nil => simp [typesOf] at htype
  | append_singleton entries last ih =>
    have hearlier : (typesOf entries)[v]? = some typecode →
        ∃ label, (label, .floating [typecode, v]) ∈ entries ++ [last] := by
      intro hold
      obtain ⟨label, hlabel⟩ := ih hold
      exact ⟨label, List.mem_append_left _ hlabel⟩
    obtain ⟨label, entry⟩ := last
    rw [typesOf, List.foldl_concat, ← typesOf] at htype
    split at htype
    · next found x hentry =>
      subst hentry
      rw [Std.TreeMap.getElem?_insert] at htype
      split at htype
      · next hsame =>
        cases htype
        rw [Std.LawfulEqOrd.compare_eq_iff_eq] at hsame
        subst hsame
        exact ⟨label, List.mem_append_right _ List.mem_cons_self⟩
      · exact hearlier htype
    · exact hearlier htype

theorem presentable_init {builder : Database.Builder} (hloaded : builder.Loaded)
    (hsymbols : builder.labels.Spelled Text.BlankFree)
    {label : Symbol} {assertion : Assertion}
    (hassertion : (builder.labels.get? label).bind Entry.assertion? = some assertion)
    (hpremises : ∀ hypothesis ∈ assertion.essential, IsPremise hypothesis ∧ "]]" ∉ hypothesis)
    (hinit : init builder.finish label = .ok start) : start.Presentable assertion.essential := by
  obtain ⟨entry, hget, hentry⟩ := Option.bind_eq_some_iff.mp hassertion
  have hmem := LabelTable.mem_toList_iff.mpr hget
  have hlegible : assertion.goal.Legible := by
    apply hloaded.legible_goal (List.mem_filterMap.mpr ⟨(label, entry), hmem, hentry⟩) _ hpremises
    rw [← Entry.statements_of_assertion? hentry]
    exact hsymbols (label, entry) hmem
  rw [init, Database.Builder.finish, hassertion] at hinit
  cases hinit
  constructor
  · rfl
  · intro v typecode htype
    obtain ⟨found, hfound⟩ := exists_floating_of_typesOf htype
    have hrecorded := List.mem_of_mem_take hfound
    constructor
    · exact hloaded.spelled _ hrecorded _ List.mem_cons_self typecode List.mem_cons_self
    · exact hsymbols _ hrecorded _ List.mem_cons_self typecode List.mem_cons_self
  · exact consistent_root assertion.conclusion
  · intro id node hnode
    obtain ⟨-, rfl⟩ := eq_root_of_getElem? hnode
    exact hlegible
  · exact List.pairwise_singleton _ _
  · rfl

/-! ### Reading tactic states -/

/-- There is a line for each open goal. -/
theorem Presentable.forall₂_goalTexts (hsession : session.Presentable premises) :
    List.Forall₂ (fun line id => ∃ node : Node, session.nodes[id]? = some node ∧
      line = Goal.text ⟨premises, node.statement⟩) session.goalTexts session.goals := by
  have hnodes : ∀ id ∈ session.goals, ∃ node : Node, session.nodes[id]? = some node := by
    intro id hid
    obtain ⟨node, hnode, -⟩ := hsession.tree.agenda_pending id hid
    exact ⟨node, hnode⟩
  rw [goalTexts, openGoals, hsession.premises_eq]
  generalize session.goals = goals at hnodes
  induction goals with
  | nil => exact .nil
  | cons id rest ih =>
    obtain ⟨⟨node, hnode⟩, hrest⟩ := List.forall_mem_cons.mp hnodes
    rw [List.filterMap_cons_some (by rw [hnode]; rfl), List.map_cons]
    exact .cons ⟨node, hnode, rfl⟩ (ih hrest)

theorem Presentable.exists_legible_of_mem (hsession : session.Presentable premises) {line : String}
    (hline : line ∈ session.goalTexts) :
    ∃ goal : Goal, goal.Legible ∧ goal.text = line := by
  obtain ⟨id, -, node, hnode, rfl⟩ := exists_of_forall₂_of_mem hsession.forall₂_goalTexts hline
  exact ⟨_, hsession.legible id node hnode, rfl⟩

section

variable (hsession : session.Presentable premises)
include hsession

theorem Presentable.newline_not_mem : ∀ line ∈ session.goalTexts, '\n' ∉ line.toList := by
  intro line hline
  obtain ⟨goal, hlegible, rfl⟩ := hsession.exists_legible_of_mem hline
  exact hlegible.newline_not_mem_text

theorem Presentable.goalTexts_ne_nil (hopen : session.goals ≠ []) : session.goalTexts ≠ [] := by
  intro hnil
  have hforall := hsession.forall₂_goalTexts
  rw [hnil, List.forall₂_nil_left_iff] at hforall
  exact hopen hforall

theorem Presentable.goalLines_state (hopen : session.goals ≠ []) :
    goalLines session.state = session.goalTexts := by
  rw [hsession.state_eq,
    goalLines_render hsession.newline_not_mem (hsession.goalTexts_ne_nil hopen)]

theorem Presentable.state_of_closed (hclosed : session.goals = []) :
    session.state = "no goals" := by
  rw [hsession.state_eq, render, openGoals, hclosed]
  rfl

/-- A line that shows a goal is read as a goal, and `no goals` is not. -/
theorem Presentable.state_ne_of_open (hopen : session.goals ≠ []) :
    session.state ≠ "no goals" := by
  intro hstate
  have htexts := hsession.goalLines_state hopen
  rw [hstate, show goalLines "no goals" = ["no goals"] by decide +kernel] at htexts
  obtain ⟨goal, hlegible, htext⟩ :=
    hsession.exists_legible_of_mem (htexts ▸ List.mem_singleton_self "no goals")
  have hparse := hlegible.parse_text
  rw [htext, show Goal.parse "no goals" = .error (.goal "no goals") by decide +kernel] at hparse
  cases hparse

theorem Presentable.head?_lines_state (hmany : 1 < (Text.lines session.state).length) :
    (Text.lines session.state).head? =
      some (toString (goalLines session.state).length ++ " goals") := by
  by_cases hopen : session.goals = []
  · rw [hsession.state_of_closed hopen] at hmany
    exact absurd hmany (by decide +kernel)
  · have hlines := lines_render hsession.newline_not_mem (hsession.goalTexts_ne_nil hopen)
    rw [hsession.state_eq, hlines] at hmany
    rw [hsession.goalLines_state hopen, hsession.state_eq, hlines]
    by_cases hle : session.goalTexts.length ≤ 1
    · rw [if_pos hle, List.nil_append] at hmany
      exact absurd hle (Nat.not_le.mpr hmany)
    · rw [if_neg hle]
      rfl

end

/-- What the latest tactic state tells about the open goals. -/
structure Listed (session : Session) : Prop where
  empty_iff : session.state = "no goals" ↔ session.goals = []
  /-- above several goals stands their number -/
  header : 1 < (Text.lines session.state).length → (Text.lines session.state).head? =
    some (toString (goalLines session.state).length ++ " goals")
  goals : session.goals ≠ [] → List.Forall₂ (fun line id => ∃ node : Node,
    session.nodes[id]? = some node ∧ Goal.parse line = .ok ⟨session.premises, node.statement⟩)
    (goalLines session.state) session.goals
  /-- goals are numbered in the order in which they are created -/
  latest_first : session.goals.Pairwise (· > ·)

theorem Presentable.listed (hsession : session.Presentable premises) : session.Listed where
  empty_iff := ⟨fun hstate => by_contra fun hopen => hsession.state_ne_of_open hopen hstate,
    hsession.state_of_closed⟩
  header := hsession.head?_lines_state
  goals := by
    intro hopen
    rw [hsession.goalLines_state hopen, hsession.premises_eq]
    apply hsession.forall₂_goalTexts.imp
    rintro line id ⟨node, hnode, rfl⟩
    exact ⟨node, hnode, (hsession.legible id node hnode).parse_text⟩
  latest_first := hsession.descending

/-- Let a database be loaded from texts whose symbols hold no blanks, and let a session be about an
assertion whose essential hypotheses have their turnstile in front and nowhere else and hold no
closing brackets. Whatever tactics are tried, the latest tactic state is `no goals` if and only if
no goal is open. Otherwise it has a line for each open goal, after a line with their number if there
are several, and each of these lines is read as the premises of the session and the goal. Goals that
were created later are listed earlier. -/
theorem state_lists_open_goals {builder : Database.Builder} (hloaded : builder.Loaded)
    (hsymbols : builder.finish.labels.Spelled Text.BlankFree)
    {label : Symbol} {assertion : Assertion}
    (hassertion : (builder.finish.labels.get? label).bind Entry.assertion? = some assertion)
    (hpremises : ∀ hypothesis ∈ assertion.essential, IsPremise hypothesis ∧ "]]" ∉ hypothesis)
    (hinit : init builder.finish label = .ok start) (calls : List (Nat × String)) :
    (start.runTactics builder.finish.facts calls).premises = assertion.essential ∧
      (start.runTactics builder.finish.facts calls).Listed := by
  have hstart := presentable_init hloaded hsymbols hassertion hpremises hinit
  have hsession := hstart.runTactics builder.finish.facts calls
  exact ⟨hsession.premises_eq, hsession.listed⟩

open Database.Builder (detachment detachmentRule loaded_detachment)

/-- The conclusion of the rule is deferred with two premises, one of them about a new formula. -/
def deferWithFormula : List (Nat × String) :=
  [(0, "[[ |- ( p -> q ) |- ( q -> q ) ]] |- q \x7b\x7b p : ( p -> p ) \x7d\x7d")]

theorem state_lists_open_goals_detachment : ∃ start : Session,
    init detachment.finish "mp" = .ok start ∧
    (start.runTactics detachment.finish.facts deferWithFormula).state =
      "3 goals\n[[ |- p |- ( p -> q ) ]] |- ( q -> q )\n" ++
        "[[ |- p |- ( p -> q ) ]] |- ( ( p -> p ) -> q )\n" ++
        "[[ |- p |- ( p -> q ) ]] wff ( p -> p )" ∧
    (start.runTactics detachment.finish.facts deferWithFormula).goals = [3, 2, 1] ∧
    (start.runTactics detachment.finish.facts deferWithFormula).Listed := by
  have hrun : (init detachment.finish "mp").toOption.map (fun start =>
      ((start.runTactics detachment.finish.facts deferWithFormula).state,
        (start.runTactics detachment.finish.facts deferWithFormula).goals)) =
      some ("3 goals\n[[ |- p |- ( p -> q ) ]] |- ( q -> q )\n" ++
        "[[ |- p |- ( p -> q ) ]] |- ( ( p -> p ) -> q )\n" ++
        "[[ |- p |- ( p -> q ) ]] wff ( p -> p )", [3, 2, 1]) := by decide +kernel
  have hassertion : (detachment.finish.labels.get? "mp").bind Entry.assertion? =
      some detachmentRule := by decide +kernel
  cases hinit : init detachment.finish "mp" with
  | error error =>
    rw [hinit] at hrun
    cases hrun
  | ok start =>
    rw [hinit] at hrun
    have hpair := Option.some.inj hrun
    refine ⟨start, rfl, congrArg Prod.fst hpair, congrArg Prod.snd hpair, ?_⟩
    exact (state_lists_open_goals loaded_detachment (by decide +kernel) hassertion
      (by decide +kernel) hinit deferWithFormula).2

end Session

end Search

end Metamath
