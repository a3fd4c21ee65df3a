import Metamath.Proofs.Application
import Metamath.Proofs.Atomicity
import Metamath.Proofs.TacticState

/-!
# Disjointness conditions in a search

A proof step compares the expressions for variables that have to be disjoint. A tactic does not:
facts are looked up by their hypotheses and their conclusion, and the conditions of the assertions
they come from are not kept. So the conditions can only be met because of something else that is
checked.

There is one such check. Only variables with a typecode can be bound, so if one of two variables has
none in the session, it stays as it is, and no variable with a typecode stands in its place. Nothing
helps where both variables have typecodes. Then all variables can be replaced by one and the same
expression. Of course the instance has to be the goal on top; but a theorem can be deferred with
whatever premise one likes, and the premise is the next goal. The only exceptions are statements
that cannot be written in a tactic, and premises of the theorem, which never become goals.

So a fact is always used in accordance with the conditions exactly if one of the assertions that
state it has no condition on two variables with typecodes.
-/

namespace Metamath

/-- The assertion has the conclusion of the goal, and its hypotheses are the premises of the goal if
both are put one after another. -/
def Assertion.States (assertion : Assertion) (goal : Goal) : Prop :=
  assertion.essential.flatten = goal.premises.flatten ∧ assertion.conclusion = goal.conclusion

instance (assertion : Assertion) (goal : Goal) : Decidable (assertion.States goal) :=
  inferInstanceAs (Decidable (_ ∧ _))

/-! ### One expression for all variables -/

namespace Substitution

variable {vars : List Symbol} {expression : Statement} {v : Symbol}

theorem apply_empty (statement : Statement) : empty.apply statement = statement :=
  List.flatMap_singleton' statement

/-- The substitution that replaces all of the variables by the same expression. -/
def collapse (vars : List Symbol) (expression : Statement) : Substitution :=
  ofList (vars.map fun v => (v, expression))

theorem mem_bindings_collapse {binding : Symbol × Statement}
    (hbinding : binding ∈ (collapse vars expression).bindings) :
    binding.1 ∈ vars ∧ binding.2 = expression := by
  obtain ⟨v, hv, rfl⟩ := List.mem_map.mp (mem_of_mem_bindings_ofList hbinding)
  exact ⟨hv, rfl⟩

theorem get?_collapse (vars : List Symbol) (expression : Statement) (v : Symbol) :
    (collapse vars expression).get? v = if v ∈ vars then some expression else none := by
  rw [collapse]
  induction vars using List.reverseRecOn with
  | nil => rfl
  | append_singleton vars last ih =>
    rw [List.map_append, List.map_singleton, ofList_concat, get?_insert, ih]
    by_cases hv : v = last
    · simp [hv]
    · simp [hv]

theorem image_collapse_of_mem (hv : v ∈ vars) : (collapse vars expression).image v = expression :=
  image_of_get? (by rw [get?_collapse, if_pos hv])

theorem image_collapse_of_not_mem (hv : v ∉ vars) : (collapse vars expression).image v = [v] := by
  rw [image, get?_collapse, if_neg hv, Option.getD_none]

/-- A statement without any of the variables stays as it is, any other one becomes at least as long
as the expression. -/
theorem apply_collapse_eq_or_length_le (vars : List Symbol) (expression statement : Statement) :
    (collapse vars expression).apply statement = statement ∨
      expression.length ≤ ((collapse vars expression).apply statement).length := by
  induction statement with
  | nil => exact .inl rfl
  | cons symbol rest ih =>
    rw [apply_cons, List.length_append]
    by_cases hsymbol : symbol ∈ vars
    · rw [image_collapse_of_mem hsymbol]
      exact .inr (Nat.le_add_right _ _)
    · rw [image_collapse_of_not_mem hsymbol]
      exact ih.imp (congrArg (symbol :: ·)) (Nat.le_add_left_of_le)

/-- A long enough expression brings about a statement that is not in a list, unless there is nothing
to replace. -/
theorem apply_collapse_not_mem (vars : List Symbol) {statement : Statement}
    {statements : List Statement} (hlength : statements.flatten.length < expression.length)
    (hnot : statement ∉ statements) :
    (collapse vars expression).apply statement ∉ statements := by
  intro hmem
  rcases apply_collapse_eq_or_length_le vars expression statement with hsame | hlong
  · exact hnot (hsame ▸ hmem)
  · have hle := (List.sublist_flatten_of_mem hmem).length_le
    omega

end Substitution

/-! ### Writing tactics -/

namespace Tactic

theorem exists_parse_eq {goal : Goal} (hgoal : goal.Legible) (hbare : "\x7b\x7b" ∉ goal.conclusion)
    {blocks : List Block} (hblocks : ∀ block ∈ blocks, ∀ word ∈ block.words, Text.IsWord word) :
    ∃ text, parse text = .ok ⟨goal, .ofList (blocks.map Block.binding)⟩ := by
  obtain ⟨hclosed, hpremises, hconclusion⟩ := Goal.delimited_iff.mp hgoal.toDelimited
  let written : Written := ⟨goal.premises.flatten, goal.conclusion, blocks, hclosed,
    Written.headed_flatten hpremises, hconclusion, hbare⟩
  have hwords : ∀ word ∈ written.words, Text.IsWord word := by
    intro word hword
    have hsplit : word ∈ goal.words ∨ ∃ block ∈ blocks, word ∈ block.words := by
      simpa [written, Written.words, Written.tail, Goal.words, or_assoc] using hword
    rcases hsplit with hword | ⟨block, hblock, hword⟩
    · exact hgoal.isWord word hword
    · exact hblocks block hblock word hword
  refine ⟨String.intercalate " " written.words, parse_eq_ok_iff.mpr ?_⟩
  rw [Text.words_intercalate hwords]
  exact ofWords?_eq_some_iff.mpr ⟨written, rfl, goal.premises, rfl, hpremises, rfl⟩

theorem exists_parse_eq_collapse {goal : Goal} (hgoal : goal.Legible)
    (hbare : "\x7b\x7b" ∉ goal.conclusion) {vars : List Symbol} {expression : Statement}
    (hvars : ∀ v ∈ vars, Text.IsWord v ∧ v ≠ "\x7d\x7d") (hne : expression ≠ [])
    (hexpression : ∀ symbol ∈ expression, Text.IsWord symbol ∧ symbol ≠ "\x7d\x7d") :
    ∃ text, parse text = .ok ⟨goal, .collapse vars expression⟩ := by
  have hclosed : "\x7d\x7d" ∉ expression := fun hmem => (hexpression _ hmem).2 rfl
  let blocks : List Block := vars.attach.map fun v =>
    ⟨v.1, expression, (hvars v.1 v.2).2, hne, hclosed⟩
  have hbindings : blocks.map Block.binding = vars.map fun v => (v, expression) := by
    rw [List.map_map]
    exact List.attach_map_val (f := fun v => (v, expression))
  rw [Substitution.collapse, ← hbindings]
  apply exists_parse_eq hgoal hbare
  intro block hblock word hword
  obtain ⟨v, -, rfl⟩ := List.mem_map.mp hblock
  simp only [Block.words, List.mem_cons, List.mem_append, List.not_mem_nil, or_false] at hword
  rcases hword with rfl | rfl | rfl | hword | rfl
  · decide
  · exact (hvars v.1 v.2).1
  · decide
  · exact (hexpression word hword).1
  · decide

end Tactic

namespace Search.Session

variable {session start result : Session} {facts : Facts} {id : Nat} {text : String}
  {tactic : Tactic} {labels : LabelTable}

/-! ### Lawful tactics -/

/-- No variable with a typecode stands in the expressions for both variables of the pair. -/
def KeepsApart (session : Session) (σ : Substitution) (pair : Pair) : Prop :=
  ∀ v ∈ session.types, v ∈ σ.image pair.1 → v ∉ σ.image pair.2

/-- Some assertion states the goal of the tactic, and the substitution respects all its disjointness
conditions. -/
def Lawful (session : Session) (labels : LabelTable) (tactic : Tactic) : Prop :=
  ∃ assertion ∈ labels.assertions, assertion.States tactic.goal ∧
    ∀ pair ∈ assertion.disjoint, session.KeepsApart tactic.substitution pair

/-- Some assertion states the goal and has no disjointness condition on two variables that both have
a typecode. -/
def Unconditional (session : Session) (labels : LabelTable) (goal : Goal) : Prop :=
  ∃ assertion ∈ labels.assertions, assertion.States goal ∧
    ∀ pair ∈ assertion.disjoint, pair.1 ∈ session.types → pair.2 ∉ session.types

/-- The call is accepted, and not because a goal is deferred: its tactic names a fact. -/
structure Applies (session : Session) (facts : Facts) (id : Nat) (text : String)
    (tactic : Tactic) : Prop where
  parsed : Tactic.parse text = .ok tactic
  known : facts.holds tactic.goal
  accepted : ∃ next, (session.runTactic facts id text).2 = .ok next

theorem mem_types_iff {v : Symbol} :
    v ∈ session.types ↔ ∃ typecode, session.types[v]? = some typecode := by
  rw [Std.TreeMap.mem_iff_isSome_getElem?, Option.isSome_iff_exists]

theorem Applies.exists_typings (happlies : session.Applies facts id text tactic) :
    ∃ typings, session.typings tactic.substitution = .ok typings := by
  obtain ⟨next, hok⟩ := happlies.accepted
  obtain ⟨-, plan, hplan⟩ := exists_plan_of_ok hok
  obtain ⟨found, _, _, _, hparse, -, -, hplanned⟩ := exists_planFor_of_plan hplan
  cases hparse.symm.trans happlies.parsed
  obtain ⟨-, -, typings, htypings, -⟩ := planFor_eq_ok_iff.mp hplanned
  exact ⟨typings, htypings⟩

/-- A symbol without typecode is not bound, so no variable with a typecode comes in its place. -/
theorem mem_types_of_mem_image {σ : Substitution} {typings : List Statement} {v x : Symbol}
    (htypings : session.typings σ = .ok typings) (hv : v ∈ session.types)
    (himage : v ∈ σ.image x) : x ∈ session.types := by
  rw [Substitution.image] at himage
  cases hbound : σ.get? x with
  | none =>
    rw [hbound] at himage
    rwa [← List.mem_singleton.mp himage]
  | some expression =>
    obtain ⟨typecode, htypecode, -⟩ := mem_typings htypings hbound
    exact mem_types_iff.mpr ⟨typecode, htypecode⟩

theorem lawful_of_unconditional {typings : List Statement}
    (htypings : session.typings tactic.substitution = .ok typings)
    (hfree : session.Unconditional labels tactic.goal) : session.Lawful labels tactic := by
  obtain ⟨assertion, hmem, hstates, hpairs⟩ := hfree
  refine ⟨assertion, hmem, hstates, fun pair hpair v hv hfirst hsecond => ?_⟩
  exact hpairs pair hpair (mem_types_of_mem_image htypings hv hfirst)
    (mem_types_of_mem_image htypings hv hsecond)

/-- If all variables with typecodes are replaced by an expression with such a variable in it, then
only facts without conditions are used lawfully. -/
theorem unconditional_of_lawful_collapse {goal : Goal} {expression : Statement} {v : Symbol}
    (hv : v ∈ session.types) (hexpression : v ∈ expression)
    (hlawful : session.Lawful labels ⟨goal, .collapse session.types.keys expression⟩) :
    session.Unconditional labels goal := by
  obtain ⟨assertion, hmem, hstates, hpairs⟩ := hlawful
  refine ⟨assertion, hmem, hstates, fun pair hpair hfirst hsecond => ?_⟩
  have himage : ∀ x ∈ session.types,
      v ∈ (Substitution.collapse session.types.keys expression).image x := by
    intro x hx
    rwa [Substitution.image_collapse_of_mem (Std.TreeMap.mem_keys.mpr hx)]
  exact hpairs pair hpair v hv (himage _ hfirst) (himage _ hsecond)

/-! ### Making an instance the goal -/

/-- The fact can be written as part of a tactic, the goals of the session can be written as
conclusions of tactics, and no variable is one of the marks that hold a tactic together. -/
structure Expressible (session : Session) (goal : Goal) : Prop where
  legible : goal.Legible
  /-- an instance of the conclusion can be a premise of a tactic -/
  premise : IsPremise goal.conclusion ∧ "]]" ∉ goal.conclusion
  bare : "\x7b\x7b" ∉ goal.conclusion
  /-- premises never become goals -/
  unknown : goal.conclusion ∉ session.premises
  goals : ∀ statement ∈ session.openGoals, statement ≠ [] ∧ "\x7b\x7b" ∉ statement ∧
    ∀ symbol ∈ statement, Text.IsWord symbol
  vars : ∀ v ∈ session.types, Text.IsWord v ∧ v ∉ ["|-", "]]", "\x7d\x7d"]

theorem Expressible.ne_mark {goal : Goal} (hexpressible : session.Expressible goal)
    {v mark : Symbol} (hv : v ∈ session.types) (hmark : mark ∈ ["|-", "]]", "\x7d\x7d"]) :
    v ≠ mark := by
  rintro rfl
  exact (hexpressible.vars v hv).2 hmark

theorem exists_typings_of_forall_mem {σ : Substitution}
    (hbindings : ∀ binding ∈ σ.bindings, binding.1 ∈ session.types) :
    ∃ typings, session.typings σ = .ok typings := by
  refine ⟨σ.bindings.map fun binding => session.types.getD binding.1 "" :: binding.2,
    mapM_eq_ok_iff.mpr ?_⟩
  rw [List.forall₂_map_right_iff, List.forall₂_same]
  intro binding hbinding
  rw [Std.TreeMap.getD_eq_getD_getElem?,
    Std.TreeMap.getElem?_eq_some_getElem (hbindings binding hbinding)]
  rfl

/-- A tactic is planned for the goal on top. -/
theorem plan_eq_of_planFor {plan : Plan} {target : Nat} {tail : List Nat} {node : Node}
    (hgoals : session.goals = target :: tail) (hnode : session.nodes[target]? = some node)
    (hparse : Tactic.parse text = .ok tactic)
    (hplanned : session.planFor facts target node.statement tactic = .ok plan) :
    session.plan facts session.stateId text = .ok plan := by
  simp [Session.plan, hparse, hgoals, hnode, hplanned]

/-- Any statement with its turnstile in front can be made the next goal. -/
theorem exists_plan_of_premise (facts : Facts) {target : Nat} {tail : List Nat} {node : Node}
    {premise : Statement} (hgoals : session.goals = target :: tail)
    (hnode : session.nodes[target]? = some node)
    (hwritten : (Goal.mk [premise] node.statement).Legible)
    (hbare : "\x7b\x7b" ∉ node.statement) (hpremises : premise ∉ session.premises)
    (hproved : ¬ session.proved.contains premise) :
    ∃ text plan, session.plan facts session.stateId text = .ok plan ∧
      plan.subgoals = [premise] := by
  have hblocks : ∀ block ∈ ([] : List Tactic.Block), ∀ word ∈ block.words, Text.IsWord word := by
    simp
  obtain ⟨text, hparse⟩ := Tactic.exists_parse_eq hwritten hbare hblocks
  refine ⟨text, _, plan_eq_of_planFor hgoals hnode hparse (planFor_eq_ok_iff.mpr
    ⟨Substitution.apply_empty node.statement, .inr rfl, [], rfl, rfl⟩), ?_⟩
  have hinstance : (Substitution.ofList []).apply premise = premise :=
    Substitution.apply_empty premise
  simp [subgoals, hinstance, hpremises, hproved]

/-- A single subgoal is on top after the tactic. -/
theorem Advances.exists_top {premise : Statement} (hadvances : session.Advances [premise] result) :
    ∃ target tail, result.goals = target :: tail ∧ result.status = .active ∧
      ∃ node, result.nodes[target]? = some node ∧ node.statement = premise := by
  have hgoals : result.goals = session.nodes.size :: session.goals.tail := hadvances.goals
  have hstatus := hadvances.status
  rw [if_neg (hgoals ▸ List.cons_ne_nil _ _)] at hstatus
  exact ⟨_, _, hgoals, hstatus, _, hadvances.created 0 premise rfl, rfl⟩

theorem forall_mem_apply_collapse {expression statement : Statement} {P : Symbol → Prop}
    (hexpression : ∀ symbol ∈ expression, symbol ∈ session.types)
    (hvars : ∀ v ∈ session.types, P v) (hstatement : ∀ symbol ∈ statement, P symbol) :
    ∀ symbol ∈ (Substitution.collapse session.types.keys expression).apply statement, P symbol := by
  refine Substitution.forall_mem_apply (fun binding hbinding symbol hsymbol => ?_) hstatement
  rw [(Substitution.mem_bindings_collapse hbinding).2] at hsymbol
  exact hvars symbol (hexpression symbol hsymbol)

/-- An instance of the conclusion still has its turnstile in front and nowhere else. -/
theorem Expressible.isPremise_apply {goal : Goal} (hexpressible : session.Expressible goal)
    {expression : Statement} (hexpression : ∀ symbol ∈ expression, symbol ∈ session.types) :
    IsPremise ((Substitution.collapse session.types.keys expression).apply goal.conclusion) := by
  have hturnstile : ∀ v ∈ session.types, v ≠ "|-" := fun v hv =>
    hexpressible.ne_mark hv (by decide)
  obtain ⟨rest, hconclusion, hrest⟩ := isPremise_iff.mp hexpressible.premise.1
  have hfixed : "|-" ∉ session.types.keys := fun hmem =>
    hturnstile _ (Std.TreeMap.mem_keys.mp hmem) rfl
  rw [hconclusion, Substitution.apply_cons, Substitution.image_collapse_of_not_mem hfixed]
  refine isPremise_iff.mpr ⟨_, rfl, fun hmem => ?_⟩
  refine forall_mem_apply_collapse hexpression hturnstile (fun symbol hsymbol heq => ?_) _ hmem rfl
  exact hrest (heq ▸ hsymbol)

/-- A tactic can be written whose conclusion is an open goal and whose premise is the instance. -/
theorem Expressible.legible_premise {goal : Goal} (hexpressible : session.Expressible goal)
    {statement : Statement} (hstatement : statement ∈ session.openGoals) {expression : Statement}
    (hexpression : ∀ symbol ∈ expression, symbol ∈ session.types) :
    (Goal.mk [(Substitution.collapse session.types.keys expression).apply goal.conclusion]
      statement).Legible := by
  obtain ⟨hne, -, hwords⟩ := hexpressible.goals statement hstatement
  refine ⟨⟨List.forall_mem_singleton.mpr ⟨hexpressible.isPremise_apply hexpression, ?_⟩, hne⟩,
    List.forall_mem_cons.mpr ⟨hwords, List.forall_mem_singleton.mpr ?_⟩⟩
  · intro hmem
    refine forall_mem_apply_collapse (P := (· ≠ "]]")) hexpression
      (fun v hv => hexpressible.ne_mark hv (by decide)) ?_ _ hmem rfl
    rintro symbol hsymbol rfl
    exact hexpressible.premise.2 hsymbol
  · exact forall_mem_apply_collapse hexpression (fun v hv => (hexpressible.vars v hv).1)
      (hexpressible.legible.symbols _ List.mem_cons_self)

/-- A fact can be applied to a goal that is an instance of its conclusion with one expression in the
place of all variables. -/
theorem exists_applies_of_top {goal : Goal} (hexpressible : start.Expressible goal)
    (hholds : facts.holds goal) (htypes : session.types = start.types)
    (hactive : session.status = .active) {target : Nat} {tail : List Nat} {node : Node}
    (hgoals : session.goals = target :: tail) (hnode : session.nodes[target]? = some node)
    {expression : Statement} (hne : expression ≠ [])
    (hexpression : ∀ symbol ∈ expression, symbol ∈ start.types)
    (hinstance : node.statement =
      (Substitution.collapse start.types.keys expression).apply goal.conclusion) :
    ∃ text, session.Applies facts session.stateId text
      ⟨goal, .collapse start.types.keys expression⟩ := by
  have hword : ∀ v ∈ start.types, Text.IsWord v ∧ v ≠ "\x7d\x7d" := fun v hv =>
    ⟨(hexpressible.vars v hv).1, hexpressible.ne_mark hv (by decide)⟩
  obtain ⟨text, hparse⟩ := Tactic.exists_parse_eq_collapse hexpressible.legible hexpressible.bare
    (fun v hv => hword v (Std.TreeMap.mem_keys.mp hv)) hne
    fun symbol hsymbol => hword symbol (hexpression symbol hsymbol)
  obtain ⟨typings, htypings⟩ : ∃ typings,
      session.typings (.collapse start.types.keys expression) = .ok typings := by
    apply exists_typings_of_forall_mem
    intro binding hbinding
    rw [htypes]
    exact Std.TreeMap.mem_keys.mp (Substitution.mem_bindings_collapse hbinding).1
  have hplan := plan_eq_of_planFor hgoals hnode hparse
    (planFor_eq_ok_iff.mpr ⟨hinstance.symm, .inl hholds, typings, htypings, rfl⟩)
  exact ⟨text, hparse, hholds, _, congrArg Prod.snd (runTactic_of_plan_ok hactive hplan)⟩

/-- From the start of a session two calls suffice: one makes the instance a goal, the other one
applies the fact to it. -/
theorem exists_applies {database : Database} {label : Symbol}
    (hinit : init database label = .ok start) {goal : Goal} (hexpressible : start.Expressible goal)
    (hholds : facts.holds goal) {v : Symbol} (hv : v ∈ start.types) :
    ∃ calls id text expression, v ∈ expression ∧ (start.runTactics facts calls).Applies facts id
      text ⟨goal, .collapse start.types.keys expression⟩ := by
  obtain ⟨assertion, -, hactive, -, hgoals, hnodes, hproved, -⟩ := exists_root_of_init hinit
  -- longer than any premise, so that the instance is none of them
  let expression := List.replicate (start.premises.flatten.length + 1) v
  have hexpression : ∀ symbol ∈ expression, symbol ∈ start.types := by
    intro symbol hsymbol
    rwa [(List.mem_replicate.mp hsymbol).2]
  have hmem : v ∈ expression := List.mem_replicate.mpr ⟨Nat.succ_ne_zero _, rfl⟩
  have hnode : start.nodes[0]? = some ⟨assertion.conclusion, 0, none, true⟩ := by
    rw [hnodes]
    rfl
  have hopen : assertion.conclusion ∈ start.openGoals := by
    simp [openGoals, hgoals, hnode]
  have hlength : start.premises.flatten.length < expression.length := by
    rw [List.length_replicate]
    exact Nat.lt_succ_self _
  have hnew := Substitution.apply_collapse_not_mem start.types.keys hlength hexpressible.unknown
  obtain ⟨first, plan, hplan, hsubgoals⟩ := exists_plan_of_premise facts hgoals hnode
    (hexpressible.legible_premise hopen hexpression) (hexpressible.goals _ hopen).2.1 hnew
    (by simp [hproved])
  have hadvances := advances_execute (balanced_init hinit).tallied.tree hactive hplan
  rw [hsubgoals] at hadvances
  obtain ⟨target, tail, hgoals', hactive', node, hnode', hinstance⟩ := hadvances.exists_top
  obtain ⟨second, happlies⟩ := exists_applies_of_top hexpressible hholds hadvances.types hactive'
    hgoals' hnode' (List.ne_nil_of_mem hmem) hexpression hinstance
  refine ⟨[(start.stateId, first)], (start.execute plan).stateId, second, expression, hmem, ?_⟩
  rw [runTactics_cons, runTactic_of_plan_ok hactive hplan]
  exact happlies

/-! ### The conditions on a run -/

theorem mem_typesOf_of_mem {entries : List (Symbol × Entry)} {label v typecode : Symbol}
    (hmem : (label, .floating [typecode, v]) ∈ entries) : v ∈ typesOf entries := by
  induction entries using List.reverseRecOn with
  | nil => cases hmem
  | append_singleton entries last ih =>
    rw [typesOf, List.foldl_concat, ← typesOf]
    rcases List.mem_append.mp hmem with hearlier | hlast
    · split
      · exact Std.TreeMap.mem_insert.mpr (.inr (ih hearlier))
      · exact ih hearlier
    · cases List.mem_singleton.mp hlast
      exact Std.TreeMap.mem_insert_self

/-- The variables with typecodes are those of the floating hypotheses before the theorem. -/
theorem mem_types_iff_of_init {database : Database} {label : Symbol}
    (hinit : init database label = .ok start) {v : Symbol} :
    v ∈ start.types ↔
      ∃ other typecode, (other, .floating [typecode, v]) ∈ database.labels.before label := by
  obtain ⟨-, -, -, -, -, -, -, htypes⟩ := exists_root_of_init hinit
  rw [mem_types_iff, htypes]
  constructor
  · rintro ⟨typecode, htypecode⟩
    obtain ⟨other, hother⟩ := exists_floating_of_typesOf htypecode
    exact ⟨other, typecode, hother⟩
  · rintro ⟨other, typecode, hother⟩
    exact Option.isSome_iff_exists.mp
      (Std.TreeMap.mem_iff_isSome_getElem?.mp (mem_typesOf_of_mem hother))

theorem types_runTactics {database : Database} {label : Symbol}
    (hinit : init database label = .ok start) (calls : List (Nat × String)) :
    (start.runTactics database.facts calls).types = start.types := by
  obtain ⟨assertion, hassertion, -⟩ := exists_root_of_init hinit
  exact ((sound_init hassertion hinit).runTactics calls).types_eq

/-- An instance that is not lawful is refused in a proof, if the variables with typecodes are
active. -/
theorem exists_conclude_eq_error_of_not_lawful (hlawful : ¬ session.Lawful labels tactic)
    {assertion : Assertion} (hmem : assertion ∈ labels.assertions)
    (hstates : assertion.States tactic.goal) (hwell : assertion.WellFormed) {σ : Substitution}
    (hbinds : σ.Binds assertion.vars)
    (hsame : ∀ v ∈ assertion.vars, σ.image v = tactic.substitution.image v) {env : Environment}
    (hactive : ∀ v ∈ session.types, env.isVariable v) :
    ∃ x y, Proof.conclude env assertion (assertion.hypotheses σ) =
      .error (.disjointViolation x y) := by
  obtain ⟨pair, hpair, hapart⟩ :
      ∃ pair ∈ assertion.disjoint, ¬ session.KeepsApart tactic.substitution pair := by
    by_contra hall
    push Not at hall
    exact hlawful ⟨assertion, hmem, hstates, hall⟩
  obtain ⟨v, hv, hfirst, hsecond⟩ : ∃ v ∈ session.types,
      v ∈ tactic.substitution.image pair.1 ∧ v ∈ tactic.substitution.image pair.2 := by
    rw [KeepsApart] at hapart
    push Not at hapart
    exact hapart
  refine Proof.exists_conclude_eq_error hwell hbinds hpair fun hseparates => ?_
  rw [← hsame _ (hwell.typed pair hpair).1] at hfirst
  rw [← hsame _ (hwell.typed pair hpair).2] at hsecond
  exact (hseparates v hfirst v hsecond (hactive v hv) (hactive v hv)).1 rfl

/-- An accepted tactic is lawful if one of the assertions it names has no conditions. -/
theorem Applies.lawful {database : Database} {label : Symbol}
    (hinit : init database label = .ok start) {calls : List (Nat × String)}
    (happlies : (start.runTactics database.facts calls).Applies database.facts id text tactic)
    (hfree : start.Unconditional labels tactic.goal) : start.Lawful labels tactic := by
  obtain ⟨typings, htypings⟩ := happlies.exists_typings
  rw [Session.typings, types_runTactics hinit] at htypings
  exact lawful_of_unconditional htypings hfree

/-- If a fact is never used unlawfully, one of the assertions that state it has no conditions. -/
theorem unconditional_of_forall_lawful {database : Database} {label : Symbol}
    (hinit : init database label = .ok start) {goal : Goal} (hexpressible : start.Expressible goal)
    (hholds : facts.holds goal) (hstated : ∃ assertion ∈ labels.assertions, assertion.States goal)
    (hlawful : ∀ calls id text tactic,
      (start.runTactics facts calls).Applies facts id text tactic → tactic.goal = goal →
      start.Lawful labels tactic) : start.Unconditional labels goal := by
  by_cases hvars : ∃ v, v ∈ start.types
  · obtain ⟨v, hv⟩ := hvars
    obtain ⟨calls, id, text, expression, hexpression, happlies⟩ :=
      exists_applies hinit hexpressible hholds hv
    exact unconditional_of_lawful_collapse hv hexpression (hlawful calls id text _ happlies rfl)
  · obtain ⟨assertion, hmem, hstates⟩ := hstated
    exact ⟨assertion, hmem, hstates, fun pair _ hfirst => absurd ⟨pair.1, hfirst⟩ hvars⟩

/-- Call a tactic lawful if one of the assertions that state its goal has all its conditions
respected, which means that no variable of a floating hypothesis before the theorem stands in the
expressions for both variables of a condition. At every moment of a session, an accepted tactic that
defers nothing names an assertion, and it is lawful if one of the assertions it names has no
condition on two variables that both have a floating hypothesis before the theorem. For each fact
that can be written this is the exact condition: without it some run of the session accepts an
unlawful tactic with that fact. A proof step with the same assertion and the same substitution is
refused then, as long as the variables are active. -/
theorem lawful_iff_unconditional (builder : Database.Builder) {label : Symbol}
    (hinit : init builder.finish label = .ok start) :
    (∀ v, v ∈ start.types ↔
      ∃ other typecode, (other, .floating [typecode, v]) ∈ builder.finish.labels.before label) ∧
    (∀ calls id text tactic,
      (start.runTactics builder.finish.facts calls).Applies builder.finish.facts id text tactic →
        (∃ assertion ∈ builder.finish.labels.assertions, assertion.States tactic.goal) ∧
        (start.Unconditional builder.finish.labels tactic.goal →
          start.Lawful builder.finish.labels tactic)) ∧
    (∀ goal, start.Expressible goal → builder.finish.facts.holds goal →
      ((∀ calls id text tactic,
        (start.runTactics builder.finish.facts calls).Applies builder.finish.facts id text tactic →
          tactic.goal = goal → start.Lawful builder.finish.labels tactic) ↔
        start.Unconditional builder.finish.labels goal)) ∧
    (builder.Reached → ∀ tactic, ¬ start.Lawful builder.finish.labels tactic →
      ∀ assertion ∈ builder.finish.labels.assertions, assertion.States tactic.goal →
      ∀ (σ : Substitution) (env : Environment), σ.Binds assertion.vars →
        (∀ v ∈ assertion.vars, σ.image v = tactic.substitution.image v) →
        (∀ v ∈ start.types, env.isVariable v) →
        ∃ x y, Proof.conclude env assertion (assertion.hypotheses σ) =
          .error (.disjointViolation x y)) := by
  refine ⟨fun v => mem_types_iff_of_init hinit, fun calls id text tactic happlies => ?_,
    fun goal hexpressible hholds => ⟨?_, ?_⟩, ?_⟩
  · exact ⟨Facts.holds_ofLabels_iff.mp happlies.known, happlies.lawful hinit⟩
  · exact unconditional_of_forall_lawful hinit hexpressible hholds
      (Facts.holds_ofLabels_iff.mp hholds)
  · rintro hfree calls id text tactic happlies rfl
    exact happlies.lawful hinit hfree
  · intro hreached tactic hnot assertion hmem hstates σ env hbinds hsame hactive
    obtain ⟨⟨other, entry⟩, hentry, hassertion⟩ := List.mem_filterMap.mp hmem
    have hvalid := hreached.orderly.valid
    have htyped := hvalid.wellTyped other entry assertion
      (LabelTable.mem_toList_iff.mp hentry) hassertion
    exact exists_conclude_eq_error_of_not_lawful hnot hmem hstates htyped.wellFormed hbinds hsame
      hactive

/-- The tokens of an axiom for two distinct variables, and those of something after it. -/
def distinctTokens (rest : List String) : List (Except Inclusion.Error Token) :=
  (["$c", "|-", "wff", "->", "$.", "$v", "x", "y", "$.", "wx", "$f", "wff", "x", "$.",
    "wy", "$f", "wff", "y", "$.", "$\x7b", "$d", "x", "y", "$.", "ax", "$a", "|-", "x", "->", "y",
    "$.", "$\x7d"] ++ rest).map fun word => .ok (.ofRun word.toList)

/-- The builder that has read the axiom and another one, which says the same about one variable. -/
def distinct : Database.Builder :=
  ((Database.Builder.new ⟨none, none⟩).read Database.Check.run
    (distinctTokens ["th", "$a", "|-", "x", "->", "x", "$."])).builder

/-- What the axiom says. -/
def distinctGoal : Goal :=
  ⟨[], ["|-", "x", "->", "y"]⟩

theorem mem_disjoint_of_states_distinctGoal : ∀ assertion ∈ distinct.finish.labels.assertions,
    assertion.States distinctGoal → ("x", "y") ∈ assertion.disjoint := by
  decide +kernel

/-- The axiom for two variables can be used unlawfully, the one for a single variable cannot. -/
theorem lawful_iff_unconditional_distinct : ∃ start : Session,
    init distinct.finish "th" = .ok start ∧ distinct.Reached ∧ start.Expressible distinctGoal ∧
    (∃ calls id text tactic,
      (start.runTactics distinct.finish.facts calls).Applies distinct.finish.facts id text tactic ∧
      tactic.goal = distinctGoal ∧ ¬ start.Lawful distinct.finish.labels tactic) ∧
    ∀ calls id text tactic,
      (start.runTactics distinct.finish.facts calls).Applies distinct.finish.facts id text tactic →
      tactic.goal = ⟨[], ["|-", "x", "->", "x"]⟩ →
      start.Lawful distinct.finish.labels tactic := by
  obtain ⟨start, hinit, hopen, hkeys, hpremises⟩ : ∃ start : Session,
      init distinct.finish "th" = .ok start ∧ start.openGoals = [["|-", "x", "->", "x"]] ∧
      start.types.keys = ["x", "y"] ∧ start.premises = [] :=
    ⟨_, rfl, by decide +kernel, by decide +kernel, by decide +kernel⟩
  have hexpressible : start.Expressible distinctGoal := by
    have hparse : Goal.parse "[[ ]] |- x -> y" = .ok distinctGoal := by decide +kernel
    refine ⟨Goal.legible_of_parse hparse, by decide, by decide, ?_, ?_, fun v hv => ?_⟩
    · simp [hpremises]
    · rw [hopen]
      decide
    · rw [← Std.TreeMap.mem_keys, hkeys] at hv
      revert v
      decide
  obtain ⟨-, haccepted, hexact, -⟩ := lawful_iff_unconditional distinct hinit
  refine ⟨start, hinit, .read Database.Check.run _ (.new ⟨none, none⟩), hexpressible, ?_, ?_⟩
  · by_contra hall
    push Not at hall
    obtain ⟨assertion, hmem, hstates, hpairs⟩ :=
      (hexact distinctGoal hexpressible (by decide +kernel)).mp hall
    have hpair := mem_disjoint_of_states_distinctGoal assertion hmem hstates
    refine hpairs _ hpair ?_ ?_ <;> simp [← Std.TreeMap.mem_keys, hkeys]
  · intro calls id text tactic happlies hgoal
    refine (haccepted calls id text tactic happlies).2 ?_
    rw [hgoal]
    exact ⟨⟨[], [⟨"wff", "x"⟩], [], ["|-", "x", "->", "x"]⟩, by decide +kernel, ⟨rfl, rfl⟩,
      List.forall_mem_nil _⟩

/-- The axiom proves in a search what it does not prove in a database. -/
theorem equal_variables_accepted : ∃ (start : Session) (tactic : Tactic),
    init distinct.finish "th" = .ok start ∧
    start.Applies distinct.finish.facts 0 "[[ ]] |- x -> y \x7b\x7b y : x \x7d\x7d" tactic ∧
    ¬ start.Lawful distinct.finish.labels tactic ∧
    (start.runTactics distinct.finish.facts
      [(0, "[[ ]] |- x -> y \x7b\x7b y : x \x7d\x7d")]).proved.toList = [["|-", "x", "->", "x"]] ∧
    ((Database.Builder.new ⟨none, none⟩).read Database.Check.run
      (distinctTokens
        ["th", "$p", "|-", "x", "->", "x", "$=", "wx", "wx", "ax", "$."])).result =
      .error ⟨some ⟨.labelled .provable, some "th"⟩, .proof (.disjointViolation "x" "x")⟩ := by
  refine ⟨_, ⟨distinctGoal, ⟨[("y", ["x"])]⟩⟩, rfl,
    ⟨by decide +kernel, by decide +kernel, 1, by decide +kernel⟩, ?_, by decide +kernel,
    by decide +kernel⟩
  rintro ⟨assertion, hmem, hstates, hpairs⟩
  have hpair := mem_disjoint_of_states_distinctGoal assertion hmem hstates
  exact hpairs _ hpair "x" (by decide +kernel) (by decide +kernel) (by decide +kernel)

end Search.Session

end Metamath
