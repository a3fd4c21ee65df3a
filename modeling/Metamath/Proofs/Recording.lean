import Mathlib.Logic.Relation
import Metamath.Proofs.Blocks
import Metamath.Proofs.Reading

/-!
# What builders record

A builder can be used again after a read, also after one that failed. The statements that a failed
read completed stay recorded then, and the blocks that it opened stay open, so the next read begins
inside of them. What is said here holds of every builder that reads lead to, however they ended and
whatever was answered to their checks.

The main statement is that recorded assertions are fit for use: they type each variable that occurs
in them exactly once and type nothing else, all their other symbols are constants, and their
disjointness conditions are listed in order and are about their own variables. An assertion is made
from all open blocks at once, so this rests on what every open block guarantees. The guarantees that
concern labels have no part in it; they are kept here because the same steps preserve them.
-/

namespace Metamath

/-! ### Reads one after another -/

namespace Database

/-- What a read does to a builder at a time: it reads a token, or it closes blocks at its end. -/
inductive Builder.Move (builder : Builder) : Builder → Prop where
  | step {check : Option Check} {result : Builder} (hstep : builder.Step check result) :
      Move builder result
  | truncate (depth : Nat) : Move builder (builder.truncate depth)

/-- One builder results from another one by reading. -/
def Builder.Leads : Builder → Builder → Prop :=
  Relation.ReflTransGen Builder.Move

namespace Reading

variable {reading : Reading} {accept : Check → Except Error Unit}

theorem finish_leads (reading : Reading) : reading.builder.Leads reading.finish.1 := by
  rcases reading.finish_fst with hfinish | hfinish <;> rw [hfinish]
  · exact .refl
  · exact .single (.truncate reading.floor)

/-- A read does nothing else, also if it fails. -/
theorem run_leads (hchecked : reading.Checked) (items : List (Except Inclusion.Error Token)) :
    reading.builder.Leads (reading.run accept items).builder := by
  induction items generalizing reading with
  | nil => exact finish_leads reading
  | cons item rest ih =>
    by_cases hstopped : reading.builder.stopped
    · rw [run_of_stopped hstopped]
      exact finish_leads reading
    · cases item with
      | error error =>
        rw [run_cons_error hstopped]
        exact .refl
      | ok token =>
        have hfollows := feed_follows hchecked token
        cases hfeed : reading.feed token with
        | refused error builder =>
          rw [hfeed] at hfollows
          rw [run_cons_of_refused hstopped hfeed]
          exact .single (.step hfollows)
        | more next =>
          rw [hfeed] at hfollows
          rw [run_cons_of_more hstopped hfeed]
          exact .head (.step hfollows.1) (ih hfollows.2)
        | check given next =>
          rw [hfeed] at hfollows
          cases haccept : accept given with
          | error error =>
            rw [run_cons_of_rejected hstopped hfeed haccept]
            exact .single (.step hfollows.1)
          | ok accepted =>
            rw [run_cons_of_accepted hstopped hfeed haccept]
            exact .head (.step hfollows.1) (ih hfollows.2)

end Reading

namespace Builder

variable {builder result : Builder}

/-- A builder that any number of reads lead to. Each of them may succeed or fail, and for each of
them the checks may be answered in another way. -/
inductive Reached : Builder → Prop where
  | new (bounds : Bounds) : Reached (new bounds)
  | read {builder : Builder} (accept : Check → Except Error Unit)
      (tokens : List (Except Inclusion.Error Token)) :
      Reached builder → Reached (builder.read accept tokens).builder

theorem read_leads (builder : Builder) (accept : Check → Except Error Unit)
    (tokens : List (Except Inclusion.Error Token)) :
    builder.Leads (builder.read accept tokens).builder := by
  have hchecked : (Reading.start builder).Checked := nofun
  exact .head (.step .enter) (Reading.run_leads hchecked tokens)

theorem Leads.invariant {P : Builder → Prop}
    (hmove : ∀ builder result, P builder → builder.Move result → P result)
    (hleads : builder.Leads result) (hbuilder : P builder) : P result := by
  induction hleads with
  | refl => exact hbuilder
  | tail _ hlast ih => exact hmove _ _ ih hlast

theorem Reached.invariant {P : Builder → Prop} (hnew : ∀ bounds, P (Builder.new bounds))
    (hmove : ∀ builder result, P builder → builder.Move result → P result)
    (hreached : builder.Reached) : P builder := by
  induction hreached with
  | new bounds => exact hnew bounds
  | read accept tokens _ ih => exact (read_leads _ accept tokens).invariant hmove ih

end Builder

end Database

/-! ### What every open block guarantees -/

/-- A pair is listed before another one. -/
def Pair.Precedes (first second : Pair) : Prop :=
  first.1 < second.1 ∨ first.1 = second.1 ∧ first.2 < second.2

theorem Pair.precedes_of_compareLexically {first second : Pair}
    (hless : compareLexically first second = .lt) : first.Precedes second := by
  simp only [compareLexically, compareLex, compareOn, Ordering.then_eq_lt,
    Std.LawfulEqOrd.compare_eq_iff_eq] at hless
  exact hless.imp compareOfLessAndEq_eq_lt.mp (And.imp_right compareOfLessAndEq_eq_lt.mp)

theorem Pair.of_fst_lt_snd {x y : Symbol} (hne : x ≠ y) : (Pair.of x y).1 < (Pair.of x y).2 := by
  rw [Pair.of]
  split_ifs with hle
  · exact String.not_le.mp fun hge => hne (String.le_antisymm hle hge)
  · exact String.not_le.mp hle

/-- Pairs of variables are stored with the smaller one first. -/
def Environment.Ordered (env : Environment) : Prop :=
  ∀ pair, env.disjoint.contains pair → pair.1 < pair.2

theorem Environment.Ordered.addDisjoint {env : Environment} (hordered : env.Ordered)
    (vars : List Symbol) : (env.addDisjoint vars).Ordered := by
  intro pair hpair
  rcases contains_disjoint_addDisjoint.mp hpair with ⟨x, -, y, -, hne, rfl⟩ | hold
  · exact Pair.of_fst_lt_snd hne.symm
  · exact hordered pair hold

namespace Place

/-- Hypotheses are not empty and can be found by their labels, and pairs of variables are stored
with the smaller one first. -/
structure Orderly (labels : LabelTable) (place : Place) : Prop where
  ordered : ∀ pair, place.environment.disjoint.contains pair → pair.1 < pair.2
  nonempty : ∀ statement ∈ place.essential, statement ≠ []
  floating : ∀ typing ∈ place.floating, ∃ label,
    place.environment.floatingLabel? typing.var = some label ∧
    place.environment.isHypothesis label ∧
    labels.get? label = some (.floating typing.statement)
  essential : ∀ statement ∈ place.essential,
    (place.environment.essentialLabel? statement).isSome
  /-- the label of a statement may be that of an earlier hypothesis with the same symbols -/
  earliest : ∀ statement label, place.environment.essentialLabel? statement = some label →
    place.environment.isHypothesis label ∧ labels.get? label = some (.essential statement)

variable {labels larger : LabelTable} {place : Place} {label : Symbol}

theorem Orderly.addDisjoint (horderly : place.Orderly labels) (vars : List Symbol) :
    Orderly labels { place with environment := place.environment.addDisjoint vars } :=
  { horderly with ordered := Environment.Ordered.addDisjoint horderly.ordered vars }

theorem Orderly.define {entry : Entry} (hinsert : labels.insert? label entry = some larger)
    (horderly : place.Orderly labels) : place.Orderly larger := by
  refine { horderly with
    floating := fun typing htyping => ?_
    earliest := fun statement other hother => ?_ }
  · obtain ⟨other, hlabel, hactive, hget⟩ := horderly.floating typing htyping
    exact ⟨other, hlabel, hactive, LabelTable.get?_mono hinsert hget⟩
  · obtain ⟨hactive, hget⟩ := horderly.earliest statement other hother
    exact ⟨hactive, LabelTable.get?_mono hinsert hget⟩

theorem Orderly.addFloating {typing : Typing}
    (hinsert : labels.insert? label (.floating typing.statement) = some larger)
    (horderly : place.Orderly labels)
    (huntyped : ¬ (place.environment.floatingLabel? typing.var).isSome) :
    Orderly larger { place with
      environment := place.environment.addFloating typing.var label
      floating := place.floating ++ [typing] } := by
  have hlarger := horderly.define hinsert
  refine ⟨hlarger.ordered, hlarger.nonempty, fun other hother => ?_, hlarger.essential,
    fun statement found hfound => ?_⟩
  · rw [Environment.floatingLabel?_addFloating]
    rcases List.mem_append.mp hother with hold | hself
    · obtain ⟨found, hlabel, hactive, hget⟩ := hlarger.floating other hold
      -- a variable that was typed before is not the one that is typed now
      have hne : other.var ≠ typing.var := fun heq => huntyped (by rw [← heq, hlabel]; rfl)
      rw [if_neg hne]
      exact ⟨found, hlabel, Environment.isHypothesis_addFloating.mpr (.inr hactive), hget⟩
    · obtain rfl := List.mem_singleton.mp hself
      rw [if_pos rfl]
      refine ⟨label, rfl, Environment.isHypothesis_addFloating.mpr (.inl rfl), ?_⟩
      rw [LabelTable.get?_of_insert? hinsert, if_pos rfl]
  · obtain ⟨hactive, hget⟩ := hlarger.earliest statement found hfound
    exact ⟨Environment.isHypothesis_addFloating.mpr (.inr hactive), hget⟩

theorem Orderly.addEssential {statement : Statement}
    (hinsert : labels.insert? label (.essential statement) = some larger)
    (horderly : place.Orderly labels) (hstatement : statement ≠ []) :
    Orderly larger { place with
      environment := place.environment.addEssential statement label
      essential := place.essential ++ [statement] } := by
  have hlarger := horderly.define hinsert
  refine ⟨hlarger.ordered, fun other hother => ?_, fun typing htyping => ?_,
    fun other hother => ?_, fun other found hfound => ?_⟩
  · rcases List.mem_append.mp hother with hold | hself
    · exact hlarger.nonempty other hold
    · rw [List.mem_singleton.mp hself]
      exact hstatement
  · obtain ⟨found, hlabel, hactive, hget⟩ := hlarger.floating typing htyping
    exact ⟨found, hlabel, Environment.isHypothesis_addEssential.mpr (.inr hactive), hget⟩
  · rw [Environment.essentialLabel?_addEssential, Option.isSome_or]
    rcases List.mem_append.mp hother with hold | hself
    · rw [hlarger.essential other hold, Bool.true_or]
    · rw [if_pos (List.mem_singleton.mp hself), Option.isSome_some, Bool.or_true]
  · rw [Environment.essentialLabel?_addEssential, Option.or_eq_some_iff] at hfound
    rcases hfound with hold | ⟨-, hnew⟩
    · obtain ⟨hactive, hget⟩ := hlarger.earliest other found hold
      exact ⟨Environment.isHypothesis_addEssential.mpr (.inr hactive), hget⟩
    · split_ifs at hnew with hsame
      cases hnew
      refine ⟨Environment.isHypothesis_addEssential.mpr (.inl rfl), ?_⟩
      rw [LabelTable.get?_of_insert? hinsert, if_pos rfl, hsame]

end Place

namespace Scope

variable {P Q : Place → Prop} {scope result : Scope} {symbol label : Symbol}

/-- All open blocks have a property, and the place outside of them has it, too. -/
def Everywhere (P : Place → Prop) (scope : Scope) : Prop :=
  ∀ frames, frames <:+ scope.frames → P (place ⟨scope.constants, frames⟩)

theorem Everywhere.here (heverywhere : scope.Everywhere P) : P scope.place :=
  heverywhere scope.frames List.suffix_rfl

theorem Everywhere.mono (himp : ∀ place, P place → Q place) (heverywhere : scope.Everywhere P) :
    scope.Everywhere Q :=
  fun frames hsuffix => himp _ (heverywhere frames hsuffix)

theorem Everywhere.push (heverywhere : scope.Everywhere P) : scope.push.Everywhere P := by
  intro frames hsuffix
  rcases List.suffix_cons_iff.mp hsuffix with rfl | houter
  · show P scope.push.place
    rw [place_push]
    exact heverywhere.here
  · exact heverywhere frames houter

/-- Blocks may be closed. -/
theorem Everywhere.of_suffix (heverywhere : scope.Everywhere P)
    (hconstants : result.constants = scope.constants) (hframes : result.frames <:+ scope.frames) :
    result.Everywhere P := by
  intro frames hsuffix
  rw [hconstants]
  exact heverywhere frames (hsuffix.trans hframes)

/-- To change the innermost block, it suffices to look at it. -/
theorem Everywhere.modifyTop {change : Frame → Frame} (heverywhere : scope.Everywhere P)
    (hmodify : scope.modifyTop change = .ok result) (himp : ∀ place, P place → Q place)
    (htop : ∀ frame outer, scope.frames = frame :: outer →
      P (place ⟨scope.constants, frame :: outer⟩) →
      Q (place ⟨scope.constants, change frame :: outer⟩)) :
    result.Everywhere Q := by
  obtain ⟨frame, outer, hframes, rfl⟩ := modifyTop_eq_ok_iff.mp hmodify
  have hplace : P (place ⟨scope.constants, frame :: outer⟩) :=
    heverywhere _ (hframes ▸ List.suffix_rfl)
  intro frames hsuffix
  rcases List.suffix_cons_iff.mp hsuffix with rfl | houter
  · exact htop frame outer hframes hplace
  · refine himp _ (heverywhere frames (houter.trans ?_))
    rw [hframes]
    exact List.suffix_cons frame outer

variable {labels larger : LabelTable}

theorem everywhere_orderly_empty : Scope.empty.Everywhere (Place.Orderly labels) := by
  intro frames hsuffix
  obtain rfl := List.suffix_nil.mp hsuffix
  constructor <;>
    simp [place, environment, Environment.empty, floating, essential, Environment.essentialLabel?]

theorem everywhere_orderly_of_declareConstant
    (horderly : scope.Everywhere (Place.Orderly labels))
    (hdeclare : scope.declareConstant symbol = .ok result) :
    result.Everywhere (Place.Orderly labels) := by
  rw [declareConstant] at hdeclare
  split_ifs at hdeclare
  cases hdeclare
  exact fun frames hsuffix => { horderly frames hsuffix with }

theorem everywhere_orderly_of_declareVariable
    (horderly : scope.Everywhere (Place.Orderly labels))
    (hdeclare : scope.declareVariable symbol = .ok result) :
    result.Everywhere (Place.Orderly labels) := by
  rw [declareVariable] at hdeclare
  split_ifs at hdeclare
  refine horderly.modifyTop hdeclare (fun _ => id) fun frame outer _ hplace => ?_
  rw [place_cons] at hplace ⊢
  exact { hplace with }

theorem everywhere_orderly_of_addDisjoint {vars : List Symbol}
    (horderly : scope.Everywhere (Place.Orderly labels))
    (hadd : scope.addDisjoint vars = .ok result) : result.Everywhere (Place.Orderly labels) := by
  refine horderly.modifyTop hadd (fun _ => id) fun frame outer _ hplace => ?_
  rw [place_cons] at hplace ⊢
  exact hplace.addDisjoint vars

theorem everywhere_orderly_of_addFloating {typing : Typing}
    (horderly : scope.Everywhere (Place.Orderly labels))
    (hinsert : labels.insert? label (.floating typing.statement) = some larger)
    (hadd : scope.addFloating typing label = .ok result) :
    result.Everywhere (Place.Orderly larger) := by
  rw [addFloating] at hadd
  split_ifs at hadd with _ _ huntyped
  refine horderly.modifyTop hadd (fun _ => Place.Orderly.define hinsert)
    fun frame outer hframes hplace => ?_
  rw [environment, hframes] at huntyped
  rw [place_cons] at hplace ⊢
  simpa only [List.append_assoc] using hplace.addFloating hinsert huntyped

theorem everywhere_orderly_of_addEssential {statement : Statement}
    (horderly : scope.Everywhere (Place.Orderly labels))
    (hinsert : labels.insert? label (.essential statement) = some larger)
    (hstatement : statement ≠ []) (hadd : scope.addEssential statement label = .ok result) :
    result.Everywhere (Place.Orderly larger) := by
  refine horderly.modifyTop hadd (fun _ => Place.Orderly.define hinsert)
    fun frame outer _ hplace => ?_
  rw [place_cons] at hplace ⊢
  simpa only [List.append_assoc] using hplace.addEssential hinsert hstatement

end Scope

/-! ### Assertions -/

/-- Nothing in the assertion is empty, all its variables occur in it, and its disjointness
conditions are listed in order. -/
structure Assertion.Tidy (assertion : Assertion) : Prop where
  occurring : ∀ v ∈ assertion.vars,
    ∃ statement ∈ assertion.conclusion :: assertion.essential, v ∈ statement
  nonempty : ∀ statement ∈ assertion.conclusion :: assertion.essential, statement ≠ []
  ascending : assertion.disjoint.Pairwise Pair.Precedes
  ordered : ∀ pair ∈ assertion.disjoint, pair.1 < pair.2

theorem Scope.tidy_assertion {labels : LabelTable} {scope : Scope} {conclusion : Statement}
    (horderly : scope.place.Orderly labels) (hconclusion : conclusion ≠ []) :
    (scope.assertion conclusion).Tidy where
  occurring _ hv := (contains_mandatory_iff.mp (contains_mandatory_of_mem_vars hv)).1
  nonempty := List.forall_mem_cons.mpr ⟨hconclusion, horderly.nonempty⟩
  ascending :=
    (Std.TreeSet.ordered_toList.imp Pair.precedes_of_compareLexically).sublist List.filter_sublist
  ordered pair hpair :=
    horderly.ordered pair (Std.TreeSet.mem_toList.mp (List.mem_filter.mp hpair).1)

/-- Variables that have to be disjoint are bound by every match of the floating hypotheses. -/
theorem Assertion.WellFormed.isSome_get?_of_matchFloating {assertion : Assertion}
    (hwell : assertion.WellFormed) {entries : List Statement} {σ : Substitution}
    (hlength : entries.length = assertion.arity)
    (hmatch : Proof.matchFloating .empty assertion.floating
      (entries.splitAt assertion.floating.length).1 = .ok σ) :
    ∀ pair ∈ assertion.disjoint, (σ.get? pair.1).isSome ∧ (σ.get? pair.2).isSome := by
  rw [List.splitAt_eq] at hmatch
  have htaken : (entries.take assertion.floating.length).length = assertion.floating.length := by
    rw [List.length_take, hlength, arity]
    omega
  exact hwell.isSome_get? (Proof.binds_of_matchFloating hwell.distinct htaken hmatch).1

namespace Database.Builder

variable {builder result : Builder} {label : Symbol} {statement : Statement} {entry : Entry}
  {check : Option Check}

/-- The builder is valid, all open blocks are orderly, and all recorded assertions are tidy. -/
structure Orderly (builder : Builder) : Prop where
  valid : builder.Valid
  places : builder.scope.Everywhere (Place.Orderly builder.labels)
  tidy : ∀ label entry assertion, builder.labels.get? label = some entry →
    entry.assertion? = some assertion → assertion.Tidy

theorem orderly_new (bounds : Bounds) : (new bounds).Orderly :=
  ⟨valid_new bounds, Scope.everywhere_orderly_empty, fun label entry assertion hget _ => by
    simp [new, LabelTable.get?, LabelTable.position?, LabelTable.empty] at hget⟩

theorem ne_nil_of_checkStatement (hchecked : builder.checkStatement statement = .ok ()) :
    statement ≠ [] := by
  rintro rfl
  cases hchecked

/-- A label may be defined together with a change of the scope, if its assertion is tidy. -/
theorem Orderly.withLabel (horderly : builder.Orderly) {scope : Scope} {larger : LabelTable}
    (hinsert : builder.labels.insert? label entry = some larger)
    (hvalid : Valid { builder with scope, labels := larger })
    (hplaces : scope.Everywhere (Place.Orderly larger))
    (hentry : ∀ assertion, entry.assertion? = some assertion → assertion.Tidy) :
    Orderly { builder with scope, labels := larger } := by
  refine ⟨hvalid, hplaces, fun other found assertion hget hassertion => ?_⟩
  rw [LabelTable.get?_of_insert? hinsert] at hget
  split_ifs at hget
  · cases hget
    exact hentry assertion hassertion
  · exact horderly.tidy other found assertion hget hassertion

theorem Orderly.define (horderly : builder.Orderly) {larger : LabelTable}
    (hinsert : builder.labels.insert? label entry = some larger)
    (hvalid : Valid { builder with labels := larger })
    (hchecked : builder.checkStatement statement = .ok ())
    (hentry : entry.assertion? = some (builder.scope.assertion statement)) :
    Orderly { builder with labels := larger } := by
  refine horderly.withLabel hinsert hvalid
    (horderly.places.mono fun _ => Place.Orderly.define hinsert)
    fun assertion hassertion => ?_
  cases hentry.symm.trans hassertion
  exact Scope.tidy_assertion horderly.places.here (ne_nil_of_checkStatement hchecked)

theorem Orderly.step (horderly : builder.Orderly) (hstep : builder.Step check result) :
    result.Orderly := by
  have hvalid := horderly.valid.step hstep
  cases hstep with
  | idle => exact horderly
  | note label => exact ⟨hvalid, horderly.places, horderly.tidy⟩
  | enter => exact ⟨hvalid, horderly.places.push, horderly.tidy⟩
  | leave hpop =>
    exact ⟨hvalid, horderly.places.of_suffix (Scope.constants_of_pop hpop)
      (Scope.suffix_of_pop hpop), horderly.tidy⟩
  | declare declaration symbols =>
    refine ⟨hvalid, ?_, horderly.tidy⟩
    exact declare_induction (P := fun scope => scope.Everywhere (Place.Orderly builder.labels))
      (fun _ _ _ => Scope.everywhere_orderly_of_declareConstant)
      (fun _ _ _ => Scope.everywhere_orderly_of_declareVariable)
      (fun _ _ _ => Scope.everywhere_orderly_of_addDisjoint) horderly.places declaration symbols
  | floating hadd =>
    obtain ⟨typing, scope, larger, hscope, hinsert, rfl⟩ := exists_of_addFloating hadd
    exact horderly.withLabel hinsert hvalid
      (Scope.everywhere_orderly_of_addFloating horderly.places hinsert hscope) nofun
  | essential hadd =>
    obtain ⟨hchecked, scope, larger, hscope, hinsert, rfl⟩ := exists_of_addEssential hadd
    exact horderly.withLabel hinsert hvalid
      (Scope.everywhere_orderly_of_addEssential horderly.places hinsert
        (ne_nil_of_checkStatement hchecked) hscope) nofun
  | axiomatic hadd =>
    obtain ⟨hchecked, larger, hinsert, rfl⟩ := exists_of_addAxiomatic hadd
    exact horderly.define hinsert hvalid hchecked rfl
  | provable hchecked hadd =>
    obtain ⟨larger, hinsert, rfl, -⟩ := exists_of_addProvable hadd
    exact horderly.define hinsert hvalid hchecked rfl

theorem Orderly.move (horderly : builder.Orderly) (hmove : builder.Move result) :
    result.Orderly := by
  cases hmove with
  | step hstep => exact horderly.step hstep
  | truncate depth =>
    exact ⟨horderly.valid.truncate depth,
      horderly.places.of_suffix rfl (List.drop_suffix _ _), horderly.tidy⟩

theorem Reached.orderly (hreached : builder.Reached) : builder.Orderly :=
  hreached.invariant orderly_new fun _ _ => Orderly.move

/-- In every builder that reads lead to, each axiom and each theorem types different variables,
namely those that occur in it, with constants as typecodes; its other symbols are constants, and
none of its statements is empty. Its disjointness conditions are in strictly ascending order, each
has the smaller variable first, and both variables are typed. So a match of the floating hypotheses
binds both, and no condition is passed over. -/
theorem assertion_fit_of_reached (hreached : builder.Reached) {assertion : Assertion}
    (hmem : (label, entry) ∈ builder.labels.toList)
    (hassertion : entry.assertion? = some assertion) :
    Scope.WellTyped builder.scope.constants assertion ∧ assertion.Tidy ∧
      ∀ (stack : Stack Statement) (entries : List Statement) (σ : Substitution),
        stack.args? assertion.arity = some entries →
        Proof.matchFloating .empty assertion.floating
          (entries.splitAt assertion.floating.length).1 = .ok σ →
        ∀ pair ∈ assertion.disjoint, (σ.get? pair.1).isSome ∧ (σ.get? pair.2).isSome := by
  have horderly := hreached.orderly
  have hget := LabelTable.mem_toList_iff.mp hmem
  have htyped := horderly.valid.wellTyped label entry assertion hget hassertion
  refine ⟨htyped, horderly.tidy label entry assertion hget hassertion, ?_⟩
  intro stack entries σ hargs hmatch
  obtain ⟨hlength, -⟩ := Stack.args?_eq_some_iff.mp hargs
  exact htyped.wellFormed.isSome_get?_of_matchFloating hlength hmatch

/-- What is read first: a block is open when a constant is declared twice. -/
def interruptedTokens : List (Except Inclusion.Error Token) :=
  ["$c", "wff", "|-", "=", "$.", "$v", "y", "x", "$.", "wy", "$f", "wff", "y", "$.",
    "$\x7b", "wx", "$f", "wff", "x", "$.", "$d", "y", "x", "$.",
    "h", "$e", "|-", "=", "x", "y", "$.", "$c", "wff", "$."].map fun word =>
      .ok (.ofRun word.toList)

/-- The builder after a read that failed. -/
def interruptedBuilder : Builder :=
  ((new ⟨none, none⟩).read Check.run interruptedTokens).builder

/-- What is read after that, still in the block: a theorem whose proof is wrong. -/
def resumedTokens : List (Except Inclusion.Error Token) :=
  ["th", "$p", "|-", "=", "y", "x", "$=", "wx", "$."].map fun word => .ok (.ofRun word.toList)

/-- The builder after two reads that failed. -/
def resumedBuilder : Builder :=
  (interruptedBuilder.read Check.run resumedTokens).builder

/-- The theorem that the second read leaves behind. -/
def resumedTheorem : Assertion :=
  ⟨[("x", "y")], [⟨"wff", "y"⟩, ⟨"wff", "x"⟩], [["|-", "=", "x", "y"]], ["|-", "=", "y", "x"]⟩

theorem assertion_fit_of_reached_resumed :
    resumedBuilder.Reached ∧ ("th", .provable resumedTheorem) ∈ resumedBuilder.labels.toList ∧
      Scope.WellTyped resumedBuilder.scope.constants resumedTheorem ∧ resumedTheorem.Tidy ∧
      Proof.matchFloating .empty resumedTheorem.floating [["wff", "="], ["wff"]] =
        .ok ⟨[("y", ["="]), ("x", [])]⟩ ∧
      ∀ pair ∈ resumedTheorem.disjoint,
        (Substitution.get? ⟨[("y", ["="]), ("x", [])]⟩ pair.1).isSome ∧
          (Substitution.get? ⟨[("y", ["="]), ("x", [])]⟩ pair.2).isSome := by
  have hreached : resumedBuilder.Reached := .read _ _ (.read _ _ (.new _))
  have hmem : ("th", .provable resumedTheorem) ∈ resumedBuilder.labels.toList := by decide +kernel
  obtain ⟨htyped, htidy, hbound⟩ := assertion_fit_of_reached hreached hmem rfl
  refine ⟨hreached, hmem, htyped, htidy, rfl, ?_⟩
  exact hbound (.ofList [["wff", "="], ["wff"], ["|-", "="]]) _ _ rfl rfl

end Database.Builder

end Metamath
