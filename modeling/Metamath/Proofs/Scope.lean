import Metamath.Scope
import Metamath.Proofs.Label
import Metamath.Proofs.Replay

/-!
# What a scope guarantees

A scope keeps what is active in two forms. The environment of the innermost block answers questions
about single labels and symbols; the frames list the hypotheses in order, and from them assertions
are made. Besides, the statements of the hypotheses stand in the table of labels. Here it is said
what makes the three agree, for the innermost block and for those around it, since closing a block
brings back the environment of the block around it.

The point of the agreement is what it says about assertions: their variables are typed once, their
other symbols are constants, and their disjointness conditions are about their own variables.
-/

namespace Metamath

theorem contains_insert_iff {α : Type} {cmp : α → α → Ordering} [Std.TransCmp cmp]
    [Std.LawfulEqCmp cmp] {elements : Std.TreeSet α cmp} {element other : α} :
    (elements.insert element).contains other ↔ other = element ∨ elements.contains other := by
  rw [Std.TreeSet.contains_insert, Bool.or_eq_true, beq_iff_eq,
    Std.LawfulEqCmp.compare_eq_iff_eq, eq_comm]

namespace Environment

variable {env : Environment} {statement : Statement} {v label other : Symbol}

@[simp]
theorem isVariable_addVariable :
    (env.addVariable v).isVariable other ↔ other = v ∨ env.isVariable other :=
  contains_insert_iff

@[simp]
theorem isHypothesis_addFloating :
    (env.addFloating v label).isHypothesis other ↔ other = label ∨ env.isHypothesis other :=
  contains_insert_iff

@[simp]
theorem isHypothesis_addEssential :
    (env.addEssential statement label).isHypothesis other ↔
      other = label ∨ env.isHypothesis other :=
  contains_insert_iff

@[simp]
theorem isSome_floatingLabel?_addFloating :
    ((env.addFloating v label).floatingLabel? other).isSome ↔
      other = v ∨ (env.floatingLabel? other).isSome := by
  rw [floatingLabel?, addFloating, Std.TreeMap.getElem?_insert]
  by_cases hother : v = other
  · simp [hother]
  · simp [hother, Ne.symm hother, floatingLabel?]

end Environment

/-- What is active at a place of a database, in both forms. -/
structure Place where
  constants : Std.TreeSet Symbol
  environment : Environment
  floating : List Typing
  essential : List Statement

namespace Place

/-- The variables with a typecode, in the order of their floating hypotheses. -/
def typed (place : Place) : List Symbol :=
  place.floating.map Typing.var

/-- A symbol that may occur in a statement at this place. -/
def Admits (place : Place) (symbol : Symbol) : Prop :=
  place.constants.contains symbol ∨ symbol ∈ place.typed

/-- The environment, the lists of hypotheses and the table of labels agree. -/
structure Agrees (labels : LabelTable) (place : Place) : Prop where
  defined : ∀ label, place.environment.isHypothesis label → labels.contains label
  floating : ∀ label statement, place.environment.isHypothesis label →
    labels.get? label = some (.floating statement) →
    ∃ typing ∈ place.floating, typing.statement = statement
  essential : ∀ label statement, place.environment.isHypothesis label →
    labels.get? label = some (.essential statement) → statement ∈ place.essential
  recorded : ∀ typing ∈ place.floating,
    ∃ label, labels.get? label = some (.floating typing.statement)
  active : ∀ typing ∈ place.floating,
    place.environment.isVariable typing.var ∧ place.constants.contains typing.typecode
  distinct : place.typed.Nodup
  labelled : ∀ v, (place.environment.floatingLabel? v).isSome ↔ v ∈ place.typed
  admitted : ∀ statement ∈ place.essential, ∀ symbol ∈ statement, place.Admits symbol
  separate : ∀ symbol, place.environment.isVariable symbol → ¬ place.constants.contains symbol

variable {labels larger : LabelTable} {place : Place} {symbol label : Symbol}

theorem Agrees.isVariable_of_typed (hagrees : place.Agrees labels) (htyped : symbol ∈ place.typed) :
    place.environment.isVariable symbol := by
  obtain ⟨typing, htyping, rfl⟩ := List.mem_map.mp htyped
  exact (hagrees.active typing htyping).1

theorem Agrees.insertConstant (hagrees : place.Agrees labels)
    (hsymbol : ¬ place.environment.isVariable symbol) :
    Agrees labels { place with constants := place.constants.insert symbol } := by
  refine { hagrees with
    active := fun typing htyping => ?_
    admitted := fun statement hstatement other hother => ?_
    separate := fun other hother => ?_ }
  · obtain ⟨hvariable, htypecode⟩ := hagrees.active typing htyping
    exact ⟨hvariable, contains_insert_iff.mpr (.inr htypecode)⟩
  · exact (hagrees.admitted statement hstatement other hother).imp
      (fun hold => contains_insert_iff.mpr (.inr hold)) id
  · rw [contains_insert_iff, not_or]
    exact ⟨fun heq => hsymbol (heq ▸ hother), hagrees.separate other hother⟩

theorem Agrees.addVariable (hagrees : place.Agrees labels)
    (hsymbol : ¬ place.constants.contains symbol) :
    Agrees labels { place with environment := place.environment.addVariable symbol } := by
  refine { hagrees with
    active := fun typing htyping => ?_
    separate := fun other hother => ?_ }
  · obtain ⟨hvariable, htypecode⟩ := hagrees.active typing htyping
    exact ⟨Environment.isVariable_addVariable.mpr (.inr hvariable), htypecode⟩
  · rcases Environment.isVariable_addVariable.mp hother with rfl | hold
    · exact hsymbol
    · exact hagrees.separate other hold

theorem Agrees.addDisjoint (hagrees : place.Agrees labels) (vars : List Symbol) :
    Agrees labels { place with environment := place.environment.addDisjoint vars } :=
  { hagrees with }

section

variable {entry : Entry}

/-- A new label is no hypothesis yet, so the hypotheses keep what they refer to. -/
theorem Agrees.define (hinsert : labels.insert? label entry = some larger)
    (hagrees : place.Agrees labels) : place.Agrees larger := by
  have hget : ∀ other, place.environment.isHypothesis other →
      larger.get? other = labels.get? other := by
    intro other hother
    rw [LabelTable.get?_of_insert? hinsert, if_neg]
    rintro rfl
    exact LabelTable.not_contains_of_insert? hinsert (hagrees.defined other hother)
  refine { hagrees with
    defined := fun other hother => ?_
    floating := fun other statement hother hfound => ?_
    essential := fun other statement hother hfound => ?_
    recorded := fun typing htyping => ?_ }
  · exact (LabelTable.contains_of_insert? hinsert).mpr (.inr (hagrees.defined other hother))
  · exact hagrees.floating other statement hother (hget other hother ▸ hfound)
  · exact hagrees.essential other statement hother (hget other hother ▸ hfound)
  · obtain ⟨other, hother⟩ := hagrees.recorded typing htyping
    exact ⟨other, LabelTable.get?_mono hinsert hother⟩

theorem Agrees.addFloating {typing : Typing}
    (hinsert : labels.insert? label (.floating typing.statement) = some larger)
    (hagrees : place.Agrees labels) (hvariable : place.environment.isVariable typing.var)
    (htypecode : place.constants.contains typing.typecode)
    (huntyped : ¬ (place.environment.floatingLabel? typing.var).isSome) :
    Agrees larger { place with
      environment := place.environment.addFloating typing.var label
      floating := place.floating ++ [typing] } := by
  have hlarger := hagrees.define hinsert
  have hnew : larger.get? label = some (.floating typing.statement) := by
    rw [LabelTable.get?_of_insert? hinsert, if_pos rfl]
  refine ⟨fun other hother => ?_, fun other statement hother hfound => ?_,
    fun other statement hother hfound => ?_, fun other hother => ?_, fun other hother => ?_,
    ?_, fun v => ?_, fun statement hstatement symbol hsymbol => ?_, hagrees.separate⟩
  · rcases Environment.isHypothesis_addFloating.mp hother with rfl | hold
    · exact (LabelTable.contains_of_insert? hinsert).mpr (.inl rfl)
    · exact hlarger.defined other hold
  · rcases Environment.isHypothesis_addFloating.mp hother with rfl | hold
    · cases hnew.symm.trans hfound
      exact ⟨typing, by simp, rfl⟩
    · obtain ⟨found, hmem, heq⟩ := hlarger.floating other statement hold hfound
      exact ⟨found, List.mem_append_left _ hmem, heq⟩
  · rcases Environment.isHypothesis_addFloating.mp hother with rfl | hold
    · cases hnew.symm.trans hfound
    · exact hlarger.essential other statement hold hfound
  · rcases List.mem_append.mp hother with hold | hself
    · exact hlarger.recorded other hold
    · obtain rfl := List.mem_singleton.mp hself
      exact ⟨label, hnew⟩
  · rcases List.mem_append.mp hother with hold | hself
    · exact hagrees.active other hold
    · obtain rfl := List.mem_singleton.mp hself
      exact ⟨hvariable, htypecode⟩
  · rw [typed, List.map_append, List.map_singleton]
    refine List.nodup_append.mpr ⟨hagrees.distinct, by simp, fun v hold w hself heq => ?_⟩
    obtain rfl := heq.trans (List.mem_singleton.mp hself)
    exact huntyped ((hagrees.labelled typing.var).mpr hold)
  · rw [Environment.isSome_floatingLabel?_addFloating, hagrees.labelled v, typed, typed,
      List.map_append, List.mem_append, List.map_singleton, List.mem_singleton, or_comm]
  · refine (hagrees.admitted statement hstatement symbol hsymbol).imp id fun hmem => ?_
    rw [typed, List.map_append]
    exact List.mem_append_left _ hmem

theorem Agrees.addEssential {statement : Statement}
    (hinsert : labels.insert? label (.essential statement) = some larger)
    (hagrees : place.Agrees labels) (hadmitted : ∀ symbol ∈ statement, place.Admits symbol) :
    Agrees larger { place with
      environment := place.environment.addEssential statement label
      essential := place.essential ++ [statement] } := by
  have hlarger := hagrees.define hinsert
  have hnew : larger.get? label = some (.essential statement) := by
    rw [LabelTable.get?_of_insert? hinsert, if_pos rfl]
  refine { hlarger with
    defined := fun other hother => ?_
    floating := fun other found hother hfound => ?_
    essential := fun other found hother hfound => ?_
    admitted := fun found hfound symbol hsymbol => ?_ }
  · rcases Environment.isHypothesis_addEssential.mp hother with rfl | hold
    · exact (LabelTable.contains_of_insert? hinsert).mpr (.inl rfl)
    · exact hlarger.defined other hold
  · rcases Environment.isHypothesis_addEssential.mp hother with rfl | hold
    · cases hnew.symm.trans hfound
    · exact hlarger.floating other found hold hfound
  · rcases Environment.isHypothesis_addEssential.mp hother with rfl | hold
    · cases hnew.symm.trans hfound
      exact List.mem_append_right _ (List.mem_singleton_self _)
    · exact List.mem_append_left _ (hlarger.essential other found hold hfound)
  · rcases List.mem_append.mp hfound with hold | hself
    · exact hlarger.admitted found hold symbol hsymbol
    · obtain rfl := List.mem_singleton.mp hself
      exact hadmitted symbol hsymbol

end

end Place

namespace Scope

variable {labels larger : LabelTable} {scope result : Scope} {constants : Std.TreeSet Symbol}
  {frame : Frame} {outer : List Frame} {symbol label : Symbol}

/-- What is active in the innermost block. -/
def place (scope : Scope) : Place :=
  ⟨scope.constants, scope.environment, scope.floating, scope.essential⟩

theorem place_cons :
    place ⟨constants, frame :: outer⟩ = ⟨constants, frame.environment,
      floating ⟨constants, outer⟩ ++ frame.floating,
      essential ⟨constants, outer⟩ ++ frame.essential⟩ := by
  simp [place, environment, floating, essential]

theorem place_push : scope.push.place = scope.place := by
  rw [push, place_cons, List.append_nil, List.append_nil]
  rfl

/-- Agreement in each of the given blocks. A variable of a block is one of the blocks inside. -/
inductive Coherent (labels : LabelTable) (constants : Std.TreeSet Symbol) : List Frame → Prop where
  | nil : Coherent labels constants []
  | cons {frame : Frame} {outer : List Frame} :
      Coherent labels constants outer → (place ⟨constants, frame :: outer⟩).Agrees labels →
      (∀ v, isVariable ⟨constants, outer⟩ v → frame.environment.isVariable v) →
      Coherent labels constants (frame :: outer)

/-- Agreement in all open blocks. -/
def Valid (labels : LabelTable) (scope : Scope) : Prop :=
  Coherent labels scope.constants scope.frames

theorem valid_empty : Valid labels .empty := .nil

theorem Valid.agrees (hvalid : scope.Valid labels) : scope.place.Agrees labels := by
  obtain ⟨constants, frames⟩ := scope
  cases hvalid with
  | nil =>
    refine ⟨?_, ?_, ?_, ?_, ?_, ?_, ?_, ?_, ?_⟩ <;>
      simp [place, environment, Environment.empty, Environment.isHypothesis, floating, essential,
        Environment.floatingLabel?, Environment.isVariable, Place.typed]
  | cons _ hagrees _ => exact hagrees

/-! ### Blocks -/

theorem isConstant_of_constants_eq (hconstants : result.constants = scope.constants)
    (hsymbol : scope.isConstant symbol) : result.isConstant symbol := by
  rw [isConstant, hconstants]
  exact hsymbol

theorem Valid.push (hvalid : scope.Valid labels) : scope.push.Valid labels := by
  have hagrees := hvalid.agrees
  rw [← place_push] at hagrees
  exact .cons hvalid hagrees fun _ hv => hv

theorem Coherent.drop {frames : List Frame} (hcoherent : Coherent labels constants frames)
    (n : Nat) : Coherent labels constants (frames.drop n) := by
  induction n generalizing frames with
  | zero => exact hcoherent
  | succ n ih =>
    cases hcoherent with
    | nil => exact .nil
    | cons houter _ _ => exact ih houter

theorem Valid.pop (hvalid : scope.Valid labels) (hpop : scope.pop = .ok result) :
    result.Valid labels := by
  obtain ⟨constants, frames⟩ := scope
  cases hvalid with
  | nil => cases hpop
  | cons houter _ _ =>
    cases hpop
    exact houter

theorem constants_of_pop (hpop : scope.pop = .ok result) : result.constants = scope.constants := by
  rw [pop] at hpop
  split at hpop
  · cases hpop
  · cases hpop
    rfl

theorem suffix_of_pop (hpop : scope.pop = .ok result) : result.frames <:+ scope.frames := by
  rw [pop] at hpop
  split at hpop
  · cases hpop
  · next frame frames hframes =>
    cases hpop
    rw [hframes]
    exact List.suffix_cons frame frames

/-! ### Declarations -/

theorem Coherent.insertConstant {frames : List Frame}
    (hcoherent : Coherent labels constants frames)
    (hsymbol : ¬ isVariable ⟨constants, frames⟩ symbol) :
    Coherent labels (constants.insert symbol) frames := by
  induction hcoherent with
  | nil => exact .nil
  | cons _ hagrees hnested ih =>
    -- a variable of a block around would be a variable here
    exact .cons (ih fun houter => hsymbol (hnested symbol houter))
      (hagrees.insertConstant hsymbol) hnested

theorem isConstant_of_declareConstant {other : Symbol}
    (hdeclare : scope.declareConstant symbol = .ok result) (hother : scope.isConstant other) :
    result.isConstant other := by
  rw [declareConstant] at hdeclare
  split_ifs at hdeclare
  cases hdeclare
  exact contains_insert_iff.mpr (.inr hother)

theorem Valid.declareConstant (hvalid : scope.Valid labels)
    (hdeclare : scope.declareConstant symbol = .ok result) : result.Valid labels := by
  rw [Scope.declareConstant] at hdeclare
  split_ifs at hdeclare with _ hvariable
  cases hdeclare
  exact hvalid.insertConstant hvariable

theorem modifyTop_eq_ok_iff {change : Frame → Frame} :
    scope.modifyTop change = .ok result ↔ ∃ frame outer, scope.frames = frame :: outer ∧
      result = ⟨scope.constants, change frame :: outer⟩ := by
  rw [modifyTop]
  cases scope.frames with
  | nil => simp
  | cons frame outer => simp [eq_comm]

theorem constants_of_modifyTop {change : Frame → Frame}
    (hmodify : scope.modifyTop change = .ok result) : result.constants = scope.constants := by
  obtain ⟨frame, outer, -, rfl⟩ := modifyTop_eq_ok_iff.mp hmodify
  rfl

theorem constants_of_declareVariable (hdeclare : scope.declareVariable symbol = .ok result) :
    result.constants = scope.constants := by
  rw [declareVariable] at hdeclare
  split_ifs at hdeclare
  exact constants_of_modifyTop hdeclare

theorem constants_of_addFloating {typing : Typing}
    (hadd : scope.addFloating typing label = .ok result) : result.constants = scope.constants := by
  rw [addFloating] at hadd
  split_ifs at hadd
  exact constants_of_modifyTop hadd

/-- A table of labels that keeps the agreement at every place keeps it in all blocks. -/
theorem Coherent.mono {frames : List Frame}
    (hlabels : ∀ place : Place, place.Agrees labels → place.Agrees larger)
    (hcoherent : Coherent labels constants frames) : Coherent larger constants frames := by
  induction hcoherent with
  | nil => exact .nil
  | cons _ hagrees hnested ih => exact .cons ih (hlabels _ hagrees) hnested

theorem Valid.define {entry : Entry}
    (hinsert : labels.insert? label entry = some larger) (hvalid : scope.Valid labels) :
    scope.Valid larger :=
  Coherent.mono (fun _ => Place.Agrees.define hinsert) hvalid

/-- To change the innermost block, it suffices to keep its variables and to agree there. The table
of labels may grow at the same time. -/
theorem Valid.modifyTop {change : Frame → Frame} (hvalid : scope.Valid labels)
    (hmodify : scope.modifyTop change = .ok result)
    (hlabels : ∀ place : Place, place.Agrees labels → place.Agrees larger)
    (hvariables : ∀ frame v, frame.environment.isVariable v →
      (change frame).environment.isVariable v)
    (hagrees : ∀ frame outer, (place ⟨scope.constants, frame :: outer⟩).Agrees labels →
      scope.place = place ⟨scope.constants, frame :: outer⟩ →
      (place ⟨scope.constants, change frame :: outer⟩).Agrees larger) : result.Valid larger := by
  obtain ⟨constants, frames⟩ := scope
  obtain ⟨frame, outer, hframes, rfl⟩ := modifyTop_eq_ok_iff.mp hmodify
  subst hframes
  cases hvalid with
  | cons houter hinner hnested =>
    exact .cons (houter.mono hlabels) (hagrees frame outer hinner rfl) fun v hv =>
      hvariables frame v (hnested v hv)

theorem Valid.declareVariable (hvalid : scope.Valid labels)
    (hdeclare : scope.declareVariable symbol = .ok result) : result.Valid labels := by
  rw [Scope.declareVariable] at hdeclare
  split_ifs at hdeclare with _ hconstant
  refine hvalid.modifyTop hdeclare (fun _ h => h) (fun frame v hv => ?_)
    fun frame outer hinner _ => ?_
  · exact Environment.isVariable_addVariable.mpr (.inr hv)
  · rw [place_cons] at hinner ⊢
    exact hinner.addVariable hconstant

theorem Valid.addDisjoint {vars : List Symbol} (hvalid : scope.Valid labels)
    (hadd : scope.addDisjoint vars = .ok result) : result.Valid labels := by
  refine hvalid.modifyTop hadd (fun _ h => h) (fun _ _ hv => hv) fun frame outer hinner _ => ?_
  rw [place_cons] at hinner ⊢
  exact hinner.addDisjoint vars

theorem Valid.addFloating {typing : Typing}
    (hinsert : labels.insert? label (.floating typing.statement) = some larger)
    (hvalid : scope.Valid labels) (hadd : scope.addFloating typing label = .ok result) :
    result.Valid larger := by
  rw [Scope.addFloating] at hadd
  split_ifs at hadd with hvariable htypecode huntyped
  refine hvalid.modifyTop hadd (fun _ => Place.Agrees.define hinsert) (fun _ _ hv => hv)
    fun frame outer hinner hplace => ?_
  have hvariable' : scope.place.environment.isVariable typing.var := by
    show scope.isVariable typing.var
    simpa using hvariable
  have htypecode' : scope.place.constants.contains typing.typecode := by
    show scope.isConstant typing.typecode
    simpa using htypecode
  have huntyped' : ¬ (scope.place.environment.floatingLabel? typing.var).isSome := huntyped
  rw [hplace] at hvariable' htypecode' huntyped'
  have hagrees := hinner.addFloating hinsert hvariable' htypecode' huntyped'
  rw [place_cons] at hagrees ⊢
  simpa only [List.append_assoc] using hagrees

theorem Valid.addEssential {statement : Statement}
    (hinsert : labels.insert? label (.essential statement) = some larger)
    (hvalid : scope.Valid labels) (hadmitted : ∀ symbol ∈ statement, scope.place.Admits symbol)
    (hadd : scope.addEssential statement label = .ok result) : result.Valid larger := by
  refine hvalid.modifyTop hadd (fun _ => Place.Agrees.define hinsert) (fun _ _ hv => hv)
    fun frame outer hinner hplace => ?_
  rw [hplace] at hadmitted
  have hagrees := hinner.addEssential hinsert hadmitted
  rw [place_cons] at hagrees ⊢
  simpa only [List.append_assoc] using hagrees

/-! ### Assertions -/

/-- An assertion whose variables are typed once and whose other symbols are constants. -/
structure WellTyped (constants : Std.TreeSet Symbol) (assertion : Assertion) : Prop where
  wellFormed : assertion.WellFormed
  typecodes : ∀ typing ∈ assertion.floating, constants.contains typing.typecode
  symbols : ∀ statement ∈ assertion.conclusion :: assertion.essential, ∀ symbol ∈ statement,
    symbol ∈ assertion.vars ∨ constants.contains symbol

theorem WellTyped.mono {larger : Std.TreeSet Symbol} {assertion : Assertion}
    (hconstants : ∀ symbol, constants.contains symbol → larger.contains symbol)
    (htyped : WellTyped constants assertion) : WellTyped larger assertion :=
  ⟨htyped.wellFormed, fun typing htyping => hconstants _ (htyped.typecodes typing htyping),
    fun statement hstatement symbol hsymbol =>
      (htyped.symbols statement hstatement symbol hsymbol).imp id (hconstants symbol)⟩

theorem contains_mandatory_iff {conclusion : Statement} :
    (scope.environment.variablesIn (scope.essential.flatten ++ conclusion)).contains symbol ↔
      (∃ statement ∈ conclusion :: scope.essential, symbol ∈ statement) ∧
        scope.isVariable symbol := by
  rw [Std.TreeSet.contains_iff_mem, ← Std.TreeSet.mem_toList, Environment.mem_toList_variablesIn,
    List.mem_append, List.mem_flatten, List.exists_mem_cons_iff, or_comm]
  exact Iff.rfl

theorem firstTypings_sublist_filter (vars : Std.TreeSet Symbol) (typings : List Typing) :
    (firstTypings vars typings).Sublist
      (typings.filter fun typing => vars.contains typing.var) := by
  induction typings generalizing vars with
  | nil => exact List.Sublist.slnil
  | cons typing rest ih =>
    have herase : (rest.filter fun later => (vars.erase typing.var).contains later.var).Sublist
        (rest.filter fun later => vars.contains later.var) := by
      apply List.monotone_filter_right
      intro later hlater
      rw [Std.TreeSet.contains_erase, Bool.and_eq_true] at hlater
      exact hlater.2
    rw [firstTypings, List.filter_cons]
    split
    · exact ((ih _).trans herase).cons_cons typing
    · exact ih vars

/-- If no variable is typed twice, then nothing is passed over. -/
theorem firstTypings_eq_filter {typings : List Typing} (hdistinct : (typings.map Typing.var).Nodup)
    (vars : Std.TreeSet Symbol) :
    firstTypings vars typings = typings.filter fun typing => vars.contains typing.var := by
  induction typings generalizing vars with
  | nil => rfl
  | cons typing rest ih =>
    rw [List.map_cons, List.nodup_cons] at hdistinct
    rw [firstTypings, List.filter_cons, ih hdistinct.2, ih hdistinct.2]
    have herase : (rest.filter fun later => (vars.erase typing.var).contains later.var) =
        rest.filter fun later => vars.contains later.var := by
      apply List.filter_congr
      intro later hlater
      have hne : typing.var ≠ later.var := fun hsame =>
        hdistinct.1 (hsame ▸ List.mem_map_of_mem hlater)
      rw [Std.TreeSet.contains_erase]
      simp [hne]
    rw [herase]

theorem floating_assertion_sublist (scope : Scope) (conclusion : Statement) :
    (scope.assertion conclusion).floating.Sublist scope.floating :=
  (firstTypings_sublist_filter _ _).trans List.filter_sublist

theorem vars_assertion_sublist (scope : Scope) (conclusion : Statement) :
    (scope.assertion conclusion).vars.Sublist (scope.floating.map Typing.var) :=
  (scope.floating_assertion_sublist conclusion).map Typing.var

theorem contains_mandatory_of_mem_vars {conclusion : Statement}
    (hsymbol : symbol ∈ (scope.assertion conclusion).vars) :
    (scope.environment.variablesIn (scope.essential.flatten ++ conclusion)).contains symbol := by
  obtain ⟨typing, htyping, rfl⟩ := List.mem_map.mp hsymbol
  exact (List.mem_filter.mp ((firstTypings_sublist_filter _ _).subset htyping)).2

theorem mem_floating_assertion {conclusion : Statement} {typing : Typing}
    (hagrees : scope.place.Agrees labels) :
    typing ∈ (scope.assertion conclusion).floating ↔ typing ∈ scope.floating ∧
      (scope.environment.variablesIn (scope.essential.flatten ++ conclusion)).contains
        typing.var := by
  have hdistinct : (scope.floating.map Typing.var).Nodup := hagrees.distinct
  rw [assertion, firstTypings_eq_filter hdistinct, List.mem_filter]

/-- A typed variable belongs to the assertion if it occurs in it. -/
theorem mem_vars_assertion {conclusion : Statement} (hagrees : scope.place.Agrees labels)
    (hsymbol : symbol ∈ scope.place.typed)
    (hoccurs : ∃ statement ∈ conclusion :: scope.essential, symbol ∈ statement) :
    symbol ∈ (scope.assertion conclusion).vars := by
  obtain ⟨typing, htyping, rfl⟩ := List.mem_map.mp hsymbol
  refine List.mem_map.mpr ⟨typing, (mem_floating_assertion hagrees).mpr ⟨htyping, ?_⟩, rfl⟩
  exact contains_mandatory_iff.mpr ⟨hoccurs, (hagrees.active typing htyping).1⟩

theorem wellTyped_assertion {conclusion : Statement} (hagrees : scope.place.Agrees labels)
    (hadmitted : ∀ symbol ∈ conclusion, scope.place.Admits symbol) :
    WellTyped scope.constants (scope.assertion conclusion) := by
  have hadmits : ∀ statement ∈ conclusion :: scope.essential, ∀ symbol ∈ statement,
      scope.place.Admits symbol := List.forall_mem_cons.mpr ⟨hadmitted, hagrees.admitted⟩
  have hmandatory : ∀ symbol, (scope.environment.variablesIn
      (scope.essential.flatten ++ conclusion)).contains symbol →
      symbol ∈ (scope.assertion conclusion).vars := by
    intro symbol hsymbol
    obtain ⟨⟨statement, hstatement, hmem⟩, hvariable⟩ := contains_mandatory_iff.mp hsymbol
    rcases hadmits statement hstatement symbol hmem with hconstant | htyped
    · exact absurd hconstant (hagrees.separate symbol hvariable)
    · exact mem_vars_assertion hagrees htyped ⟨statement, hstatement, hmem⟩
  refine ⟨⟨?_, fun pair hpair => ?_⟩, fun typing htyping => ?_,
    fun statement hstatement symbol hsymbol => ?_⟩
  · exact (scope.vars_assertion_sublist conclusion).nodup hagrees.distinct
  · have hboth := (List.mem_filter.mp hpair).2
    rw [Bool.and_eq_true] at hboth
    exact ⟨hmandatory _ hboth.1, hmandatory _ hboth.2⟩
  · have hactive := (scope.floating_assertion_sublist conclusion).subset htyping
    exact (hagrees.active typing hactive).2
  · rcases hadmits statement hstatement symbol hsymbol with hconstant | htyped
    · exact .inr hconstant
    · exact .inl (mem_vars_assertion hagrees htyped ⟨statement, hstatement, hsymbol⟩)

end Scope

/-! ### Proofs at a place -/

namespace Place

variable {labels : LabelTable} {place : Place} {assertion : Assertion} {σ : Substitution}
  {args : List Statement}

theorem Agrees.admits_typing (hagrees : place.Agrees labels) {typing : Typing}
    (htyping : typing ∈ place.floating) : ∀ symbol ∈ typing.statement, place.Admits symbol := by
  intro symbol hsymbol
  rcases List.mem_pair.mp hsymbol with rfl | rfl
  · exact .inl (hagrees.active typing htyping).2
  · exact .inr (List.mem_map_of_mem htyping)

/-- The expressions that a step substitutes consist of symbols that may occur at the place. -/
theorem admits_of_fits (hfits : assertion.Fits place.environment σ args)
    (hargs : ∀ statement ∈ args, ∀ symbol ∈ statement, place.Admits symbol) {v symbol : Symbol}
    (hv : v ∈ assertion.vars) (hsymbol : symbol ∈ σ.image v) : place.Admits symbol := by
  obtain ⟨typing, htyping, rfl⟩ := List.mem_map.mp hv
  exact hargs _ (hfits.typing_mem htyping) symbol (List.mem_cons_of_mem _ hsymbol)

/-- All statements that a proof handles at a place consist of symbols that may occur there. -/
theorem Agrees.preserves_admits (hagrees : place.Agrees labels)
    (hassertions : ∀ label entry assertion, labels.get? label = some entry →
      entry.assertion? = some assertion → Scope.WellTyped place.constants assertion) :
    Proof.Context.Preserves ⟨labels, place.environment⟩
      fun statement => ∀ symbol ∈ statement, place.Admits symbol := by
  constructor
  · intro label statement hstep
    obtain ⟨hget | hget, hactive⟩ := Proof.Context.step_eq_hypothesis_iff.mp hstep
    · obtain ⟨typing, htyping, rfl⟩ := hagrees.floating label statement hactive hget
      exact hagrees.admits_typing htyping
    · exact hagrees.admitted statement (hagrees.essential label statement hactive hget)
  · intro label assertion args conclusion hstep hlength hargs hconclude symbol hsymbol
    have hwell : Scope.WellTyped place.constants assertion := by
      rcases Proof.Context.step_eq_assertion_iff.mp hstep with hget | hget
      · exact hassertions label _ assertion hget rfl
      · exact hassertions label _ assertion hget rfl
    obtain ⟨σ, hfits, rfl⟩ := (Proof.conclude_eq_ok_iff hwell.wellFormed hlength).mp hconclude
    obtain ⟨origin, horigin, hmem⟩ := Substitution.mem_apply.mp hsymbol
    by_cases hv : origin ∈ assertion.vars
    · exact admits_of_fits hfits hargs hv hmem
    · rw [hfits.binds.image_of_not_mem hv, List.mem_singleton] at hmem
      subst hmem
      exact .inl ((hwell.symbols _ List.mem_cons_self symbol horigin).resolve_left hv)

end Place

end Metamath
