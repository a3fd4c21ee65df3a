import Mathlib.Data.List.Infix
import Mathlib.Data.List.Nodup
import Metamath.Proofs.Scope

/-!
# Scopes, block by block

The environment of a block repeats what the blocks around it declare, so that nobody has to search
them. Here scopes are compared with the plain arrangement that they stand for: a stack of blocks
each of which lists nothing but its own declarations, and questions that are answered by going
through the blocks. Both accept and refuse the same operations, with the same complaints, and then
answer all questions alike.

The plain arrangement also shows what a scope does not say of itself: that no variable is a
constant, that no variable is typed twice, and that a block leaves only its constants behind.
-/

namespace Metamath

/-! ### Pairs of variables -/

theorem Pair.of_comm (x y : Symbol) : Pair.of x y = Pair.of y x := by
  unfold Pair.of
  by_cases hle : x ≤ y
  · by_cases hge : y ≤ x
    · rw [String.le_antisymm hle hge]
    · rw [if_pos hle, if_neg hge]
  · rw [if_neg hle, if_pos ((String.le_total x y).resolve_left hle)]

theorem Pair.of_eq_of_iff {x y a b : Symbol} :
    Pair.of x y = Pair.of a b ↔ x = a ∧ y = b ∨ x = b ∧ y = a := by
  constructor
  · unfold Pair.of
    split_ifs <;> intro heq <;> cases heq <;> simp
  · rintro (⟨rfl, rfl⟩ | ⟨rfl, rfl⟩)
    · rfl
    · exact Pair.of_comm x y

/-! ### Plain blocks -/

/-- What a block declares itself, each list in the order of declaration. -/
structure Block where
  vars : List Symbol
  /-- the `$d` statements -/
  disjoint : List (List Symbol)
  /-- the `$f` statements with their labels -/
  floating : List (Typing × Symbol)
  /-- the `$e` statements with their labels -/
  essential : List (Statement × Symbol)
  deriving DecidableEq, Repr

namespace Block

/-- A block without declarations. -/
def empty : Block := ⟨[], [], [], []⟩

/-- Some block declares the variable. -/
def Declare (blocks : List Block) (v : Symbol) : Prop :=
  ∃ block ∈ blocks, v ∈ block.vars

instance (blocks : List Block) (v : Symbol) : Decidable (Declare blocks v) :=
  inferInstanceAs (Decidable (∃ block ∈ blocks, v ∈ block.vars))

/-- The two variables are different members of one `$d` statement of some block. -/
def Separate (blocks : List Block) (x y : Symbol) : Prop :=
  x ≠ y ∧ ∃ block ∈ blocks, ∃ vars ∈ block.disjoint, x ∈ vars ∧ y ∈ vars

/-- The declarations of all blocks, given with the innermost one first, in the order in which they
were made. -/
def join (blocks : List Block) : Block :=
  ⟨blocks.reverse.flatMap vars, blocks.reverse.flatMap disjoint, blocks.reverse.flatMap floating,
    blocks.reverse.flatMap essential⟩

/-- The `$f` statement of a variable. -/
def typing? (blocks : List Block) (v : Symbol) : Option (Typing × Symbol) :=
  (join blocks).floating.find? fun entry => entry.1.var = v

/-- The earliest `$e` statement with the given symbols. -/
def hypothesis? (blocks : List Block) (statement : Statement) : Option (Statement × Symbol) :=
  (join blocks).essential.find? fun entry => entry.1 = statement

theorem join_cons (block : Block) (outer : List Block) :
    join (block :: outer) =
      ⟨(join outer).vars ++ block.vars, (join outer).disjoint ++ block.disjoint,
        (join outer).floating ++ block.floating, (join outer).essential ++ block.essential⟩ := by
  simp [join]

theorem declare_cons {block : Block} {outer : List Block} {v : Symbol} :
    Declare (block :: outer) v ↔ v ∈ block.vars ∨ Declare outer v := by
  simp [Declare]

theorem Declare.replaceTop {block noted : Block} {outer : List Block} {v : Symbol}
    (hdeclare : Declare (block :: outer) v) (hvars : block.vars ⊆ noted.vars) :
    Declare (noted :: outer) v :=
  declare_cons.mpr ((declare_cons.mp hdeclare).imp_left fun hv => hvars hv)

theorem join_empty_cons (blocks : List Block) : join (.empty :: blocks) = join blocks := by
  simp [join_cons, empty]

theorem declare_iff {blocks : List Block} {v : Symbol} :
    Declare blocks v ↔ v ∈ (join blocks).vars := by
  simp [Declare, join]

theorem separate_iff {blocks : List Block} {x y : Symbol} :
    Separate blocks x y ↔ x ≠ y ∧ ∃ vars ∈ (join blocks).disjoint, x ∈ vars ∧ y ∈ vars := by
  simp only [Separate, join, List.mem_flatMap, List.mem_reverse]
  tauto

theorem separate_comm {blocks : List Block} {x y : Symbol} :
    Separate blocks x y ↔ Separate blocks y x := by
  simp only [Separate, ne_comm, and_comm]

end Block

/-- Constants and open blocks, the innermost block first. -/
structure BlockStack where
  constants : List Symbol
  blocks : List Block
  deriving DecidableEq, Repr

/-- The operations on a scope. -/
inductive Scope.Operation where
  | push
  | pop
  | truncate (depth : Nat)
  | declareConstant (symbol : Symbol)
  | declareVariable (symbol : Symbol)
  | addFloating (typing : Typing) (label : Symbol)
  | addEssential (statement : Statement) (label : Symbol)
  | addDisjoint (vars : List Symbol)
  deriving DecidableEq, Repr

/-- The result of an operation. -/
def Scope.perform (scope : Scope) : Operation → Except Error Scope
  | .push => .ok scope.push
  | .pop => scope.pop
  | .truncate depth => .ok (scope.truncate depth)
  | .declareConstant symbol => scope.declareConstant symbol
  | .declareVariable symbol => scope.declareVariable symbol
  | .addFloating typing label => scope.addFloating typing label
  | .addEssential statement label => scope.addEssential statement label
  | .addDisjoint vars => scope.addDisjoint vars

/-- The scope after an operation, be it accepted or refused. -/
def Scope.after (scope : Scope) (operation : Operation) : Scope :=
  match scope.perform operation with
  | .ok result => result
  | .error _ => scope

/-- The scope that operations lead to, starting without constants and open blocks. -/
def Scope.reached (operations : List Operation) : Scope :=
  operations.foldl after .empty

namespace BlockStack

/-- No constants and no open blocks. -/
def empty : BlockStack := ⟨[], []⟩

/-- Change the innermost block. -/
def modifyTop (stack : BlockStack) (change : Block → Block) : Except Scope.Error BlockStack :=
  match stack.blocks with
  | [] => .error .noScope
  | block :: outer => .ok { stack with blocks := change block :: outer }

/-- The result of an operation on plain blocks. Every question is answered by going through the
blocks, and the innermost block notes the declaration. -/
def perform (stack : BlockStack) : Scope.Operation → Except Scope.Error BlockStack
  | .push => .ok { stack with blocks := .empty :: stack.blocks }
  | .pop =>
    match stack.blocks with
    | [] => .error .noScope
    | _ :: outer => .ok { stack with blocks := outer }
  | .truncate depth =>
    .ok { stack with blocks := stack.blocks.drop (stack.blocks.length - depth) }
  | .declareConstant symbol =>
    if symbol ∈ stack.constants then .error (.constantRedeclared symbol)
    else if Block.Declare stack.blocks symbol then .error (.variableAsConstant symbol)
    else .ok { stack with constants := symbol :: stack.constants }
  | .declareVariable symbol =>
    if Block.Declare stack.blocks symbol then .error (.variableRedeclared symbol)
    else if symbol ∈ stack.constants then .error (.constantAsVariable symbol)
    else stack.modifyTop fun block => { block with vars := block.vars ++ [symbol] }
  | .addFloating typing label =>
    if ¬ Block.Declare stack.blocks typing.var then .error (.inactiveVariable typing.var)
    else if typing.typecode ∉ stack.constants then .error (.undeclaredTypecode typing.typecode)
    else if (Block.typing? stack.blocks typing.var).isSome then .error (.alreadyTyped typing.var)
    else stack.modifyTop fun block =>
      { block with floating := block.floating ++ [(typing, label)] }
  | .addEssential statement label =>
    stack.modifyTop fun block =>
      { block with essential := block.essential ++ [(statement, label)] }
  | .addDisjoint vars =>
    stack.modifyTop fun block => { block with disjoint := block.disjoint ++ [vars] }

/-- The blocks after an operation, be it accepted or refused. -/
def after (stack : BlockStack) (operation : Scope.Operation) : BlockStack :=
  match stack.perform operation with
  | .ok result => result
  | .error _ => stack

/-- The blocks that operations lead to. -/
def reached (operations : List Scope.Operation) : BlockStack :=
  operations.foldl after .empty

end BlockStack

/-! ### Environments -/

namespace Environment

variable {env : Environment} {statement other : Statement} {x y v w label : Symbol}
  {vars : List Symbol}

/-- A loop that adds certain pairs for each element of a list adds the pairs of all elements. -/
theorem contains_foldl_iff {α : Type} {add : PairSet → α → PairSet} {adds : α → Prop} {pair : Pair}
    (hadd : ∀ pairs element, (add pairs element).contains pair ↔
      adds element ∨ pairs.contains pair) (elements : List α) (pairs : PairSet) :
    (elements.foldl add pairs).contains pair ↔
      (∃ element ∈ elements, adds element) ∨ pairs.contains pair := by
  induction elements generalizing pairs with
  | nil => simp
  | cons element rest ih =>
    rw [List.foldl_cons, ih, hadd, List.exists_mem_cons_iff, or_assoc, or_left_comm]

theorem contains_disjoint_addDisjoint {pair : Pair} :
    (env.addDisjoint vars).disjoint.contains pair ↔
      (∃ a ∈ vars, ∃ b ∈ vars, b ≠ a ∧ pair = Pair.of a b) ∨ env.disjoint.contains pair := by
  refine contains_foldl_iff (fun pairs a => contains_foldl_iff (fun pairs b => ?_) vars pairs) vars
    env.disjoint
  by_cases hsame : b = a
  · simp [hsame]
  · rw [if_neg hsame, contains_insert_iff]
    simp [hsame]

theorem isDisjoint_addDisjoint :
    (env.addDisjoint vars).isDisjoint x y ↔
      (x ≠ y ∧ x ∈ vars ∧ y ∈ vars) ∨ env.isDisjoint x y := by
  have hpairs : (∃ a ∈ vars, ∃ b ∈ vars, b ≠ a ∧ Pair.of x y = Pair.of a b) ↔
      x ≠ y ∧ x ∈ vars ∧ y ∈ vars := by
    constructor
    · rintro ⟨a, ha, b, hb, hne, hpair⟩
      rcases Pair.of_eq_of_iff.mp hpair with ⟨rfl, rfl⟩ | ⟨rfl, rfl⟩
      · exact ⟨hne.symm, ha, hb⟩
      · exact ⟨hne, hb, ha⟩
    · rintro ⟨hne, hx, hy⟩
      exact ⟨x, hx, y, hy, hne.symm, rfl⟩
  rw [← hpairs]
  exact contains_disjoint_addDisjoint

theorem floatingLabel?_addFloating :
    (env.addFloating v label).floatingLabel? w =
      if w = v then some label else env.floatingLabel? w := by
  rw [floatingLabel?, addFloating, Std.TreeMap.getElem?_insert]
  by_cases hsame : v = w
  · simp [hsame]
  · simp [hsame, Ne.symm hsame, floatingLabel?]

theorem essentialLabel?_addEssential :
    (env.addEssential statement label).essentialLabel? other =
      (env.essentialLabel? other).or (if other = statement then some label else none) := by
  simp only [essentialLabel?, addEssential, Std.TreeMap.getElem?_insertIfNew,
    Std.LawfulEqCmp.compare_eq_iff_eq, Std.TreeMap.mem_iff_isSome_getElem?]
  by_cases hsame : statement = other
  · subst hsame
    cases env.essential[statement]? <;> simp
  · simp [hsame, Ne.symm hsame]

/-- The environment answers questions by the given declarations. -/
structure Shows (env : Environment) (all : Block) : Prop where
  vars : ∀ v, env.isVariable v ↔ v ∈ all.vars
  disjoint : ∀ x y, env.isDisjoint x y ↔ x ≠ y ∧ ∃ vars ∈ all.disjoint, x ∈ vars ∧ y ∈ vars
  floating : ∀ v, env.floatingLabel? v =
    (all.floating.find? fun entry => entry.1.var = v).map Prod.snd
  essential : ∀ statement, env.essentialLabel? statement =
    (all.essential.find? fun entry => entry.1 = statement).map Prod.snd
  hypotheses : ∀ label, env.isHypothesis label ↔
    label ∈ all.floating.map Prod.snd ∨ label ∈ all.essential.map Prod.snd

theorem shows_empty : empty.Shows .empty := by
  constructor <;>
    simp [isVariable, isDisjoint, floatingLabel?, essentialLabel?, isHypothesis, empty, Block.empty]

variable {all : Block}

theorem Shows.addVariable (hshows : env.Shows all) :
    (env.addVariable v).Shows { all with vars := all.vars ++ [v] } :=
  { hshows with
    vars := by
      intro w
      rw [isVariable_addVariable, hshows.vars w, List.mem_append, List.mem_singleton, or_comm] }

theorem Shows.addDisjoint (hshows : env.Shows all) :
    (env.addDisjoint vars).Shows { all with disjoint := all.disjoint ++ [vars] } :=
  { hshows with
    disjoint := by
      intro x y
      rw [isDisjoint_addDisjoint, hshows.disjoint x y, ← and_or_left, or_comm]
      simp only [List.mem_append, List.mem_singleton, or_and_right, exists_or, exists_eq_left] }

/-- The label of a floating hypothesis can be noted if the variable has none yet. -/
theorem Shows.addFloating {typing : Typing} (hshows : env.Shows all)
    (huntyped : env.floatingLabel? typing.var = none) :
    (env.addFloating typing.var label).Shows
      { all with floating := all.floating ++ [(typing, label)] } :=
  { hshows with
    floating := by
      intro w
      rw [floatingLabel?_addFloating, List.find?_append, Option.map_or, ← hshows.floating w]
      by_cases hsame : w = typing.var
      · simp [hsame, huntyped]
      · simp [hsame, Ne.symm hsame]
    hypotheses := by
      intro other
      rw [isHypothesis_addFloating, hshows.hypotheses other]
      simp only [List.map_append, List.map_singleton, List.mem_append, List.mem_singleton]
      tauto }

theorem Shows.addEssential (hshows : env.Shows all) :
    (env.addEssential statement label).Shows
      { all with essential := all.essential ++ [(statement, label)] } :=
  { hshows with
    essential := by
      intro other
      rw [essentialLabel?_addEssential, List.find?_append, Option.map_or, ← hshows.essential other]
      by_cases hsame : other = statement
      · simp [hsame]
      · simp [hsame, Ne.symm hsame]
    hypotheses := by
      intro other
      rw [isHypothesis_addEssential, hshows.hypotheses other]
      simp only [List.map_append, List.map_singleton, List.mem_append, List.mem_singleton]
      tauto }

end Environment

/-! ### Stacks of blocks -/

namespace BlockStack

/-- What every stack of blocks has in common that is built by operations. -/
structure WellFormed (stack : BlockStack) : Prop where
  /-- no variable is a constant -/
  separate : ∀ v, Block.Declare stack.blocks v → v ∉ stack.constants
  /-- no variable is typed twice -/
  distinct : ((Block.join stack.blocks).floating.map fun entry => entry.1.var).Nodup
  /-- a variable that is typed in a block is declared there or in a block around -/
  typed : ∀ block outer, block :: outer <:+ stack.blocks → ∀ entry ∈ block.floating,
    Block.Declare (block :: outer) entry.1.var

theorem wellFormed_empty : empty.WellFormed where
  separate v := by simp [Block.Declare, empty]
  distinct := List.nodup_nil
  typed block outer hsuffix := by simp [empty] at hsuffix

variable {stack : BlockStack} {constants : List Symbol} {block : Block} {outer : List Block}

/-- Blocks may be closed. -/
theorem WellFormed.of_suffix (hwell : stack.WellFormed) (hsuffix : outer <:+ stack.blocks) :
    WellFormed { stack with blocks := outer } where
  separate := by
    rintro v ⟨declaring, hmem, hv⟩
    exact hwell.separate v ⟨declaring, hsuffix.mem hmem, hv⟩
  distinct := by
    obtain ⟨inner, hblocks⟩ := hsuffix
    have hsublist : (Block.join outer).floating.Sublist (Block.join stack.blocks).floating := by
      rw [← hblocks]
      simp [Block.join]
    exact (hsublist.map _).nodup hwell.distinct
  typed := fun block around hinner => hwell.typed block around (hinner.trans hsuffix)

theorem WellFormed.push (hwell : stack.WellFormed) :
    WellFormed { stack with blocks := .empty :: stack.blocks } where
  separate := by
    intro v hdeclare
    rcases Block.declare_cons.mp hdeclare with hempty | houter
    · cases hempty
    · exact hwell.separate v houter
  distinct := by
    rw [Block.join_empty_cons]
    exact hwell.distinct
  typed := by
    intro inner around hsuffix entry hentry
    rcases List.suffix_cons_iff.mp hsuffix with hself | hinner
    · cases hself
      cases hentry
    · exact hwell.typed inner around hinner entry hentry

/-- The innermost block may be replaced by one that has the blocks around it in common. -/
theorem WellFormed.replaceTop {noted : Block} (hwell : WellFormed ⟨constants, block :: outer⟩)
    (hseparate : ∀ v ∈ noted.vars, v ∉ constants)
    (hdistinct : ((Block.join (noted :: outer)).floating.map fun entry => entry.1.var).Nodup)
    (htyped : ∀ entry ∈ noted.floating, Block.Declare (noted :: outer) entry.1.var) :
    WellFormed ⟨constants, noted :: outer⟩ where
  separate := by
    intro v hdeclare
    rcases Block.declare_cons.mp hdeclare with hnoted | houter
    · exact hseparate v hnoted
    · exact hwell.separate v (Block.declare_cons.mpr (.inr houter))
  distinct := hdistinct
  typed := by
    intro inner around hsuffix
    rcases List.suffix_cons_iff.mp hsuffix with hself | hinner
    · cases hself
      exact htyped
    · exact hwell.typed inner around (hinner.trans (List.suffix_cons block outer))

theorem WellFormed.typed_top (hwell : WellFormed ⟨constants, block :: outer⟩) :
    ∀ entry ∈ block.floating, Block.Declare (block :: outer) entry.1.var :=
  hwell.typed block outer List.suffix_rfl

theorem WellFormed.separate_top (hwell : WellFormed ⟨constants, block :: outer⟩) :
    ∀ v ∈ block.vars, v ∉ constants :=
  fun v hv => hwell.separate v (Block.declare_cons.mpr (.inl hv))

theorem WellFormed.declareVariable {v : Symbol} (hwell : WellFormed ⟨constants, block :: outer⟩)
    (hv : v ∉ constants) :
    WellFormed ⟨constants, { block with vars := block.vars ++ [v] } :: outer⟩ := by
  refine hwell.replaceTop (fun w hw => ?_) ?_ fun entry hentry => ?_
  · rcases List.mem_append.mp hw with hold | hself
    · exact hwell.separate_top w hold
    · rw [List.mem_singleton.mp hself]
      exact hv
  · have hdistinct := hwell.distinct
    rw [Block.join_cons] at hdistinct ⊢
    exact hdistinct
  · exact (hwell.typed_top entry hentry).replaceTop (List.subset_append_left _ _)

theorem WellFormed.addFloating {typing : Typing} {label : Symbol}
    (hwell : WellFormed ⟨constants, block :: outer⟩)
    (hdeclared : Block.Declare (block :: outer) typing.var)
    (huntyped : Block.typing? (block :: outer) typing.var = none) :
    WellFormed ⟨constants,
      { block with floating := block.floating ++ [(typing, label)] } :: outer⟩ := by
  refine hwell.replaceTop hwell.separate_top ?_ fun entry hentry => ?_
  · have hdistinct := hwell.distinct
    have hfresh := List.find?_eq_none.mp huntyped
    rw [Block.join_cons] at hdistinct hfresh ⊢
    simp only [← List.append_assoc, List.map_append, List.map_singleton] at hdistinct ⊢
    refine List.nodup_append.mpr ⟨hdistinct, List.nodup_singleton _, ?_⟩
    rintro v hv w hw rfl
    rw [← List.map_append] at hv
    obtain ⟨entry, hentry, hvar⟩ := List.mem_map.mp hv
    exact hfresh entry hentry (by simp [hvar, List.mem_singleton.mp hw])
  · rcases List.mem_append.mp hentry with hold | hself
    · exact (hwell.typed_top entry hold).replaceTop (List.Subset.refl _)
    · rw [List.mem_singleton.mp hself]
      exact hdeclared.replaceTop (List.Subset.refl _)

/-- Other declarations concern neither variables nor their types. -/
theorem WellFormed.note {noted : Block} (hwell : WellFormed ⟨constants, block :: outer⟩)
    (hvars : noted.vars = block.vars) (hfloating : noted.floating = block.floating) :
    WellFormed ⟨constants, noted :: outer⟩ := by
  refine hwell.replaceTop ?_ ?_ fun entry hentry => ?_
  · rw [hvars]
    exact hwell.separate_top
  · have hdistinct := hwell.distinct
    rw [Block.join_cons] at hdistinct ⊢
    rwa [hfloating]
  · rw [hfloating] at hentry
    exact (hwell.typed_top entry hentry).replaceTop fun _ hv => hvars.symm ▸ hv

end BlockStack

/-! ### Scopes -/

namespace Scope

/-- Frames and blocks correspond: each environment shows the declarations of its own block and of
all blocks around, and each frame lists the hypotheses of its own block. -/
inductive Matches : List Frame → List Block → Prop where
  | nil : Matches [] []
  | cons {frame : Frame} {frames : List Frame} {block : Block} {outer : List Block} :
      Matches frames outer → frame.environment.Shows (Block.join (block :: outer)) →
      frame.floating = block.floating.map Prod.fst →
      frame.essential = block.essential.map Prod.fst → Matches (frame :: frames) (block :: outer)

theorem Matches.length_eq {frames : List Frame} {blocks : List Block}
    (hmatches : Matches frames blocks) : frames.length = blocks.length := by
  induction hmatches with
  | nil => rfl
  | cons _ _ _ _ ih => rw [List.length_cons, List.length_cons, ih]

theorem Matches.drop {frames : List Frame} {blocks : List Block}
    (hmatches : Matches frames blocks) (n : Nat) : Matches (frames.drop n) (blocks.drop n) := by
  induction n generalizing frames blocks with
  | zero => exact hmatches
  | succ n ih =>
    cases hmatches with
    | nil => exact .nil
    | cons houter _ _ _ => exact ih houter

/-- The scope stands for the stack of blocks. -/
structure Simulates (scope : Scope) (stack : BlockStack) : Prop where
  constants : ∀ symbol, scope.isConstant symbol ↔ symbol ∈ stack.constants
  frames : Matches scope.frames stack.blocks
  wellFormed : stack.WellFormed

/-- Both operations are refused for the same reason, or both are accepted with corresponding
results. -/
def Corresponds : Except Error Scope → Except Error BlockStack → Prop
  | .ok scope, .ok stack => scope.Simulates stack
  | .error error, .error other => error = other
  | _, _ => False

variable {scope : Scope} {stack : BlockStack}

theorem simulates_empty : Scope.empty.Simulates .empty where
  constants symbol := by simp [empty, isConstant, BlockStack.empty]
  frames := .nil
  wellFormed := BlockStack.wellFormed_empty

theorem Simulates.shows (hsimulates : scope.Simulates stack) :
    scope.environment.Shows (Block.join stack.blocks) := by
  obtain ⟨constants, frames⟩ := scope
  obtain ⟨names, blocks⟩ := stack
  cases hsimulates.frames with
  | nil => exact Environment.shows_empty
  | cons _ hshows _ _ => exact hshows

theorem Simulates.isVariable_iff (hsimulates : scope.Simulates stack) {v : Symbol} :
    scope.isVariable v ↔ Block.Declare stack.blocks v :=
  (hsimulates.shows.vars v).trans Block.declare_iff.symm

theorem Simulates.push (hsimulates : scope.Simulates stack) :
    scope.push.Simulates { stack with blocks := .empty :: stack.blocks } where
  constants := hsimulates.constants
  frames := by
    refine .cons hsimulates.frames ?_ rfl rfl
    rw [Block.join_empty_cons]
    exact hsimulates.shows
  wellFormed := hsimulates.wellFormed.push

theorem Simulates.drop (hsimulates : scope.Simulates stack) (n : Nat) :
    Simulates { scope with frames := scope.frames.drop n }
      { stack with blocks := stack.blocks.drop n } where
  constants := hsimulates.constants
  frames := hsimulates.frames.drop n
  wellFormed := hsimulates.wellFormed.of_suffix (List.drop_suffix n stack.blocks)

theorem Simulates.declareConstant (hsimulates : scope.Simulates stack) (symbol : Symbol) :
    Corresponds (scope.declareConstant symbol) (stack.perform (.declareConstant symbol)) := by
  rw [Scope.declareConstant, BlockStack.perform]
  simp only [hsimulates.constants symbol, hsimulates.isVariable_iff]
  split_ifs with hconstant hvariable
  · rfl
  · rfl
  · refine ⟨fun other => ?_, hsimulates.frames, ?_⟩
    · rw [isConstant, contains_insert_iff, List.mem_cons]
      exact or_congr Iff.rfl (hsimulates.constants other)
    · refine { hsimulates.wellFormed with separate := fun v hdeclare => ?_ }
      rw [List.mem_cons, not_or]
      exact ⟨fun hsame => hvariable (hsame ▸ hdeclare),
        hsimulates.wellFormed.separate v hdeclare⟩

/-- A declaration in the innermost block. It suffices that the environment goes on showing the
declarations, and that the blocks stay well formed. -/
theorem Simulates.modifyTop {change : Frame → Frame} {note : Block → Block}
    (hsimulates : scope.Simulates stack)
    (hshows : ∀ frame block outer, stack.blocks = block :: outer →
      frame.environment.Shows (Block.join (block :: outer)) →
      (change frame).environment.Shows (Block.join (note block :: outer)))
    (hfloating : ∀ frame block, frame.floating = block.floating.map Prod.fst →
      (change frame).floating = (note block).floating.map Prod.fst)
    (hessential : ∀ frame block, frame.essential = block.essential.map Prod.fst →
      (change frame).essential = (note block).essential.map Prod.fst)
    (hwell : ∀ block outer, stack.blocks = block :: outer →
      BlockStack.WellFormed ⟨stack.constants, block :: outer⟩ →
      BlockStack.WellFormed ⟨stack.constants, note block :: outer⟩) :
    Corresponds (scope.modifyTop change) (stack.modifyTop note) := by
  obtain ⟨constants, frames⟩ := scope
  obtain ⟨names, blocks⟩ := stack
  obtain ⟨hconstants, hmatches, hformed⟩ := hsimulates
  cases hmatches with
  | nil => rfl
  | cons houter hshown hownFloating hownEssential =>
    exact ⟨hconstants, .cons houter (hshows _ _ _ rfl hshown) (hfloating _ _ hownFloating)
      (hessential _ _ hownEssential), hwell _ _ rfl hformed⟩

theorem Simulates.declareVariable (hsimulates : scope.Simulates stack) (symbol : Symbol) :
    Corresponds (scope.declareVariable symbol) (stack.perform (.declareVariable symbol)) := by
  rw [Scope.declareVariable, BlockStack.perform]
  simp only [hsimulates.constants symbol, hsimulates.isVariable_iff]
  split_ifs with hvariable hconstant
  · rfl
  · rfl
  · refine hsimulates.modifyTop (fun frame block outer _ hshows => ?_) (fun _ _ => id)
      (fun _ _ => id) fun block outer _ hwell => hwell.declareVariable hconstant
    rw [Block.join_cons] at hshows ⊢
    simpa using hshows.addVariable

theorem Simulates.addFloating (hsimulates : scope.Simulates stack) (typing : Typing)
    (label : Symbol) :
    Corresponds (scope.addFloating typing label) (stack.perform (.addFloating typing label)) := by
  have hlabel : (scope.environment.floatingLabel? typing.var).isSome =
      (Block.typing? stack.blocks typing.var).isSome := by
    rw [hsimulates.shows.floating typing.var, Option.isSome_map]
    rfl
  rw [Scope.addFloating, BlockStack.perform]
  simp only [Bool.not_eq_true', ← Bool.not_eq_true, hsimulates.constants typing.typecode,
    hsimulates.isVariable_iff, hlabel]
  split_ifs with hvariable hconstant htyped
  · rfl
  · have huntyped := Option.not_isSome_iff_eq_none.mp htyped
    refine hsimulates.modifyTop (fun frame block outer hblocks hshows => ?_)
      (fun frame block hfloating => ?_) (fun _ _ => id) fun block outer hblocks hwell => ?_
    · have hnone : frame.environment.floatingLabel? typing.var = none := by
        rw [hblocks] at huntyped
        rw [hshows.floating typing.var]
        exact congrArg (Option.map Prod.snd) huntyped
      rw [Block.join_cons] at hshows ⊢
      simpa using hshows.addFloating hnone
    · rw [hfloating, List.map_append]
      rfl
    · rw [hblocks] at hvariable huntyped
      exact hwell.addFloating hvariable huntyped
  · rfl
  · rfl

theorem Simulates.addEssential (hsimulates : scope.Simulates stack) (statement : Statement)
    (label : Symbol) :
    Corresponds (scope.addEssential statement label)
      (stack.perform (.addEssential statement label)) := by
  refine hsimulates.modifyTop (fun frame block outer _ hshows => ?_) (fun _ _ => id)
    (fun frame block hessential => ?_) fun block outer _ hwell => hwell.note rfl rfl
  · rw [Block.join_cons] at hshows ⊢
    simpa using hshows.addEssential
  · rw [hessential, List.map_append]
    rfl

theorem Simulates.addDisjoint (hsimulates : scope.Simulates stack) (vars : List Symbol) :
    Corresponds (scope.addDisjoint vars) (stack.perform (.addDisjoint vars)) := by
  refine hsimulates.modifyTop (fun frame block outer _ hshows => ?_) (fun _ _ => id)
    (fun _ _ => id) fun block outer _ hwell => hwell.note rfl rfl
  rw [Block.join_cons] at hshows ⊢
  simpa using hshows.addDisjoint

/-- Every operation is accepted or refused by both alike. -/
theorem Simulates.perform (hsimulates : scope.Simulates stack) (operation : Operation) :
    Corresponds (scope.perform operation) (stack.perform operation) := by
  cases operation with
  | push => exact hsimulates.push
  | pop =>
    obtain ⟨constants, frames⟩ := scope
    obtain ⟨names, blocks⟩ := stack
    have hdrop := hsimulates.drop 1
    cases hsimulates.frames with
    | nil => rfl
    | cons _ _ _ _ => exact hdrop
  | truncate depth =>
    have hdrop := hsimulates.drop (scope.frames.length - depth)
    rw [hsimulates.frames.length_eq] at hdrop
    rw [Scope.perform, truncate, hsimulates.frames.length_eq]
    exact hdrop
  | declareConstant symbol => exact hsimulates.declareConstant symbol
  | declareVariable symbol => exact hsimulates.declareVariable symbol
  | addFloating typing label => exact hsimulates.addFloating typing label
  | addEssential statement label => exact hsimulates.addEssential statement label
  | addDisjoint vars => exact hsimulates.addDisjoint vars

theorem Simulates.after (hsimulates : scope.Simulates stack) (operation : Operation) :
    (scope.after operation).Simulates (stack.after operation) := by
  have hcorresponds := hsimulates.perform operation
  rw [Scope.after, BlockStack.after]
  cases hscope : scope.perform operation with
  | error error =>
    cases hstack : stack.perform operation with
    | error other => exact hsimulates
    | ok result => simp [hscope, hstack, Corresponds] at hcorresponds
  | ok result =>
    cases hstack : stack.perform operation with
    | error other => simp [hscope, hstack, Corresponds] at hcorresponds
    | ok other =>
      rw [hscope, hstack] at hcorresponds
      exact hcorresponds

theorem simulates_reached (operations : List Operation) :
    (reached operations).Simulates (BlockStack.reached operations) := by
  have hrun : ∀ {scope : Scope} {stack : BlockStack}, scope.Simulates stack →
      (operations.foldl Scope.after scope).Simulates
        (operations.foldl BlockStack.after stack) := by
    induction operations with
    | nil => exact id
    | cons operation rest ih => exact fun hsimulates => ih (hsimulates.after operation)
  exact hrun simulates_empty

theorem Simulates.perform_eq_error_iff (hsimulates : scope.Simulates stack) {operation : Operation}
    {error : Error} :
    scope.perform operation = .error error ↔ stack.perform operation = .error error := by
  have hcorresponds := hsimulates.perform operation
  cases hscope : scope.perform operation <;> cases hstack : stack.perform operation <;>
    simp_all [Corresponds]

/-- What the frames list of their own is what the blocks list. -/
theorem Matches.flatMap_eq {α : Type} {own : Frame → List α} {listed : Block → List α}
    (hown : ∀ frame block, frame.floating = block.floating.map Prod.fst →
      frame.essential = block.essential.map Prod.fst → own frame = listed block)
    {frames : List Frame} {blocks : List Block} (hmatches : Matches frames blocks) :
    frames.reverse.flatMap own = blocks.reverse.flatMap listed := by
  induction hmatches with
  | nil => rfl
  | cons _ _ hfloating hessential ih =>
    rw [List.reverse_cons, List.reverse_cons, List.flatMap_append, List.flatMap_append, ih,
      List.flatMap_singleton, List.flatMap_singleton, hown _ _ hfloating hessential]

/-- All questions to the scope are answered by what the open blocks declare themselves. -/
structure AnswersAs (scope : Scope) (stack : BlockStack) : Prop where
  depth : scope.depth = stack.blocks.length
  constant : ∀ symbol, scope.isConstant symbol ↔ symbol ∈ stack.constants
  active : ∀ v, scope.isVariable v ↔ Block.Declare stack.blocks v
  disjoint : ∀ x y, scope.environment.isDisjoint x y ↔ Block.Separate stack.blocks x y
  /-- the label of a variable is that of its `$f` statement, wherever that stands -/
  floatingLabel : ∀ v label, scope.environment.floatingLabel? v = some label ↔
    ∃ block ∈ stack.blocks, ∃ entry ∈ block.floating, entry.1.var = v ∧ entry.2 = label
  /-- the label of a statement is that of its earliest `$e` statement -/
  essentialLabel : ∀ statement, scope.environment.essentialLabel? statement =
    (Block.hypothesis? stack.blocks statement).map Prod.snd
  hypothesis : ∀ label, scope.environment.isHypothesis label ↔ ∃ block ∈ stack.blocks,
    label ∈ block.floating.map Prod.snd ∨ label ∈ block.essential.map Prod.snd
  floating : scope.floating = (Block.join stack.blocks).floating.map Prod.fst
  essential : scope.essential = (Block.join stack.blocks).essential.map Prod.fst

/-- As no variable is typed twice, the first `$f` statement of a variable is the only one. -/
theorem Simulates.floatingLabel?_eq_some_iff (hsimulates : scope.Simulates stack)
    {v label : Symbol} :
    scope.environment.floatingLabel? v = some label ↔
      ∃ block ∈ stack.blocks, ∃ entry ∈ block.floating, entry.1.var = v ∧ entry.2 = label := by
  have hdistinct := hsimulates.wellFormed.distinct
  have hmem : ∀ entry, entry ∈ (Block.join stack.blocks).floating ↔
      ∃ block ∈ stack.blocks, entry ∈ block.floating := by
    simp [Block.join]
  rw [hsimulates.shows.floating v, Option.map_eq_some_iff]
  constructor
  · rintro ⟨entry, hfind, hlabel⟩
    obtain ⟨block, hblock, hentry⟩ := (hmem entry).mp (List.mem_of_find?_eq_some hfind)
    exact ⟨block, hblock, entry, hentry, by simpa using List.find?_some hfind, hlabel⟩
  · rintro ⟨block, hblock, entry, hentry, hvar, hlabel⟩
    have hall : entry ∈ (Block.join stack.blocks).floating :=
      (hmem entry).mpr ⟨block, hblock, hentry⟩
    have hsome : ((Block.join stack.blocks).floating.find? fun entry =>
        entry.1.var = v).isSome :=
      List.find?_isSome.mpr ⟨entry, hall, decide_eq_true hvar⟩
    obtain ⟨found, hfind⟩ := Option.isSome_iff_exists.mp hsome
    have hsame : found = entry := by
      refine List.inj_on_of_nodup_map hdistinct (List.mem_of_find?_eq_some hfind) hall ?_
      have hfound := List.find?_some hfind
      rw [hvar]
      simpa using hfound
    exact ⟨found, hfind, hsame ▸ hlabel⟩

theorem Simulates.answersAs (hsimulates : scope.Simulates stack) : scope.AnswersAs stack where
  depth := hsimulates.frames.length_eq
  constant := hsimulates.constants
  active _ := hsimulates.isVariable_iff
  disjoint x y := (hsimulates.shows.disjoint x y).trans Block.separate_iff.symm
  floatingLabel _ _ := hsimulates.floatingLabel?_eq_some_iff
  essentialLabel := hsimulates.shows.essential
  hypothesis label := by
    rw [hsimulates.shows.hypotheses label]
    simp only [Block.join, List.map_flatMap, List.mem_flatMap, List.mem_reverse]
    rw [← exists_or]
    simp only [and_or_left]
  floating := by
    rw [Scope.floating, Block.join, List.map_flatMap]
    exact hsimulates.frames.flatMap_eq fun _ _ hfloating _ => hfloating
  essential := by
    rw [Scope.essential, Block.join, List.map_flatMap]
    exact hsimulates.frames.flatMap_eq fun _ _ _ hessential => hessential

/-! ### Closing a block -/

/-- What an operation keeps: all constants, and the blocks around the innermost one, unless it does
nothing but close blocks. -/
structure Keeps (scope result : Scope) : Prop where
  constants : ∀ symbol, scope.isConstant symbol → result.isConstant symbol
  frames : scope.frames.tail <:+ result.frames.tail ∨ result.frames <:+ scope.frames

variable {result : Scope}

theorem Keeps.refl (scope : Scope) : scope.Keeps scope :=
  ⟨fun _ => id, .inr List.suffix_rfl⟩

theorem keeps_of_modifyTop {change : Frame → Frame}
    (hmodify : scope.modifyTop change = .ok result) : scope.Keeps result := by
  refine ⟨fun _ => isConstant_of_constants_eq (constants_of_modifyTop hmodify), .inl ?_⟩
  obtain ⟨frame, outer, hframes, rfl⟩ := modifyTop_eq_ok_iff.mp hmodify
  rw [hframes]
  exact List.suffix_rfl

theorem keeps_of_perform {operation : Operation} (hperform : scope.perform operation = .ok result) :
    scope.Keeps result := by
  cases operation with
  | push =>
    cases hperform
    exact ⟨fun _ => id, .inl (List.tail_suffix scope.frames)⟩
  | pop =>
    exact ⟨fun _ => isConstant_of_constants_eq (constants_of_pop hperform),
      .inr (suffix_of_pop hperform)⟩
  | truncate depth =>
    cases hperform
    exact ⟨fun _ => id, .inr (List.drop_suffix _ scope.frames)⟩
  | declareConstant symbol =>
    refine ⟨fun _ => isConstant_of_declareConstant hperform, .inr ?_⟩
    rw [perform, declareConstant] at hperform
    split_ifs at hperform
    cases hperform
    exact List.suffix_rfl
  | declareVariable symbol =>
    rw [perform, declareVariable] at hperform
    split_ifs at hperform
    exact keeps_of_modifyTop hperform
  | addFloating typing label =>
    rw [perform, addFloating] at hperform
    split_ifs at hperform
    exact keeps_of_modifyTop hperform
  | addEssential statement label => exact keeps_of_modifyTop hperform
  | addDisjoint vars => exact keeps_of_modifyTop hperform

theorem keeps_after (scope : Scope) (operation : Operation) :
    scope.Keeps (scope.after operation) := by
  rw [after]
  split
  · next result hperform => exact keeps_of_perform hperform
  · exact Keeps.refl scope

/-- Inside of a block that is opened around `base`, the frames of `base` stay where they are. -/
theorem Keeps.suffix_tail {base : List Frame} (hkeeps : scope.Keeps result)
    (hbase : base <:+ scope.frames.tail) (hinside : base.length < result.depth) :
    base <:+ result.frames.tail := by
  rcases hkeeps.frames with htail | hclosed
  · exact hbase.trans htail
  · -- both are ends of the same list, and the result is longer
    have hframes : base <:+ scope.frames := hbase.trans (List.tail_suffix _)
    refine List.suffix_of_suffix_length_le hframes ((List.tail_suffix _).trans hclosed) ?_
    rw [List.length_tail]
    exact Nat.le_sub_one_of_lt hinside

/-- When that block is closed, what is left of the frames is what was open around it. -/
theorem Keeps.suffix_of_closed {base : List Frame} (hkeeps : scope.Keeps result)
    (hbase : base <:+ scope.frames.tail) (hclosed : result.depth ≤ base.length) :
    result.frames <:+ base := by
  have hframes : base <:+ scope.frames := hbase.trans (List.tail_suffix _)
  rcases hkeeps.frames with htail | hsuffix
  · have hlength := (hbase.trans htail).length_le
    rw [List.length_tail] at hlength
    unfold depth at hclosed
    have hnone : result.frames = [] := List.length_eq_zero_iff.mp (by omega)
    rw [hnone]
    exact List.nil_suffix
  · exact List.suffix_of_suffix_length_le hsuffix hframes hclosed

theorem suffix_tail_foldl_after {base : List Frame} {operations : List Operation}
    (hbase : base <:+ scope.frames.tail)
    (hinside : ∀ done, done <+: operations → base.length < (done.foldl after scope).depth) :
    base <:+ (operations.foldl after scope).frames.tail := by
  induction operations generalizing scope with
  | nil => exact hbase
  | cons operation rest ih =>
    have hstep : base.length < (scope.after operation).depth :=
      hinside [operation] (List.prefix_append [operation] rest)
    exact ih ((keeps_after scope operation).suffix_tail hbase hstep) fun done hdone =>
      hinside (operation :: done) (List.cons_prefix_cons.mpr ⟨rfl, hdone⟩)

theorem reached_append (operations more : List Operation) :
    reached (operations ++ more) = more.foldl after (reached operations) :=
  List.foldl_append

/-- A block is opened in the scope, stays open during the inner operations, and is closed by the
last one. -/
structure ClosesBlock (scope : Scope) (inner : List Operation) (closing : Operation) : Prop where
  inside : ∀ done, done <+: inner → scope.depth < (done.foldl after scope.push).depth
  closed : ((inner.foldl after scope.push).after closing).depth ≤ scope.depth

/-- Scopes answer as plain blocks do, in every state that operations lead to. There no variable is a
constant, each `$f` statement types an active variable, and no variable is typed twice. Every
further operation is refused by both for the same reason or accepted by both, and a refused one has
no effect. When a block is closed, the open frames are frames from before it was opened, whatever
happened in it, and the constants are the ones that were known in it. -/
theorem reached_answersAs_blocks (operations : List Operation) :
    (reached operations).AnswersAs (BlockStack.reached operations) ∧
      (BlockStack.reached operations).WellFormed ∧
      (∀ x y, (reached operations).environment.isDisjoint x y =
        (reached operations).environment.isDisjoint y x) ∧
      (∀ x, (reached operations).environment.isDisjoint x x = false) ∧
      (∀ operation error, (reached operations).perform operation = .error error ↔
        (BlockStack.reached operations).perform operation = .error error) ∧
      (∀ operation error, (reached operations).perform operation = .error error →
        reached (operations ++ [operation]) = reached operations) ∧
      ∀ inner closing, (reached operations).ClosesBlock inner closing →
        (reached (operations ++ .push :: inner ++ [closing])).frames <:+
            (reached operations).frames ∧
          ∀ symbol, (reached (operations ++ .push :: inner)).isConstant symbol →
            (reached (operations ++ .push :: inner ++ [closing])).isConstant symbol := by
  have hsimulates := simulates_reached operations
  have hdisjoint := hsimulates.answersAs.disjoint
  refine ⟨hsimulates.answersAs, hsimulates.wellFormed, fun x y => ?_, fun x => ?_,
    fun _ _ => hsimulates.perform_eq_error_iff, fun operation error herror => ?_,
    fun inner closing hcloses => ?_⟩
  · rw [Bool.eq_iff_iff, hdisjoint x y, hdisjoint y x]
    exact Block.separate_comm
  · rw [← Bool.not_eq_true, hdisjoint x x]
    exact fun hseparate => hseparate.1 rfl
  · rw [reached_append, List.foldl_cons, List.foldl_nil, after, herror]
  · have hinner : reached (operations ++ .push :: inner) =
        inner.foldl after (reached operations).push := reached_append operations (.push :: inner)
    rw [reached_append _ [closing], List.foldl_cons, List.foldl_nil, hinner]
    have hkeeps := keeps_after (inner.foldl after (reached operations).push) closing
    exact ⟨hkeeps.suffix_of_closed (suffix_tail_foldl_after List.suffix_rfl hcloses.inside)
      hcloses.closed, hkeeps.constants⟩

/-- A constant that is declared in a block within the block. -/
theorem reached_answersAs_blocks_nested :
    (reached [.push]).ClosesBlock [.push, .declareConstant "wff", .pop, .declareVariable "ph",
        .addFloating ⟨"wff", "ph"⟩ "wph"] .pop ∧
      (reached [.push, .push, .push, .declareConstant "wff", .pop, .declareVariable "ph",
        .addFloating ⟨"wff", "ph"⟩ "wph", .pop]).isConstant "wff" := by
  have hcloses : (reached [.push]).ClosesBlock [.push, .declareConstant "wff", .pop,
      .declareVariable "ph", .addFloating ⟨"wff", "ph"⟩ "wph"] .pop := by
    constructor
    · intro done hdone
      rw [← List.mem_inits] at hdone
      revert done
      decide +kernel
    · decide +kernel
  obtain ⟨-, -, -, -, -, -, hclosing⟩ := reached_answersAs_blocks [.push]
  exact ⟨hcloses, (hclosing _ _ hcloses).2 "wff" (by decide +kernel)⟩

end Scope

end Metamath
