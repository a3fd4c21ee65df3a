import Mathlib.Data.List.Sort
import Metamath.Proofs.Recording

/-!
# Mandatory frames

An assertion takes from its place what belongs to it: all essential hypotheses, and of the floating
hypotheses and the disjoint variables those that are about its own variables. A scope computes this
from an environment, which knows no order, and from lists of the single blocks. Here the result is
described by the plain list of all declarations that are in force, and the description leaves no
choice. So a declaration that is of no concern to the description does not change the assertion.
-/

namespace Metamath

instance : Std.Irrefl Pair.Precedes where
  irrefl pair hprecedes :=
    hprecedes.elim (String.lt_irrefl pair.1) fun hsecond => String.lt_irrefl pair.2 hsecond.2

instance : Std.Antisymm Pair.Precedes where
  antisymm first second hprecedes hfollows := by
    rcases hprecedes with hless | ⟨heq, hless⟩
    · rcases hfollows with hgreater | ⟨heq, -⟩
      · exact absurd (String.lt_trans hless hgreater) (String.lt_irrefl first.1)
      · exact absurd hless (heq ▸ String.lt_irrefl first.1)
    · rcases hfollows with hgreater | ⟨-, hgreater⟩
      · exact absurd hgreater (heq ▸ String.lt_irrefl first.1)
      · exact absurd (String.lt_trans hless hgreater) (String.lt_irrefl first.2)

/-! ### Assertions of a list of declarations -/

namespace Block

variable {all other third : Block} {conclusion : Statement} {assertion : Assertion}
  {operation : Scope.Operation}

/-- The variables of an assertion with the given conclusion are the declared ones that occur in an
essential hypothesis or in the conclusion. -/
def Mandatory (all : Block) (conclusion : Statement) (v : Symbol) : Prop :=
  v ∈ all.vars ∧ ∃ statement ∈ conclusion :: all.essential.map Prod.fst, v ∈ statement

instance (all : Block) (conclusion : Statement) (v : Symbol) :
    Decidable (all.Mandatory conclusion v) :=
  inferInstanceAs (Decidable (v ∈ all.vars ∧
    ∃ statement ∈ conclusion :: all.essential.map Prod.fst, v ∈ statement))

/-- The two variables are different members of one `$d` statement. -/
def Apart (all : Block) (x y : Symbol) : Prop :=
  x ≠ y ∧ ∃ vars ∈ all.disjoint, x ∈ vars ∧ y ∈ vars

/-- The assertion is made of what belongs to it out of the given declarations. -/
structure Frames (all : Block) (conclusion : Statement) (assertion : Assertion) : Prop where
  conclusion_eq : assertion.conclusion = conclusion
  essential : assertion.essential = all.essential.map Prod.fst
  floating : assertion.floating =
    (all.floating.map Prod.fst).filter fun typing => all.Mandatory conclusion typing.var
  distinct : assertion.vars.Nodup
  ascending : assertion.disjoint.Pairwise Pair.Precedes
  disjoint : ∀ x y, (x, y) ∈ assertion.disjoint ↔
    x < y ∧ all.Apart x y ∧ all.Mandatory conclusion x ∧ all.Mandatory conclusion y

/-- Only one assertion is made of the declarations, because a set can be listed in ascending order
in one way only. -/
theorem Frames.unique {found : Assertion} (hframes : all.Frames conclusion assertion)
    (hfound : all.Frames conclusion found) : found = assertion := by
  have hpairs : found.disjoint = assertion.disjoint := by
    apply hfound.ascending.eq_of_mem_iff hframes.ascending
    intro pair
    exact (hfound.disjoint pair.1 pair.2).trans (hframes.disjoint pair.1 pair.2).symm
  cases found
  cases assertion
  rw [Assertion.mk.injEq]
  exact ⟨hpairs, hfound.floating.trans hframes.floating.symm,
    hfound.essential.trans hframes.essential.symm,
    hfound.conclusion_eq.trans hframes.conclusion_eq.symm⟩

/-- The declarations agree in all that an assertion with the given conclusion is made of. -/
structure Alike (conclusion : Statement) (all other : Block) : Prop where
  essential : all.essential = other.essential
  mandatory : ∀ v, all.Mandatory conclusion v ↔ other.Mandatory conclusion v
  floating :
    (all.floating.map Prod.fst).filter (fun typing => all.Mandatory conclusion typing.var) =
      (other.floating.map Prod.fst).filter fun typing => other.Mandatory conclusion typing.var
  apart : ∀ x y, all.Mandatory conclusion x → all.Mandatory conclusion y →
    (all.Apart x y ↔ other.Apart x y)

theorem Alike.refl (conclusion : Statement) (all : Block) : Alike conclusion all all :=
  ⟨rfl, fun _ => Iff.rfl, rfl, fun _ _ _ _ => Iff.rfl⟩

theorem Alike.trans (hfirst : Alike conclusion all other) (hsecond : Alike conclusion other third) :
    Alike conclusion all third where
  essential := hfirst.essential.trans hsecond.essential
  mandatory v := (hfirst.mandatory v).trans (hsecond.mandatory v)
  floating := hfirst.floating.trans hsecond.floating
  apart x y hx hy := (hfirst.apart x y hx hy).trans
    (hsecond.apart x y ((hfirst.mandatory x).mp hx) ((hfirst.mandatory y).mp hy))

/-- It does not matter which of two lists of declarations an assertion is made of if they agree in
what it is made of. -/
theorem Alike.frames (halike : Alike conclusion all other)
    (hframes : other.Frames conclusion assertion) : all.Frames conclusion assertion where
  conclusion_eq := hframes.conclusion_eq
  essential := by rw [hframes.essential, halike.essential]
  floating := hframes.floating.trans halike.floating.symm
  distinct := hframes.distinct
  ascending := hframes.ascending
  disjoint x y := by
    rw [hframes.disjoint x y, ← halike.mandatory x, ← halike.mandatory y]
    constructor
    · rintro ⟨hless, hapart, hx, hy⟩
      exact ⟨hless, (halike.apart x y hx hy).mpr hapart, hx, hy⟩
    · rintro ⟨hless, hapart, hx, hy⟩
      exact ⟨hless, (halike.apart x y hx hy).mp hapart, hx, hy⟩

/-! ### Declarations that do not matter -/

/-- The declarations with that of an operation at their end. -/
def note (all : Block) : Scope.Operation → Block
  | .declareVariable v => { all with vars := all.vars ++ [v] }
  | .addFloating typing label => { all with floating := all.floating ++ [(typing, label)] }
  | .addEssential statement label => { all with essential := all.essential ++ [(statement, label)] }
  | .addDisjoint vars => { all with disjoint := all.disjoint ++ [vars] }
  | .push | .pop | .truncate _ | .declareConstant _ => all

/-- The operation closes no block and declares nothing that belongs to an assertion with the given
conclusion: variables that do not occur in it, types of variables that are not its own, and at most
one of its own variables to be disjoint from others. -/
def Immaterial (all : Block) (conclusion : Statement) : Scope.Operation → Prop
  | .push | .declareConstant _ => True
  | .declareVariable v => ∀ statement ∈ conclusion :: all.essential.map Prod.fst, v ∉ statement
  | .addFloating typing _ => ¬ all.Mandatory conclusion typing.var
  | .addDisjoint vars => ∀ x ∈ vars, ∀ y ∈ vars, all.Mandatory conclusion x →
      all.Mandatory conclusion y → x = y
  | .addEssential _ _ | .pop | .truncate _ => False

instance (all : Block) (conclusion : Statement) :
    (operation : Scope.Operation) → Decidable (all.Immaterial conclusion operation)
  | .push | .declareConstant _ => .isTrue trivial
  | .declareVariable v => inferInstanceAs (Decidable
      (∀ statement ∈ conclusion :: all.essential.map Prod.fst, v ∉ statement))
  | .addFloating typing _ => inferInstanceAs (Decidable ¬ all.Mandatory conclusion typing.var)
  | .addDisjoint vars => inferInstanceAs (Decidable (∀ x ∈ vars, ∀ y ∈ vars,
      all.Mandatory conclusion x → all.Mandatory conclusion y → x = y))
  | .addEssential _ _ | .pop | .truncate _ => .isFalse id

/-- Such an operation does not concern the assertion. -/
theorem alike_note (himmaterial : all.Immaterial conclusion operation) :
    Alike conclusion all (all.note operation) := by
  cases operation with
  | push => exact .refl conclusion all
  | declareConstant symbol => exact .refl conclusion all
  | declareVariable v =>
    have hmandatory : ∀ w, all.Mandatory conclusion w ↔
        (all.note (.declareVariable v)).Mandatory conclusion w := by
      intro w
      simp only [Mandatory, note, List.mem_append, List.mem_singleton]
      -- the new variable is declared, but does not occur
      refine and_congr_left fun ⟨statement, hstatement, hw⟩ => (or_iff_left ?_).symm
      rintro rfl
      exact himmaterial statement hstatement hw
    refine ⟨rfl, hmandatory, ?_, fun _ _ _ _ => Iff.rfl⟩
    simp only [hmandatory]
    rfl
  | addFloating typing label =>
    refine ⟨rfl, fun _ => Iff.rfl, ?_, fun _ _ _ _ => Iff.rfl⟩
    have hother : ¬ all.Mandatory conclusion typing.var := himmaterial
    have hself : [typing].filter (fun typing => all.Mandatory conclusion typing.var) = [] := by
      simpa using hother
    show _ = ((all.floating ++ [(typing, label)]).map Prod.fst).filter
      fun typing => all.Mandatory conclusion typing.var
    rw [List.map_append, List.filter_append, List.map_singleton, hself, List.append_nil]
  | addDisjoint vars =>
    refine ⟨rfl, fun _ => Iff.rfl, rfl, fun x y hx hy => and_congr_right fun hne => ?_⟩
    have hnew : ¬ (x ∈ vars ∧ y ∈ vars) := fun hboth =>
      hne (himmaterial x hboth.1 y hboth.2 hx hy)
    simp only [note, List.mem_append, List.mem_singleton, or_and_right, exists_or, exists_eq_left,
      or_iff_left hnew]
  | addEssential statement label => exact himmaterial.elim
  | pop => exact himmaterial.elim
  | truncate depth => exact himmaterial.elim

/-- What does not matter goes on not to matter. -/
theorem Alike.immaterial (halike : Alike conclusion all other)
    (himmaterial : all.Immaterial conclusion operation) :
    other.Immaterial conclusion operation := by
  cases operation with
  | push => exact trivial
  | declareConstant symbol => exact trivial
  | declareVariable v =>
    rw [Immaterial, ← halike.essential]
    exact himmaterial
  | addFloating typing label =>
    rw [Immaterial, ← halike.mandatory]
    exact himmaterial
  | addDisjoint vars =>
    simp only [Immaterial, ← halike.mandatory]
    exact himmaterial
  | addEssential statement label => exact himmaterial.elim
  | pop => exact himmaterial.elim
  | truncate depth => exact himmaterial.elim

end Block

namespace BlockStack

variable {stack result : BlockStack} {conclusion : Statement} {operation : Scope.Operation}

theorem join_of_modifyTop {change : Block → Block}
    (hnote : ∀ block outer,
      Block.join (change block :: outer) = (Block.join (block :: outer)).note operation)
    (hmodify : stack.modifyTop change = .ok result) :
    Block.join result.blocks = (Block.join stack.blocks).note operation := by
  obtain ⟨constants, blocks⟩ := stack
  cases blocks with
  | nil => cases hmodify
  | cons block outer =>
    cases hmodify
    exact hnote block outer

/-- An operation that closes no block adds its declaration to those that are in force. -/
theorem join_of_perform (hperform : stack.perform operation = .ok result)
    (hpop : operation ≠ .pop) (htruncate : ∀ depth, operation ≠ .truncate depth) :
    Block.join result.blocks = (Block.join stack.blocks).note operation := by
  cases operation with
  | push =>
    cases hperform
    exact Block.join_empty_cons stack.blocks
  | pop => exact absurd rfl hpop
  | truncate depth => exact absurd rfl (htruncate depth)
  | declareConstant symbol =>
    rw [perform] at hperform
    split_ifs at hperform
    cases hperform
    rfl
  | declareVariable symbol =>
    rw [perform] at hperform
    split_ifs at hperform
    exact join_of_modifyTop (by simp [Block.join_cons, Block.note]) hperform
  | addFloating typing label =>
    rw [perform] at hperform
    split_ifs at hperform
    exact join_of_modifyTop (by simp [Block.join_cons, Block.note]) hperform
  | addEssential statement label =>
    exact join_of_modifyTop (by simp [Block.join_cons, Block.note]) hperform
  | addDisjoint vars =>
    exact join_of_modifyTop (by simp [Block.join_cons, Block.note]) hperform

theorem alike_after (himmaterial : (Block.join stack.blocks).Immaterial conclusion operation) :
    Block.Alike conclusion (Block.join stack.blocks)
      (Block.join (stack.after operation).blocks) := by
  rw [after]
  split
  · next result hperform =>
    rw [join_of_perform hperform]
    · exact Block.alike_note himmaterial
    · rintro rfl
      exact himmaterial
    · rintro depth rfl
      exact himmaterial
  · exact .refl conclusion _

/-- Operations none of which matters at first do not matter together. -/
theorem alike_foldl_after {operations : List Scope.Operation}
    (himmaterial : ∀ operation ∈ operations,
      (Block.join stack.blocks).Immaterial conclusion operation) :
    Block.Alike conclusion (Block.join stack.blocks)
      (Block.join (operations.foldl after stack).blocks) := by
  induction operations generalizing stack with
  | nil => exact .refl conclusion _
  | cons operation rest ih =>
    rw [List.forall_mem_cons] at himmaterial
    have hstep := alike_after himmaterial.1
    -- the variables of the assertion stay the same, and so does what is immaterial to it
    exact hstep.trans (ih fun other hother => hstep.immaterial (himmaterial.2 other hother))

end BlockStack

/-! ### Assertions of a scope -/

theorem Environment.ordered_empty : empty.Ordered := by
  simp [Ordered, empty]

/-- The pairs that are stored are the disjoint variables, each two in one order only. -/
theorem Environment.Ordered.contains_iff {env : Environment} (hordered : env.Ordered)
    {x y : Symbol} : env.disjoint.contains (x, y) ↔ x < y ∧ env.isDisjoint x y := by
  have hof : x < y → Pair.of x y = (x, y) := fun hless =>
    if_pos (String.not_lt.mp (String.lt_asymm hless))
  constructor
  · intro hstored
    have hless : x < y := hordered (x, y) hstored
    exact ⟨hless, by rwa [isDisjoint, hof hless]⟩
  · rintro ⟨hless, hdisjoint⟩
    rwa [isDisjoint, hof hless] at hdisjoint

namespace Scope

variable {scope result : Scope} {stack : BlockStack}

theorem everywhere_ordered_of_modifyTop {change : Frame → Frame}
    (hordered : scope.Everywhere fun place => place.environment.Ordered)
    (hmodify : scope.modifyTop change = .ok result)
    (hchange : ∀ frame, frame.environment.Ordered → (change frame).environment.Ordered) :
    result.Everywhere fun place => place.environment.Ordered :=
  hordered.modifyTop hmodify (fun _ => id) fun frame _ _ hplace => hchange frame hplace

/-- Pairs are stored in order in all open blocks, whatever is done. -/
theorem everywhere_ordered_of_perform {operation : Operation}
    (hordered : scope.Everywhere fun place => place.environment.Ordered)
    (hperform : scope.perform operation = .ok result) :
    result.Everywhere fun place => place.environment.Ordered := by
  cases operation with
  | push =>
    cases hperform
    exact hordered.push
  | pop => exact hordered.of_suffix (constants_of_pop hperform) (suffix_of_pop hperform)
  | truncate depth =>
    cases hperform
    exact hordered.of_suffix rfl (List.drop_suffix _ _)
  | declareConstant symbol =>
    rw [perform, declareConstant] at hperform
    split_ifs at hperform
    cases hperform
    exact hordered
  | declareVariable symbol =>
    rw [perform, declareVariable] at hperform
    split_ifs at hperform
    exact everywhere_ordered_of_modifyTop hordered hperform fun _ => id
  | addFloating typing label =>
    rw [perform, addFloating] at hperform
    split_ifs at hperform
    exact everywhere_ordered_of_modifyTop hordered hperform fun _ => id
  | addEssential statement label =>
    exact everywhere_ordered_of_modifyTop hordered hperform fun _ => id
  | addDisjoint vars =>
    exact everywhere_ordered_of_modifyTop hordered hperform fun _ hframe => hframe.addDisjoint vars

theorem ordered_reached (operations : List Operation) :
    (reached operations).environment.Ordered := by
  have hrun : ∀ {scope : Scope}, (scope.Everywhere fun place => place.environment.Ordered) →
      (operations.foldl after scope).Everywhere fun place => place.environment.Ordered := by
    induction operations with
    | nil => exact id
    | cons operation rest ih =>
      intro scope hordered
      apply ih
      rw [after]
      split
      · next result hperform => exact everywhere_ordered_of_perform hordered hperform
      · exact hordered
  apply (hrun fun frames hsuffix => ?_).here
  obtain rfl := List.suffix_nil.mp hsuffix
  exact Environment.ordered_empty

/-- The variables that a scope takes for those of an assertion are its variables. -/
theorem Simulates.contains_mandatory_iff (hsimulates : scope.Simulates stack)
    {conclusion : Statement} {v : Symbol} :
    (scope.environment.variablesIn (scope.essential.flatten ++ conclusion)).contains v ↔
      (Block.join stack.blocks).Mandatory conclusion v := by
  rw [Scope.contains_mandatory_iff, hsimulates.answersAs.essential, and_comm]
  exact and_congr_left fun _ => hsimulates.shows.vars v

theorem Simulates.distinct_floating (hsimulates : scope.Simulates stack) :
    (scope.floating.map Typing.var).Nodup := by
  have hvars : ((Block.join stack.blocks).floating.map fun entry => entry.1.var) =
      scope.floating.map Typing.var := by
    rw [hsimulates.answersAs.floating, List.map_map]
    rfl
  exact hvars ▸ hsimulates.wellFormed.distinct

theorem Simulates.frames_assertion (hsimulates : scope.Simulates stack)
    (hordered : scope.environment.Ordered) (conclusion : Statement) :
    (Block.join stack.blocks).Frames conclusion (scope.assertion conclusion) where
  conclusion_eq := rfl
  essential := hsimulates.answersAs.essential
  floating := by
    rw [assertion, firstTypings_eq_filter hsimulates.distinct_floating,
      ← hsimulates.answersAs.floating]
    apply List.filter_congr
    intro typing _
    rw [Bool.eq_iff_iff, hsimulates.contains_mandatory_iff, decide_eq_true_iff]
  distinct := (scope.vars_assertion_sublist conclusion).nodup hsimulates.distinct_floating
  ascending :=
    (Std.TreeSet.ordered_toList.imp Pair.precedes_of_compareLexically).sublist List.filter_sublist
  disjoint x y := by
    have hstored : (x, y) ∈ scope.environment.disjoint.toList ↔
        x < y ∧ (Block.join stack.blocks).Apart x y := by
      rw [Std.TreeSet.mem_toList, ← Std.TreeSet.contains_iff_mem, hordered.contains_iff,
        hsimulates.shows.disjoint x y, Block.Apart]
    simp only [assertion, List.mem_filter, hstored, Bool.and_eq_true,
      hsimulates.contains_mandatory_iff, and_assoc]

/-- In every scope that operations lead to, the assertion with a given conclusion has all essential
hypotheses in force, the floating hypotheses in force of its own variables, each variable once, and
the pairs of its own variables that are disjoint in force, in ascending order. Operations that do
not concern the assertion leave it as it is. -/
theorem assertion_mandatory_frame (operations : List Operation) (conclusion : Statement) :
    (Block.join (BlockStack.reached operations).blocks).Frames conclusion
        ((reached operations).assertion conclusion) ∧
      ∀ more : List Operation,
        (∀ operation ∈ more,
          (Block.join (BlockStack.reached operations).blocks).Immaterial conclusion operation) →
        (reached (operations ++ more)).assertion conclusion =
          (reached operations).assertion conclusion := by
  have hframes : ∀ operations : List Operation,
      (Block.join (BlockStack.reached operations).blocks).Frames conclusion
        ((reached operations).assertion conclusion) := fun operations =>
    (simulates_reached operations).frames_assertion (ordered_reached operations) conclusion
  refine ⟨hframes operations, fun more himmaterial => ?_⟩
  have halike := BlockStack.alike_foldl_after himmaterial
  apply (hframes operations).unique
  apply halike.frames
  have hmore := hframes (operations ++ more)
  rw [BlockStack.reached, List.foldl_append] at hmore
  exact hmore

/-- A variable in a block of its own, which is typed and disjoint from one variable of the
assertion. -/
theorem assertion_mandatory_frame_inner :
    (reached [.declareConstant "wff", .push, .declareVariable "ps", .declareVariable "ph",
        .addFloating ⟨"wff", "ps"⟩ "wps", .addFloating ⟨"wff", "ph"⟩ "wph",
        .addEssential ["wff", "ph"] "h", .addDisjoint ["ps", "ph"], .push, .declareVariable "x",
        .addFloating ⟨"wff", "x"⟩ "wx", .addDisjoint ["x", "ps"]]).assertion ["wff", "ps"] =
      ⟨[("ph", "ps")], [⟨"wff", "ps"⟩, ⟨"wff", "ph"⟩], [["wff", "ph"]], ["wff", "ps"]⟩ := by
  have hsame := (assertion_mandatory_frame [.declareConstant "wff", .push, .declareVariable "ps",
    .declareVariable "ph", .addFloating ⟨"wff", "ps"⟩ "wps", .addFloating ⟨"wff", "ph"⟩ "wph",
    .addEssential ["wff", "ph"] "h", .addDisjoint ["ps", "ph"]] ["wff", "ps"]).2
    [.push, .declareVariable "x", .addFloating ⟨"wff", "x"⟩ "wx", .addDisjoint ["x", "ps"]]
    (by decide +kernel)
  rw [List.cons_append] at hsame
  exact hsame.trans (by decide +kernel)

end Scope

end Metamath
