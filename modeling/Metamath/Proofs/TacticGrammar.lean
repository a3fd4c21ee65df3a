import Mathlib.Data.List.Induction
import Metamath.Tactic
import Metamath.Proofs.GoalText
import Metamath.Proofs.Substitution

/-!
# The grammar of tactics

A tactic is written as the premises in double brackets, the conclusion, and any number of blocks
that bind a variable to an expression. The marks that hold this together are words like any others:
an expression may hold a colon or an opening brace, a variable may be called by one of the marks, a
conclusion may hold brackets. What makes the parts of a tactic recognisable is only that each of
them does not hold the one mark that ends it.

Here the grammar is laid down by its parts. Reading accepts exactly the words that are put together
from such parts. It never builds the parts, it searches for one mark after another; still there is
only one way to put the words together, so what it finds are the parts. Of several blocks for one
variable the first one decides the place of the variable and the last one its expression.
-/

namespace Metamath

/-! ### Bindings one after another -/

namespace Substitution

theorem ofList_concat (bindings : List (Symbol × Statement)) (binding : Symbol × Statement) :
    ofList (bindings ++ [binding]) = (ofList bindings).insert binding.1 binding.2 := by
  rw [ofList, List.foldl_append]
  rfl

theorem map_fst_bind (v : Symbol) (expression : Statement) (bindings : List (Symbol × Statement)) :
    (bind v expression bindings).map Prod.fst =
      if v ∈ bindings.map Prod.fst then bindings.map Prod.fst
      else bindings.map Prod.fst ++ [v] := by
  induction bindings with
  | nil => rfl
  | cons binding rest ih =>
    by_cases hv : binding.1 = v
    · have hmem : v ∈ (binding :: rest).map Prod.fst := List.mem_cons.mpr (.inl hv.symm)
      rw [bind, if_pos hv, if_pos hmem, List.map_cons, List.map_cons, hv]
    · have hmem : v ∈ (binding :: rest).map Prod.fst ↔ v ∈ rest.map Prod.fst := by
        simp [Ne.symm hv]
      rw [bind, if_neg hv, List.map_cons, ih]
      by_cases hrest : v ∈ rest.map Prod.fst
      · rw [if_pos hrest, if_pos (hmem.mpr hrest), List.map_cons]
      · rw [if_neg hrest, if_neg (mt hmem.mp hrest), List.map_cons, List.cons_append]

theorem mem_bind {v : Symbol} {expression : Statement} {bindings : List (Symbol × Statement)}
    {binding : Symbol × Statement} (hmem : binding ∈ bind v expression bindings) :
    binding = (v, expression) ∨ binding ∈ bindings := by
  induction bindings with
  | nil => exact .inl (List.mem_singleton.mp hmem)
  | cons first rest ih =>
    rw [bind] at hmem
    split at hmem
    · exact (List.mem_cons.mp hmem).imp_right (List.mem_cons_of_mem first)
    · rcases List.mem_cons.mp hmem with rfl | hlater
      · exact .inr List.mem_cons_self
      · exact (ih hlater).imp_right (List.mem_cons_of_mem first)

theorem mem_of_mem_bindings_ofList {bindings : List (Symbol × Statement)}
    {binding : Symbol × Statement} (hmem : binding ∈ (ofList bindings).bindings) :
    binding ∈ bindings := by
  induction bindings using List.reverseRecOn with
  | nil => exact hmem
  | append_singleton bindings last ih =>
    rw [ofList_concat] at hmem
    rcases mem_bind hmem with rfl | hold
    · exact List.mem_append_right _ (List.mem_singleton_self _)
    · exact List.mem_append_left _ (ih hold)

/-- Variables are listed in the order in which they are first bound. -/
theorem map_fst_ofList (bindings : List (Symbol × Statement)) :
    (ofList bindings).bindings.map Prod.fst = (bindings.map Prod.fst).eraseDups := by
  induction bindings using List.reverseRecOn with
  | nil => rfl
  | append_singleton bindings binding ih =>
    rw [ofList_concat, insert, map_fst_bind, ih, List.map_append, List.eraseDups_append,
      List.map_singleton]
    by_cases hbound : binding.1 ∈ bindings.map Prod.fst
    · have hnew : [binding.1].removeAll (bindings.map Prod.fst) = [] := by
        simp [List.removeAll, hbound]
      rw [if_pos (List.mem_eraseDups.mpr hbound), hnew, List.eraseDups_nil, List.append_nil]
    · have hnew : [binding.1].removeAll (bindings.map Prod.fst) = [binding.1] := by
        simp [List.removeAll, hbound]
      rw [if_neg (mt List.mem_eraseDups.mp hbound), hnew]
      rfl

/-- A variable has the expression that it is bound to last. -/
theorem get?_ofList (bindings : List (Symbol × Statement)) (v : Symbol) :
    (ofList bindings).get? v = ((bindings.filter (·.1 = v)).getLast?).map Prod.snd := by
  induction bindings using List.reverseRecOn with
  | nil => rfl
  | append_singleton bindings binding ih =>
    rw [ofList_concat, get?_insert, ih, List.filter_append]
    by_cases hv : v = binding.1
    · rw [if_pos hv, List.filter_cons_of_pos (by simp [hv]), List.filter_nil,
        List.getLast?_concat, Option.map_some]
    · rw [if_neg hv, List.filter_cons_of_neg (by simp [Ne.symm hv]), List.filter_nil,
        List.append_nil]

end Substitution

namespace Tactic

/-! ### Blocks -/

/-- A block that binds a variable. The expression ends at the first closing brace. -/
@[ext]
structure Block where
  var : Symbol
  expression : Statement
  var_ne : var ≠ "\x7d\x7d"
  nonempty : expression ≠ []
  closed : "\x7d\x7d" ∉ expression

namespace Block

/-- How a block is written. -/
def words (block : Block) : List Symbol :=
  "\x7b\x7b" :: block.var :: ":" :: (block.expression ++ ["\x7d\x7d"])

/-- What a block binds. -/
def binding (block : Block) : Symbol × Statement :=
  (block.var, block.expression)

theorem binding_injective : Function.Injective binding := by
  intro first second hbinding
  ext1
  · exact congrArg Prod.fst hbinding
  · exact congrArg Prod.snd hbinding

end Block

theorem bindings?_flatMap (blocks : List Block) :
    bindings? (blocks.flatMap Block.words) = some (blocks.map Block.binding) := by
  induction blocks with
  | nil => rw [List.flatMap_nil, bindings?, List.map_nil]
  | cons block blocks ih =>
    obtain ⟨v, expression, hv, hnonempty, hclosed⟩ := block
    obtain ⟨first, expression, rfl⟩ := List.exists_cons_of_ne_nil hnonempty
    have hcut := cutAt?_append hclosed (blocks.flatMap Block.words)
    have hwords : (⟨v, first :: expression, hv, hnonempty, hclosed⟩ :: blocks).flatMap Block.words =
        "\x7b\x7b" :: v :: ":" ::
          (first :: expression ++ "\x7d\x7d" :: blocks.flatMap Block.words) := by
      simp [Block.words]
    rw [hwords, bindings?, if_pos ⟨rfl, hv, rfl⟩]
    split
    · next found after rest hfound =>
      cases hfound.symm.trans hcut
      rw [ih]
      rfl
    · next hnone => exact absurd hcut (hnone first expression _)

theorem exists_blocks_of_bindings? {words : List Symbol} {bindings : List (Symbol × Statement)}
    (hread : bindings? words = some bindings) :
    ∃ blocks : List Block, blocks.flatMap Block.words = words ∧
      blocks.map Block.binding = bindings := by
  fun_induction bindings? words generalizing bindings with
  | case1 =>
    cases hread
    exact ⟨[], rfl, rfl⟩
  | case2 opening v colon words hmarks first expression rest hcut ih =>
    obtain ⟨rfl, hv, rfl⟩ := hmarks
    obtain ⟨later, hlater, rfl⟩ := Option.map_eq_some_iff.mp hread
    obtain ⟨blocks, rfl, rfl⟩ := ih hlater
    obtain ⟨rfl, hclosed⟩ := cutAt?_eq_some_iff.mp hcut
    refine ⟨⟨v, first :: expression, hv, List.cons_ne_nil _ _, hclosed⟩ :: blocks, ?_, rfl⟩
    simp [Block.words]
  | case3 | case4 | case5 => cases hread

/-! ### Tactics -/

/-- The parts of a tactic as it is written: the words in brackets, the conclusion and the blocks. -/
@[ext]
structure Written where
  inside : List Symbol
  conclusion : Statement
  blocks : List Block
  closed : "]]" ∉ inside
  headed : inside = [] ∨ inside.head? = some "|-"
  nonempty : conclusion ≠ []
  bare : "\x7b\x7b" ∉ conclusion

namespace Written

/-- The words of the conclusion and of the blocks. -/
def tail (written : Written) : List Symbol :=
  written.conclusion ++ written.blocks.flatMap Block.words

/-- The words of a tactic. -/
def words (written : Written) : List Symbol :=
  "[[" :: (written.inside ++ "]]" :: written.tail)

/-- The tactic consists of these parts. Its premises are what is inside of the brackets, cut before
every turnstile. The first block of a variable decides where it is listed, the last one what it is
bound to. -/
structure Denotes (written : Written) (tactic : Tactic) : Prop where
  inside : tactic.goal.premises.flatten = written.inside
  premises : ∀ premise ∈ tactic.goal.premises, IsPremise premise
  conclusion : tactic.goal.conclusion = written.conclusion
  vars : tactic.substitution.bindings.map Prod.fst = (written.blocks.map Block.var).eraseDups
  expressions : ∀ v, tactic.substitution.get? v =
    ((written.blocks.filter (·.var = v)).getLast?).map Block.expression

theorem span_tail (written : Written) :
    written.tail.takeWhile (· != "\x7b\x7b") = written.conclusion ∧
      written.tail.dropWhile (· != "\x7b\x7b") = written.blocks.flatMap Block.words := by
  have hbare : ∀ word ∈ written.conclusion, (word != "\x7b\x7b") = true := by
    intro word hword
    exact bne_iff_ne.mpr fun heq => written.bare (heq ▸ hword)
  have hblocks : (written.blocks.flatMap Block.words).takeWhile (· != "\x7b\x7b") = [] ∧
      (written.blocks.flatMap Block.words).dropWhile (· != "\x7b\x7b") =
        written.blocks.flatMap Block.words := by
    cases written.blocks with
    | nil => exact ⟨rfl, rfl⟩
    | cons block blocks => simp [Block.words]
  rw [tail, List.takeWhile_append_of_pos hbare, List.dropWhile_append_of_pos hbare, hblocks.1,
    hblocks.2, List.append_nil]
  exact ⟨rfl, rfl⟩

/-- Words can be put together in one way only. -/
theorem words_injective : Function.Injective words := by
  intro first second hwords
  have hcut := cutAt?_append first.closed first.tail
  rw [(List.cons.inj hwords).2, cutAt?_append second.closed second.tail, Option.some.injEq,
    Prod.mk.injEq] at hcut
  obtain ⟨hinside, htail⟩ := hcut
  obtain ⟨htake, hdrop⟩ := first.span_tail
  rw [← htail, second.span_tail.1] at htake
  rw [← htail, second.span_tail.2] at hdrop
  have hbindings := bindings?_flatMap first.blocks
  rw [← hdrop, bindings?_flatMap, Option.some.injEq] at hbindings
  ext1
  · exact hinside.symm
  · exact htake.symm
  · exact (List.map_injective_iff.mpr Block.binding_injective hbindings).symm

theorem exists_premises {inside : List Symbol} (hheaded : inside = [] ∨ inside.head? = some "|-") :
    ∃ premises : List Statement, premises.flatten = inside ∧
      ∀ premise ∈ premises, IsPremise premise := by
  obtain ⟨happend, hinitial, hpremises⟩ := cutTurnstiles_sound inside
  suffices hnil : (cutTurnstiles inside).1 = [] by
    rw [hnil, List.nil_append] at happend
    exact ⟨_, happend.symm, hpremises⟩
  rcases hheaded with rfl | hhead
  · rfl
  · obtain ⟨rest, rfl⟩ := List.head?_eq_some_iff.mp hhead
    rfl

theorem headed_flatten {premises : List Statement}
    (hpremises : ∀ premise ∈ premises, IsPremise premise) :
    premises.flatten = [] ∨ premises.flatten.head? = some "|-" := by
  cases premises with
  | nil => exact .inl rfl
  | cons premise premises =>
    obtain ⟨rest, rfl, -⟩ := isPremise_iff.mp (hpremises premise List.mem_cons_self)
    exact .inr rfl

theorem denotes_of_premises (written : Written) {premises : List Statement}
    (hinside : premises.flatten = written.inside)
    (hpremises : ∀ premise ∈ premises, IsPremise premise) :
    written.Denotes
      ⟨⟨premises, written.conclusion⟩, .ofList (written.blocks.map Block.binding)⟩ where
  inside := hinside
  premises := hpremises
  conclusion := rfl
  vars := by
    rw [Substitution.map_fst_ofList, List.map_map]
    rfl
  expressions v := by
    rw [Substitution.get?_ofList, List.filter_map, List.getLast?_map, Option.map_map]
    rfl

end Written

theorem ofWords?_eq_some_iff {words : List Symbol} {tactic : Tactic} :
    ofWords? words = some tactic ↔ ∃ written : Written, written.words = words ∧
      ∃ premises : List Statement, premises.flatten = written.inside ∧
        (∀ premise ∈ premises, IsPremise premise) ∧
        tactic = ⟨⟨premises, written.conclusion⟩, .ofList (written.blocks.map Block.binding)⟩ := by
  constructor
  · intro hread
    rw [ofWords?] at hread
    split at hread
    · cases hread
    · next premises tail hpremises =>
      split at hread
      · cases hread
      · next first rest hconclusion =>
        obtain ⟨bindings, hbindings, rfl⟩ := Option.map_eq_some_iff.mp hread
        obtain ⟨blocks, hblocks, rfl⟩ := exists_blocks_of_bindings? hbindings
        obtain ⟨hwords, hclosed, hcut⟩ := premises?_eq_some_iff.mp hpremises
        have hbare : "\x7b\x7b" ∉ first :: rest := by
          rw [← hconclusion]
          intro hmem
          simpa using List.all_eq_true.mp List.all_takeWhile _ hmem
        have htail : first :: rest ++ blocks.flatMap Block.words = tail := by
          rw [hblocks, ← hconclusion, List.takeWhile_append_dropWhile]
        refine ⟨⟨premises.flatten, first :: rest, blocks, hclosed, Written.headed_flatten hcut,
          List.cons_ne_nil _ _, hbare⟩, ?_, premises, rfl, hcut, rfl⟩
        rw [Written.words, Written.tail, htail, hwords]
  · rintro ⟨written, rfl, premises, hinside, hpremises, rfl⟩
    have hread : premises? written.words = some (premises, written.tail) := by
      rw [premises?_eq_some_iff, hinside, Written.words]
      exact ⟨rfl, written.closed, hpremises⟩
    obtain ⟨htake, hdrop⟩ := written.span_tail
    obtain ⟨first, rest, hconclusion⟩ := List.exists_cons_of_ne_nil written.nonempty
    simp only [ofWords?, hread, htake, hdrop, bindings?_flatMap, hconclusion, Option.map_some]

theorem parse_eq_ok_iff {text : String} {tactic : Tactic} :
    parse text = .ok tactic ↔ ofWords? (Text.words text) = some tactic := by
  rw [parse]
  cases ofWords? (Text.words text) with
  | none => simp
  | some found => simp

theorem parse_eq_error_iff {text : String} {fault : TextFault} :
    parse text = .error fault ↔
      ofWords? (Text.words text) = none ∧ fault = .tactic (Text.trim text) := by
  rw [parse]
  cases ofWords? (Text.words text) with
  | none => simp [eq_comm]
  | some found => simp

/-- A tactic that can be written: its goal and the expressions in it consist of words, and no
expression is empty. -/
structure Legible (tactic : Tactic) : Prop where
  goal : tactic.goal.Legible
  expressions : ∀ binding ∈ tactic.substitution.bindings,
    binding.2 ≠ [] ∧ ∀ symbol ∈ binding.2, Text.IsWord symbol

theorem legible_of_parse {text : String} {tactic : Tactic} (hparse : parse text = .ok tactic) :
    tactic.Legible := by
  obtain ⟨written, hwords, premises, hinside, hpremises, rfl⟩ :=
    ofWords?_eq_some_iff.mp (parse_eq_ok_iff.mp hparse)
  have hword : ∀ symbol ∈ written.words, Text.IsWord symbol := by
    rw [hwords]
    exact fun symbol => Text.isWord_of_mem_words
  simp only [Written.words, Written.tail, List.forall_mem_cons, List.forall_mem_append,
    ← hinside] at hword
  obtain ⟨-, hinside', -, hconclusion, hblocks⟩ := hword
  constructor
  · refine ⟨Goal.delimited_iff.mpr ⟨hinside ▸ written.closed, hpremises, written.nonempty⟩, ?_⟩
    refine List.forall_mem_cons.mpr ⟨hconclusion, fun premise hpremise symbol hsymbol => ?_⟩
    exact hinside' symbol (List.mem_flatten_of_mem hpremise hsymbol)
  · intro binding hbinding
    obtain ⟨block, hblock, rfl⟩ :=
      List.mem_map.mp (Substitution.mem_of_mem_bindings_ofList hbinding)
    refine ⟨block.nonempty, fun symbol hsymbol => ?_⟩
    apply hblocks symbol
    apply List.mem_flatMap_of_mem hblock
    simp [Block.words, show symbol ∈ block.expression from hsymbol]

/-- A text is read if and only if its words can be put together from the parts of a tactic. There is
only one way to do this, and the tactic that is read consists of these parts. The fault of any other
text shows the text without the blanks around it. -/
theorem parse_follows_grammar (text : String) :
    ((∃ tactic, parse text = .ok tactic) ↔
      ∃ written : Written, written.words = Text.words text) ∧
    (∀ written other : Written, written.words = Text.words text →
      other.words = Text.words text → other = written) ∧
    (∀ (tactic : Tactic) (written : Written), parse text = .ok tactic →
      written.words = Text.words text → written.Denotes tactic) ∧
    ∀ fault, parse text = .error fault →
      ∃ core, Text.IsCore text core ∧ fault = .tactic core := by
  refine ⟨⟨?_, ?_⟩, fun written other hwritten hother => ?_, fun tactic written hparse hwords => ?_,
    fun fault hparse => ?_⟩
  · rintro ⟨tactic, hparse⟩
    obtain ⟨written, hwords, -⟩ := ofWords?_eq_some_iff.mp (parse_eq_ok_iff.mp hparse)
    exact ⟨written, hwords⟩
  · rintro ⟨written, hwords⟩
    obtain ⟨premises, hinside, hpremises⟩ := Written.exists_premises written.headed
    exact ⟨_, parse_eq_ok_iff.mpr
      (ofWords?_eq_some_iff.mpr ⟨written, hwords, premises, hinside, hpremises, rfl⟩)⟩
  · exact Written.words_injective (hother.trans hwritten.symm)
  · obtain ⟨found, hfound, premises, hinside, hpremises, rfl⟩ :=
      ofWords?_eq_some_iff.mp (parse_eq_ok_iff.mp hparse)
    obtain rfl : found = written := Written.words_injective (hfound.trans hwords.symm)
    exact found.denotes_of_premises hinside hpremises
  · exact ⟨Text.trim text, Text.isCore_trim text, (parse_eq_error_iff.mp hparse).2⟩

/-- A tactic with marks in all places where they may stand, and with two blocks for one variable. -/
def marks : Written where
  inside := ["|-", "\x7b\x7b", ":"]
  conclusion := ["[[", "]]", ":", "\x7d\x7d"]
  blocks :=
    [⟨"\x7b\x7b", [":"], by decide, by decide, by decide⟩,
      ⟨"ps", ["\x7b\x7b", "ch"], by decide, by decide, by decide⟩,
      ⟨"\x7b\x7b", ["ph"], by decide, by decide, by decide⟩]
  closed := by decide
  headed := by decide
  nonempty := by decide
  bare := by decide

/-- One of the texts that have these parts. -/
def marksText : String :=
  "[[ |- \x7b\x7b : ]]\t[[ ]] : \x7d\x7d \x7b\x7b \x7b\x7b : : \x7d\x7d
    \x7b\x7b ps : \x7b\x7b ch \x7d\x7d \x7b\x7b \x7b\x7b : ph \x7d\x7d\n"

theorem parse_follows_grammar_marks : ∃ tactic : Tactic,
    parse marksText = .ok tactic ∧
      tactic.goal = ⟨[["|-", "\x7b\x7b", ":"]], ["[[", "]]", ":", "\x7d\x7d"]⟩ ∧
      tactic.substitution.bindings.map Prod.fst = ["\x7b\x7b", "ps"] ∧
      tactic.substitution.get? "\x7b\x7b" = some ["ph"] := by
  obtain ⟨haccepts, -, hdenotes, -⟩ := parse_follows_grammar marksText
  have hwords : marks.words = Text.words marksText := by decide +kernel
  obtain ⟨tactic, hparse⟩ := haccepts.mpr ⟨marks, hwords⟩
  have htactic := hdenotes tactic marks hparse hwords
  have hpremises : tactic.goal.premises = [["|-", "\x7b\x7b", ":"]] :=
    (flatten_injOn_isPremise htactic.premises (by decide)).mp htactic.inside
  refine ⟨tactic, hparse, ?_, htactic.vars, htactic.expressions "\x7b\x7b"⟩
  rw [← hpremises]
  exact congrArg (Goal.mk tactic.goal.premises) htactic.conclusion

end Tactic

end Metamath
