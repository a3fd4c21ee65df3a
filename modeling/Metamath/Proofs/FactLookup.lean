import Metamath.Proofs.TacticGrammar
import Metamath.Proofs.Vocabulary

/-!
# Looking up facts

Facts are stored with all their essential hypotheses in one statement, one after another, and a goal
is looked up in the same way. So assertions that differ only in where one hypothesis ends and the
next one begins are the same fact. If the essential hypotheses of a database have their turnstile in
front and nowhere else, there are no such assertions: the hypotheses can be recovered from what they
make together, and so can the premises of a goal that was read from a text.

An assertion is printed like the goal that has its hypotheses as premises. That goal is read back
from the text exactly if the symbols can be told apart in it. Blanks inside of symbols are not the
only obstacle: an empty symbol leaves no trace in the text. No file contains such a symbol, but the
tokens that are handed to a builder need not come from a file.
-/

namespace Metamath

/-- The assertions of all axioms and theorems in the order of definition. -/
def LabelTable.assertions (labels : LabelTable) : List Assertion :=
  labels.toList.filterMap fun entry => entry.2.assertion?

/-- The goal that says the same as an assertion. -/
def Assertion.goal (assertion : Assertion) : Goal :=
  ⟨assertion.essential, assertion.conclusion⟩

theorem Assertion.text_goal (assertion : Assertion) : assertion.goal.text = assertion.text :=
  rfl

namespace Facts

variable {labels : LabelTable} {goal : Goal}

/-- A lookup compares hypotheses and premises as they are one after another. -/
theorem holds_ofLabels_iff :
    (ofLabels labels).holds goal ↔ ∃ assertion ∈ labels.assertions,
      assertion.essential.flatten = goal.premises.flatten ∧
        assertion.conclusion = goal.conclusion := by
  rw [holds, ofLabels, Std.TreeSet.contains_ofList, List.contains_iff_mem, List.mem_filterMap]
  constructor
  · rintro ⟨entry, hentry, hfact⟩
    obtain ⟨assertion, hassertion, heq⟩ := Option.map_eq_some_iff.mp hfact
    exact ⟨assertion, List.mem_filterMap.mpr ⟨entry, hentry, hassertion⟩,
      congrArg Prod.fst heq, congrArg Prod.snd heq⟩
  · rintro ⟨assertion, hmem, hessential, hconclusion⟩
    obtain ⟨entry, hentry, hassertion⟩ := List.mem_filterMap.mp hmem
    refine ⟨entry, hentry, ?_⟩
    rw [hassertion, Option.map_some, hessential, hconclusion, Goal.flatPremises]

/-- With turnstiles in front only, nothing is lost when hypotheses or premises are put together. -/
theorem holds_ofLabels_iff_of_isPremise
    (hlabels : ∀ assertion ∈ labels.assertions,
      ∀ hypothesis ∈ assertion.essential, IsPremise hypothesis)
    (hgoal : ∀ premise ∈ goal.premises, IsPremise premise) :
    (ofLabels labels).holds goal ↔ ∃ assertion ∈ labels.assertions,
      assertion.essential = goal.premises ∧ assertion.conclusion = goal.conclusion := by
  rw [holds_ofLabels_iff]
  apply exists_congr
  intro assertion
  apply and_congr_right
  intro hmem
  rw [flatten_injOn_isPremise (hlabels assertion hmem) hgoal]

end Facts

namespace Database.Builder

variable {builder : Builder} {assertion : Assertion}

/-- The goal of an assertion can be told from its text if its symbols are words and brackets do not
close too early. -/
theorem Reached.legible_goal_iff (hreached : builder.Reached)
    (hmem : assertion ∈ builder.labels.assertions)
    (hpremises : ∀ hypothesis ∈ assertion.essential, IsPremise hypothesis) :
    assertion.goal.Legible ↔
      (∀ statement ∈ assertion.conclusion :: assertion.essential, ∀ symbol ∈ statement,
        Text.IsWord symbol) ∧
      ∀ hypothesis ∈ assertion.essential, "]]" ∉ hypothesis := by
  constructor
  · intro hlegible
    exact ⟨hlegible.symbols, fun hypothesis hmem => (hlegible.premises hypothesis hmem).2⟩
  · rintro ⟨hsymbols, hclosed⟩
    obtain ⟨⟨label, entry⟩, hentry, hassertion⟩ := List.mem_filterMap.mp hmem
    have horderly := hreached.orderly
    have hget := LabelTable.mem_toList_iff.mp hentry
    have htidy := horderly.tidy label entry assertion hget hassertion
    refine ⟨⟨fun hypothesis hhypothesis => ?_, htidy.nonempty _ List.mem_cons_self⟩, hsymbols⟩
    exact ⟨hpremises hypothesis hhypothesis, hclosed hypothesis hhypothesis⟩

theorem Loaded.symbol_ne_empty (hloaded : builder.Loaded)
    (hmem : assertion ∈ builder.labels.assertions) :
    ∀ statement ∈ assertion.conclusion :: assertion.essential, ∀ symbol ∈ statement,
      symbol ≠ "" := by
  obtain ⟨⟨label, entry⟩, hentry, hassertion⟩ := List.mem_filterMap.mp hmem
  rw [← Entry.statements_of_assertion? hassertion]
  exact hloaded.spelled (label, entry) hentry

/-- If it was read from files, it is enough that symbols hold no blanks. -/
theorem Loaded.legible_goal (hloaded : builder.Loaded)
    (hmem : assertion ∈ builder.labels.assertions)
    (hsymbols : ∀ statement ∈ assertion.conclusion :: assertion.essential, ∀ symbol ∈ statement,
      Text.BlankFree symbol)
    (hpremises : ∀ hypothesis ∈ assertion.essential, IsPremise hypothesis ∧ "]]" ∉ hypothesis) :
    assertion.goal.Legible := by
  rw [hloaded.reached.legible_goal_iff hmem fun hypothesis hmem => (hpremises hypothesis hmem).1]
  refine ⟨fun statement hstatement symbol hsymbol => ⟨?_, ?_⟩,
    fun hypothesis hmem => (hpremises hypothesis hmem).2⟩
  · exact hloaded.symbol_ne_empty hmem statement hstatement symbol hsymbol
  · exact hsymbols statement hstatement symbol hsymbol

/-- Let all essential hypotheses in a database have their turnstile in front and nowhere else. A
goal that was read from a text, be it on its own or as part of a tactic, is found among the facts if
and only if its premises and its conclusion are those of an axiom or a theorem. Conversely, the goal
of every axiom and every theorem is found, and it is what the text is read as if and only if no
symbol is empty or holds blanks and no bracket closes too early. If the database was read from
files, no symbol is empty. -/
theorem facts_hold_exactly_assertions (builder : Builder)
    (hpremises : ∀ assertion ∈ builder.finish.labels.assertions,
      ∀ hypothesis ∈ assertion.essential, IsPremise hypothesis) :
    (∀ (text : String) (goal : Goal),
      (Goal.parse text = .ok goal ∨ ∃ tactic, Tactic.parse text = .ok tactic ∧ tactic.goal = goal) →
      (builder.finish.facts.holds goal ↔ ∃ assertion ∈ builder.finish.labels.assertions,
        assertion.essential = goal.premises ∧ assertion.conclusion = goal.conclusion)) ∧
    (builder.Reached → ∀ assertion ∈ builder.finish.labels.assertions,
      builder.finish.facts.holds assertion.goal ∧
      (Goal.parse assertion.text = .ok assertion.goal ↔
        (∀ statement ∈ assertion.conclusion :: assertion.essential, ∀ symbol ∈ statement,
          Text.IsWord symbol) ∧
        ∀ hypothesis ∈ assertion.essential, "]]" ∉ hypothesis)) ∧
    (builder.Loaded → ∀ assertion ∈ builder.finish.labels.assertions,
      ∀ statement ∈ assertion.conclusion :: assertion.essential, ∀ symbol ∈ statement,
        symbol ≠ "") := by
  refine ⟨?_, ?_, fun hloaded assertion hmem => hloaded.symbol_ne_empty hmem⟩
  · intro text goal hread
    have hlegible : goal.Legible := by
      rcases hread with hgoal | ⟨tactic, htactic, rfl⟩
      · exact Goal.legible_of_parse hgoal
      · exact (Tactic.legible_of_parse htactic).goal
    apply Facts.holds_ofLabels_iff_of_isPremise hpremises
    intro premise hpremise
    exact (hlegible.premises premise hpremise).1
  · intro hreached assertion hmem
    refine ⟨Facts.holds_ofLabels_iff.mpr ⟨assertion, hmem, rfl, rfl⟩, ?_⟩
    rw [← hreached.legible_goal_iff hmem (hpremises assertion hmem), ← Assertion.text_goal]
    exact ⟨Goal.legible_of_parse, Goal.Legible.parse_text⟩

/-- A rule with two premises, the first of which is a part of the second one. -/
def detachmentText : String :=
  "$c |- wff ( ) -> $. $v p q $. wp $f wff p $. wq $f wff q $. wi $a wff ( p -> q ) $.
  $\x7b min $e |- p $. maj $e |- ( p -> q ) $. mp $a |- q $. $\x7d"

/-- What the text is read as. -/
def detachmentTokens : List Token :=
  ["$c", "|-", "wff", "(", ")", "->", "$.", "$v", "p", "q", "$.", "wp", "$f", "wff", "p", "$.",
    "wq", "$f", "wff", "q", "$.", "wi", "$a", "wff", "(", "p", "->", "q", ")", "$.", "$\x7b",
    "min", "$e", "|-", "p", "$.", "maj", "$e", "|-", "(", "p", "->", "q", ")", "$.",
    "mp", "$a", "|-", "q", "$.", "$\x7d"].map fun word => .ofRun word.toList

/-- The builder that has read the text. -/
def detachment : Builder :=
  ((new ⟨none, none⟩).read Check.run (detachmentTokens.map .ok)).builder

theorem loaded_detachment : detachment.Loaded := by
  -- nothing is included, so there need not be any files
  let system : FileSystem := ⟨fun _ => .error .notFound, []⟩
  have htokens : (Includer.ofText detachmentText "").tokens system = detachmentTokens.map .ok :=
    Includer.tokens_ofText (by decide +kernel) (by decide +kernel) system ""
  have hopen : (Source.text detachmentText "").includer system =
      .ok (Includer.ofText detachmentText "") := rfl
  rw [detachment, ← htokens]
  exact .read Check.run hopen (.new ⟨none, none⟩)

/-- The rule in the text. -/
def detachmentRule : Assertion :=
  ⟨[], [⟨"wff", "p"⟩, ⟨"wff", "q"⟩], [["|-", "p"], ["|-", "(", "p", "->", "q", ")"]], ["|-", "q"]⟩

/-- The rule is found by its text. With its premises in another order it is not. -/
theorem facts_hold_exactly_assertions_detachment :
    detachment.Loaded ∧
      (∀ assertion ∈ detachment.finish.labels.assertions,
        ∀ hypothesis ∈ assertion.essential, IsPremise hypothesis) ∧
      Goal.parse "[[ |- p |- ( p -> q ) ]] |- q" = .ok detachmentRule.goal ∧
      detachment.finish.facts.holds detachmentRule.goal ∧
      Goal.parse "[[ |- ( p -> q ) |- p ]] |- q" =
        .ok ⟨[["|-", "(", "p", "->", "q", ")"], ["|-", "p"]], ["|-", "q"]⟩ ∧
      ¬ detachment.finish.facts.holds
        ⟨[["|-", "(", "p", "->", "q", ")"], ["|-", "p"]], ["|-", "q"]⟩ := by
  have hpremises : ∀ assertion ∈ detachment.finish.labels.assertions,
      ∀ hypothesis ∈ assertion.essential, IsPremise hypothesis := by decide +kernel
  obtain ⟨hfinds, hprinted, hspelled⟩ := facts_hold_exactly_assertions detachment hpremises
  have hrule : detachmentRule ∈ detachment.finish.labels.assertions := by decide +kernel
  have hblankFree : ∀ statement ∈ detachmentRule.conclusion :: detachmentRule.essential,
      ∀ symbol ∈ statement, Text.BlankFree symbol := by decide +kernel
  obtain ⟨hholds, hparse⟩ := hprinted loaded_detachment.reached detachmentRule hrule
  have hread := hparse.mpr ⟨fun statement hstatement symbol hsymbol =>
    ⟨hspelled loaded_detachment detachmentRule hrule statement hstatement symbol hsymbol,
      hblankFree statement hstatement symbol hsymbol⟩, by decide +kernel⟩
  have htext : detachmentRule.text = "[[ |- p |- ( p -> q ) ]] |- q" := by decide +kernel
  have hswapped : Goal.parse "[[ |- ( p -> q ) |- p ]] |- q" =
      .ok ⟨[["|-", "(", "p", "->", "q", ")"], ["|-", "p"]], ["|-", "q"]⟩ := by decide +kernel
  refine ⟨loaded_detachment, hpremises, htext ▸ hread, hholds, hswapped, ?_⟩
  rw [hfinds _ _ (.inl hswapped)]
  decide +kernel

/-- The builder that was handed the tokens of an axiom with an empty symbol. -/
def unspelled : Builder :=
  let tokens : List Token :=
    [.keyword (.statement (.declaration .constants)), .word "|-", .word "", .keyword .terminator,
      .word "ax", .keyword (.statement (.labelled .axiomatic)), .word "|-", .word "",
      .keyword .terminator]
  ((new ⟨none, none⟩).read Check.run (tokens.map .ok)).builder

/-- An axiom without blanks in its symbols, whose text is that of another goal. -/
theorem empty_symbol_not_found :
    unspelled.Reached ∧
      (∀ assertion ∈ unspelled.finish.labels.assertions,
        ∀ hypothesis ∈ assertion.essential, IsPremise hypothesis) ∧
      ∃ assertion ∈ unspelled.finish.labels.assertions,
        (∀ statement ∈ assertion.conclusion :: assertion.essential, ∀ symbol ∈ statement,
          Text.BlankFree symbol) ∧
        (∀ hypothesis ∈ assertion.essential, "]]" ∉ hypothesis) ∧
        Goal.parse assertion.text = .ok ⟨[], ["|-"]⟩ ∧
        ¬ unspelled.finish.facts.holds ⟨[], ["|-"]⟩ := by
  refine ⟨.read Check.run _ (.new ⟨none, none⟩), by decide +kernel, ⟨[], [], [], ["|-", ""]⟩, ?_⟩
  decide +kernel

end Database.Builder

end Metamath
