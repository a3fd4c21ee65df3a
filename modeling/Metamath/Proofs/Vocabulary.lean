import Metamath.Proofs.Arrival
import Metamath.Proofs.Expansion
import Metamath.Proofs.Recording

/-!
# The symbols of a database

Nothing is recorded but what was read: a property that all words of the inputs have is a property of
all symbols of recorded statements. For the conclusion of an assertion this is plain. Its essential
hypotheses are taken from the open blocks, perhaps long after they were read, but they have been
recorded, too, under labels of their own.

This is used for the property of not being empty. A list of tokens may hold an empty word, and then
there are statements that print alike. A text holds none, since words are cut out of it as runs of
characters. So it makes a difference whether a builder has read texts or just tokens, and builders
of the first kind are singled out here.
-/

namespace Metamath

variable {P : Symbol → Prop}

/-! ### Words of texts -/

theorem Token.ofRun_ne_word_empty {run : List Char} (hrun : run ≠ []) :
    Token.ofRun run ≠ .word "" := by
  intro hword
  have hrun' : ∀ text : List Char, Token.word (String.ofList text) = .word "" → text = [] := by
    intro text htext
    exact String.ofList_eq_empty_iff.mp (Token.word.inj htext)
  rw [Token.ofRun.eq_def] at hword
  split at hword
  · split at hword
    · cases hword
    · exact absurd (hrun' _ hword) (List.cons_ne_nil _ _)
  · exact hrun (hrun' _ hword)

theorem token_ne_of_mem_lexFrom {offset : Nat} {run text : List Char} :
    ∀ lexeme ∈ lexFrom offset run text, lexeme.token ≠ .word "" := by
  have hreverse : ∀ {run : List Char}, ¬ run.isEmpty → Token.ofRun run.reverse ≠ .word "" := by
    intro run hrun
    apply Token.ofRun_ne_word_empty
    simpa using hrun
  induction text generalizing offset run with
  | nil =>
    rw [lexFrom]
    split_ifs with hempty
    · exact List.forall_mem_nil _
    · exact List.forall_mem_singleton.mpr (hreverse hempty)
  | cons c rest ih =>
    rw [lexFrom]
    split_ifs with hblank hempty
    · exact ih
    · exact List.forall_mem_cons.mpr ⟨hreverse hempty, ih⟩
    · exact ih

/-- Removing comments adds no tokens. -/
theorem exists_lexeme_of_mem_uncommentFrom {length : Nat} {inComment : Bool} {token : Token}
    {lexemes : List Lexeme} {lexeme : PlainLexeme}
    (hmem : lexeme ∈ uncommentFrom length inComment lexemes)
    (hcontent : lexeme.content = .ok token) :
    ∃ source ∈ lexemes, source.token = token := by
  fun_induction uncommentFrom length inComment lexemes with
  | case1 => cases hmem
  | case2 =>
    cases List.mem_singleton.mp hmem
    cases hcontent
  | case3 first rest _ ih | case5 first rest _ ih | case7 first rest _ _ ih =>
    exact List.exists_mem_cons_of_exists (ih hmem)
  | case4 first rest _ ih =>
    rcases List.mem_cons.mp hmem with rfl | hlater
    · exact ⟨first, List.mem_cons_self, Except.ok.inj hcontent⟩
    · exact List.exists_mem_cons_of_exists (ih hlater)
  | case6 first rest _ _ ih =>
    rcases List.mem_cons.mp hmem with rfl | hlater
    · cases hcontent
    · exact List.exists_mem_cons_of_exists (ih hlater)

theorem empty_not_mem_plainTokens (text : String) : .ok (.word "") ∉ plainTokens text := by
  intro hmem
  obtain ⟨lexeme, hlexeme, hcontent⟩ := List.mem_map.mp hmem
  obtain ⟨source, hsource, htoken⟩ := exists_lexeme_of_mem_uncommentFrom hlexeme hcontent
  exact token_ne_of_mem_lexFrom source hsource htoken

/-- Included files are texts, too. -/
theorem Expands.empty_not_mem {system : FileSystem} {origin : Origin}
    {imported : Std.TreeSet String} {tokens : PlainTokens} {items : List Inclusion.Item}
    {ending : Option (Std.TreeSet String)}
    (hexpands : Expands system origin imported tokens items ending)
    (htokens : .ok (.word "") ∉ tokens) : .token (.word "") ∉ items := by
  induction hexpands with
  | finish => exact List.not_mem_nil
  | token _ _ ih => grind
  | comment | malformed | missing | unreadable => simp
  | again _ _ _ _ ih => grind
  | broken _ _ _ _ _ _ ih =>
    have hinner := ih (empty_not_mem_plainTokens _)
    simpa using hinner
  | splice _ _ _ _ _ _ _ ihInner ihRest =>
    have hinner := ihInner (empty_not_mem_plainTokens _)
    have hrest := ihRest (by grind)
    simpa using ⟨hinner, hrest⟩

theorem Source.empty_not_mem_tokens {system : FileSystem} {source : Source} {includer : Includer}
    (hopen : source.includer system = .ok includer) :
    .ok (.word "") ∉ includer.tokens system := by
  obtain ⟨roots, hexpands⟩ := exists_expandsTo hopen
  have hitems : .token (.word "") ∉ includer.items system := by
    cases hexpands with
    | file _ _ _ hexpands => exact hexpands.empty_not_mem (empty_not_mem_plainTokens _)
    | text hexpands => exact hexpands.empty_not_mem (empty_not_mem_plainTokens _)
  intro hmem
  obtain ⟨item, hitem, hcontent⟩ := List.mem_filterMap.mp hmem
  cases item with
  | token token =>
    cases hcontent
    exact hitems hitem
  | fault error => cases hcontent
  | imported path => cases hcontent
  | skipped path => cases hcontent

theorem expands_of_includeOpen_not_mem {system : FileSystem} {origin : Origin}
    {imported : Std.TreeSet String} {tokens : List Token}
    (hopen : .keyword .includeOpen ∉ tokens) :
    Expands system origin imported (tokens.map .ok) (tokens.map .token) (some imported) := by
  induction tokens with
  | nil => exact .finish
  | cons token rest ih =>
    rw [List.mem_cons, not_or] at hopen
    exact .token (Ne.symm hopen.1) (ih hopen.2)

/-- A text without inclusions is read as it stands. -/
theorem Includer.tokens_ofText {content : String} {tokens : List Token}
    (htokens : plainTokens content = tokens.map .ok) (hopen : .keyword .includeOpen ∉ tokens)
    (system : FileSystem) (directory : String) :
    (Includer.ofText content directory).tokens system = tokens.map .ok := by
  have hsource : (Source.text content directory).includer system =
      .ok (Includer.ofText content directory) := rfl
  obtain ⟨roots, hitems⟩ := Source.exists_expandsTo hsource
  have hunique := hitems.unique (.text (htokens ▸ expands_of_includeOpen_not_mem hopen))
  rw [Includer.tokens, ← hunique, List.filterMap_map]
  exact congrFun List.filterMap_eq_map tokens

/-! ### Recorded symbols -/

/-- The statements that an entry consists of. -/
def Entry.statements : Entry → List Statement
  | .floating statement | .essential statement => [statement]
  | .axiomatic assertion | .provable assertion => assertion.conclusion :: assertion.essential

theorem Entry.statements_of_assertion? {entry : Entry} {assertion : Assertion}
    (hassertion : entry.assertion? = some assertion) :
    entry.statements = assertion.conclusion :: assertion.essential := by
  cases entry with
  | floating statement | essential statement => cases hassertion
  | axiomatic found | provable found =>
    cases hassertion
    rfl

/-- All symbols of recorded statements have a property. -/
def LabelTable.Spelled (P : Symbol → Prop) (labels : LabelTable) : Prop :=
  ∀ entry ∈ labels.toList, ∀ statement ∈ entry.2.statements, ∀ symbol ∈ statement, P symbol

instance [DecidablePred P] (labels : LabelTable) : Decidable (labels.Spelled P) :=
  inferInstanceAs (Decidable (∀ entry ∈ labels.toList, ∀ statement ∈ entry.2.statements,
    ∀ symbol ∈ statement, P symbol))

theorem LabelTable.Spelled.insert? {labels larger : LabelTable} {label : Symbol} {entry : Entry}
    (hspelled : labels.Spelled P) (hinsert : labels.insert? label entry = some larger)
    (hentry : ∀ statement ∈ entry.statements, ∀ symbol ∈ statement, P symbol) :
    larger.Spelled P := by
  intro found hfound
  rw [toList_of_insert? hinsert] at hfound
  rcases List.mem_append.mp hfound with hold | hnew
  · exact hspelled found hold
  · rw [List.mem_singleton.mp hnew]
    exact hentry

namespace Database

namespace Builder

variable {builder result : Builder} {label : Symbol} {statement : Statement}

theorem insert?_of_addFloating (hadd : builder.addFloating label statement = .ok result) :
    builder.labels.insert? label (.floating statement) = some result.labels := by
  rw [addFloating.eq_def] at hadd
  split at hadd
  · split at hadd
    · obtain ⟨larger, hinsert, rfl⟩ := define_eq_ok_iff.mp hadd
      exact hinsert
    · cases hadd
  · cases hadd

/-- The essential hypotheses of an assertion have been recorded before it. -/
theorem Orderly.spelled_assertion (horderly : builder.Orderly)
    (hspelled : builder.labels.Spelled P) (hstatement : ∀ symbol ∈ statement, P symbol) :
    ∀ found ∈ statement :: builder.scope.essential, ∀ symbol ∈ found, P symbol := by
  refine List.forall_mem_cons.mpr ⟨hstatement, fun hypothesis hhypothesis => ?_⟩
  have hplace := horderly.places.here
  obtain ⟨label, hlabel⟩ := Option.isSome_iff_exists.mp (hplace.essential hypothesis hhypothesis)
  have hget := (hplace.earliest hypothesis label hlabel).2
  exact hspelled (label, .essential hypothesis) (LabelTable.mem_toList_iff.mpr hget)
    hypothesis List.mem_cons_self

end Builder

/-- The symbols of the statement that is being read, as far as they have been read. -/
def Phase.symbols : Phase → List Symbol
  | .outer _ | .declaring _ _ => []
  | .stating _ _ words => words
  | .proving _ statement _ => statement

/-- All symbols that have been recorded or are about to be have a property. -/
structure Reading.Spelled (P : Symbol → Prop) (reading : Reading) : Prop where
  labels : reading.builder.labels.Spelled P
  symbols : ∀ symbol ∈ reading.phase.symbols, P symbol

theorem Builder.Accepts.spelled {builder result : Builder} {phase next : Phase} {token : Token}
    {check : Option Check} (haccepts : builder.Accepts phase token check result next)
    (horderly : builder.Orderly) (htoken : ∀ text, token = .word text → P text)
    (hlabels : builder.labels.Spelled P) (hphase : ∀ symbol ∈ phase.symbols, P symbol) :
    result.labels.Spelled P ∧ ∀ symbol ∈ next.symbols, P symbol := by
  have hreverse : ∀ {words : List Symbol}, (∀ symbol ∈ words, P symbol) →
      ∀ symbol ∈ words.reverse, P symbol := by
    intro words hwords symbol hsymbol
    exact hwords symbol (List.mem_reverse.mp hsymbol)
  cases haccepts with
  | label | enter | leave | declaration | labelled | declaringWord =>
    exact ⟨hlabels, List.forall_mem_nil _⟩
  | statingWord word => exact ⟨hlabels, List.forall_mem_cons.mpr ⟨htoken _ rfl, hphase⟩⟩
  | provingWord word => exact ⟨hlabels, hphase⟩
  | declare hdeclare =>
    obtain rfl : _ = result := congrArg Prod.fst hdeclare
    exact ⟨hlabels, List.forall_mem_nil _⟩
  | floating hadd =>
    refine ⟨hlabels.insert? (insert?_of_addFloating hadd) ?_, List.forall_mem_nil _⟩
    exact List.forall_mem_singleton.mpr (hreverse hphase)
  | essential hadd =>
    obtain ⟨-, scope, larger, -, hinsert, rfl⟩ := exists_of_addEssential hadd
    refine ⟨hlabels.insert? hinsert ?_, List.forall_mem_nil _⟩
    exact List.forall_mem_singleton.mpr (hreverse hphase)
  | axiomatic hadd =>
    obtain ⟨-, larger, hinsert, rfl⟩ := exists_of_addAxiomatic hadd
    refine ⟨hlabels.insert? hinsert ?_, List.forall_mem_nil _⟩
    exact horderly.spelled_assertion hlabels (hreverse hphase)
  | statement _ => exact ⟨hlabels, hreverse hphase⟩
  | provable hadd =>
    obtain ⟨larger, hinsert, rfl, -⟩ := exists_of_addProvable hadd
    refine ⟨hlabels.insert? hinsert ?_, List.forall_mem_nil _⟩
    exact horderly.spelled_assertion hlabels hphase

/-- If the progress refuses the token, it keeps the given table of labels. -/
def Progress.RefusesWith (labels : LabelTable) : Progress → Prop
  | .refused _ builder => builder.labels = labels
  | .more _ | .check _ _ => True

namespace Reading

variable {accept : Check → Except Error Unit} {reading next last : Reading} {token : Token}
  {tokens : List Token} {given : Option Check} {checks : List Check}
  {items : List (Except Inclusion.Error Token)} {outcome : Outcome}

theorem complete_refusesWith (reading : Reading) (outcome : Except Cause Builder) :
    (reading.complete outcome).RefusesWith reading.builder.labels := by
  cases outcome with
  | error cause => rfl
  | ok result => trivial

theorem feedOuter_refusesWith (reading : Reading) (pending : Option Symbol) (token : Token) :
    (reading.feedOuter pending token).RefusesWith reading.builder.labels := by
  rw [feedOuter.eq_def]
  split
  · split
    · rfl
    · cases pending with
      | some earlier => rfl
      | none =>
        rw [feedLabel]
        split
        · rfl
        · trivial
  · rw [feedKind.eq_def]
    split <;> first | rfl | trivial
  · cases pending with
    | some label => rfl
    | none => trivial
  · cases pending with
    | some label => rfl
    | none =>
      simp only [feedBlock, Bool.false_eq_true, if_false]
      split
      · rfl
      · exact complete_refusesWith reading _
  · rfl

/-- A token that is refused may have declared symbols, but it has defined no label. -/
theorem feed_refusesWith (reading : Reading) (token : Token) :
    (reading.feed token).RefusesWith reading.builder.labels := by
  rw [feed]
  split
  · exact feedOuter_refusesWith reading _ token
  · split
    · trivial
    · rw [finishDeclaration]
      split
      · trivial
      · next builder error hdeclare =>
        obtain rfl : _ = builder := congrArg Prod.fst hdeclare
        rfl
    · rfl
  · split
    · trivial
    · rw [finishStatement.eq_def]
      split
      · exact complete_refusesWith reading _
      · exact complete_refusesWith reading _
      · exact complete_refusesWith reading _
      · split
        · trivial
        · rfl
    · rfl
  · split
    · trivial
    · rw [finishProof]
      split <;> first | rfl | trivial
    · rfl

theorem Passes.spelled (hpasses : reading.Passes accept token given next)
    (horderly : reading.builder.Orderly) (htoken : ∀ text, token = .word text → P text)
    (hspelled : reading.Spelled P) : next.Spelled P := by
  obtain ⟨hlabels, hsymbols⟩ :=
    hpasses.accepts.1.spelled horderly htoken hspelled.labels hspelled.symbols
  exact ⟨hlabels, hsymbols⟩

/-- Nothing is recorded on the way but what the tokens are. -/
theorem Arrives.spelled (harrives : Arrives accept reading tokens checks last)
    (hchecked : reading.Checked) (horderly : reading.builder.Orderly)
    (htokens : ∀ text, .word text ∈ tokens → P text) (hspelled : reading.Spelled P) :
    last.builder.Orderly ∧ last.Spelled P := by
  induction harrives with
  | here => exact ⟨horderly, hspelled⟩
  | pass _ hpasses _ ih =>
    obtain ⟨hstep, hnext⟩ := hpasses.step hchecked
    apply ih hnext (horderly.step hstep)
    · intro text htext
      exact htokens text (List.mem_cons_of_mem _ htext)
    · apply hpasses.spelled horderly _ hspelled
      rintro text rfl
      exact htokens text List.mem_cons_self

theorem Ends.spelled (hends : reading.Ends accept items outcome)
    (horderly : reading.builder.Orderly) (hitems : ∀ text, .ok (.word text) ∈ items → P text)
    (hspelled : reading.Spelled P) : outcome.builder.labels.Spelled P := by
  cases hends with
  | finish _ =>
    rw [labels_finish]
    exact hspelled.labels
  | fault _ => exact hspelled.labels
  | @refused token error builder rest _ hfeed =>
    have hrefuses := reading.feed_refusesWith token
    rw [hfeed] at hrefuses
    rw [show builder.labels = reading.builder.labels from hrefuses]
    exact hspelled.labels
  | @rejected token check next error rest _ hfeed _ =>
    -- the theorem of the check has been recorded, although the read ends here
    have haccepted := reading.feed_accepted token
    rw [hfeed] at haccepted
    apply (haccepted.1.spelled horderly _ hspelled.labels hspelled.symbols).1
    rintro text rfl
    exact hitems text List.mem_cons_self

end Reading

namespace Builder

variable {builder : Builder}

theorem spelled_read (horderly : builder.Orderly) (hspelled : builder.labels.Spelled P)
    (accept : Check → Except Error Unit) {tokens : List (Except Inclusion.Error Token)}
    (htokens : ∀ text, .ok (.word text) ∈ tokens → P text) :
    (builder.read accept tokens).builder.labels.Spelled P := by
  obtain ⟨front, rest, checks, last, outcome, rfl, harrives, hends⟩ :=
    Reading.exists_arrives_ends accept (Reading.start builder) tokens
  obtain ⟨hlast, hlabels⟩ := harrives.spelled (Reading.checked_start builder)
    (horderly.step .enter)
    (fun text htext => htokens text
      (List.mem_append_left _ (List.mem_map_of_mem htext)))
    ⟨hspelled, List.forall_mem_nil _⟩
  rw [read, harrives.run_eq hends]
  exact hends.spelled hlast (fun text htext => htokens text (List.mem_append_right _ htext)) hlabels

/-- A builder that has read files or texts, with all files that they include. There may be any
number of reads, each of them may succeed or fail, and what the checks are answered is left open. -/
inductive Loaded : Builder → Prop where
  | new (bounds : Bounds) : Loaded (new bounds)
  | read {builder : Builder} {system : FileSystem} {source : Source} {includer : Includer}
      (accept : Check → Except Error Unit) (hopen : source.includer system = .ok includer) :
      Loaded builder → Loaded (builder.read accept (includer.tokens system)).builder

theorem Loaded.reached (hloaded : builder.Loaded) : builder.Reached := by
  induction hloaded with
  | new bounds => exact .new bounds
  | read accept _ _ ih => exact .read accept _ ih

/-- No symbol that was read from a text is empty. -/
theorem Loaded.spelled (hloaded : builder.Loaded) : builder.labels.Spelled (· ≠ "") := by
  induction hloaded with
  | new bounds => exact List.forall_mem_nil _
  | read accept hopen hloaded ih =>
    apply spelled_read hloaded.reached.orderly ih accept
    rintro text htext rfl
    exact Source.empty_not_mem_tokens hopen htext

end Builder

end Database

end Metamath
