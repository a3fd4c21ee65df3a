import Metamath.Proofs.Reading

/-!
# The grammar of databases

A passage is a part of a database with its structure made explicit: statements and blocks, one
after another. What may be written is what passages are written as, so passages are the grammar of
databases. Here reading is compared with it. A reading never builds a passage, it counts blocks and
collects the words of one statement at a time; still it accepts nothing but written passages, and
of those it refuses only the ones whose names are not right: a symbol that the scope refuses, or a
label that is defined twice.
-/

namespace Metamath

/-- The kind of statement that an entry stems from. -/
def Entry.kind : Entry → Labelled
  | .floating _ => .floating
  | .essential _ => .essential
  | .axiomatic _ => .axiomatic
  | .provable _ => .provable

/-- The symbols of the statement that an entry stems from. -/
def Entry.symbols : Entry → Statement
  | .floating statement | .essential statement => statement
  | .axiomatic assertion | .provable assertion => assertion.conclusion

/-- The statements of a table, each with its label and kind, in the order of definition. -/
def LabelTable.statements (labels : LabelTable) : List (Symbol × Labelled × Statement) :=
  labels.toList.map fun (label, entry) => (label, entry.kind, entry.symbols)

theorem LabelTable.statements_of_insert? {labels larger : LabelTable} {label : Symbol}
    {entry : Entry} (hinsert : labels.insert? label entry = some larger) :
    larger.statements = labels.statements ++ [(label, entry.kind, entry.symbols)] := by
  rw [statements, toList_of_insert? hinsert, List.map_append]
  rfl

namespace Scope

variable {scope result : Scope} {symbol : Symbol}

theorem depth_of_modifyTop {change : Frame → Frame}
    (hmodify : scope.modifyTop change = .ok result) : result.depth = scope.depth := by
  obtain ⟨frame, outer, hframes, rfl⟩ := modifyTop_eq_ok_iff.mp hmodify
  rw [depth, depth, hframes, List.length_cons, List.length_cons]

theorem depth_of_declareConstant (hdeclare : scope.declareConstant symbol = .ok result) :
    result.depth = scope.depth := by
  rw [declareConstant] at hdeclare
  split_ifs at hdeclare
  cases hdeclare
  rfl

theorem depth_of_declareVariable (hdeclare : scope.declareVariable symbol = .ok result) :
    result.depth = scope.depth := by
  rw [declareVariable] at hdeclare
  split_ifs at hdeclare
  exact depth_of_modifyTop hdeclare

theorem depth_of_addFloating {typing : Typing}
    (hadd : scope.addFloating typing symbol = .ok result) : result.depth = scope.depth := by
  rw [addFloating] at hadd
  split_ifs at hadd
  exact depth_of_modifyTop hadd

end Scope

namespace Database

/-! ### Passages -/

/-- A word that may be a label, a symbol or a piece of a proof. -/
structure Word where
  text : Symbol
  isWord : ¬ startsWithDollar text
  deriving DecidableEq

/-- The words as symbols. -/
def Word.symbols (words : List Word) : List Symbol :=
  words.map Word.text

/-- The words as tokens. -/
def Word.tokens (words : List Word) : List Token :=
  words.map fun word => .word word.text

/-- A statement as it is written. A `$f` statement has two symbols, the other labelled statements
have at least one. -/
inductive Clause where
  | declaration (declaration : Declaration) (symbols : List Word)
  | floating (label typecode v : Word)
  | essential (label first : Word) (rest : List Word)
  | axiomatic (label first : Word) (rest : List Word)
  | provable (label first : Word) (rest proof : List Word)

/-- Statements and blocks, one after another. -/
inductive Passage where
  | nil
  | clause (first : Clause) (rest : Passage)
  | block (inner rest : Passage)

/-- How a labelled statement begins. -/
def heading (kind : Labelled) (label : Word) (symbols : List Word) : List Token :=
  .word label.text :: .keyword (.statement (.labelled kind)) :: Word.tokens symbols

/-- How a statement is written. -/
def Clause.tokens : Clause → List Token
  | .declaration kind symbols =>
    .keyword (.statement (.declaration kind)) ::
      (Word.tokens symbols ++ [.keyword .terminator])
  | .floating label typecode v => heading .floating label [typecode, v] ++ [.keyword .terminator]
  | .essential label first rest =>
    heading .essential label (first :: rest) ++ [.keyword .terminator]
  | .axiomatic label first rest =>
    heading .axiomatic label (first :: rest) ++ [.keyword .terminator]
  | .provable label first rest proof =>
    heading .provable label (first :: rest) ++ [.keyword .proofStart] ++ Word.tokens proof ++
      [.keyword .terminator]

/-- The labelled statement that a clause is, if any. -/
def Clause.statements : Clause → List (Symbol × Labelled × Statement)
  | .declaration _ _ => []
  | .floating label typecode v => [(label.text, .floating, [typecode.text, v.text])]
  | .essential label first rest => [(label.text, .essential, Word.symbols (first :: rest))]
  | .axiomatic label first rest => [(label.text, .axiomatic, Word.symbols (first :: rest))]
  | .provable label first rest _ => [(label.text, .provable, Word.symbols (first :: rest))]

namespace Passage

/-- How a passage is written. -/
def tokens : Passage → List Token
  | nil => []
  | clause first rest => first.tokens ++ rest.tokens
  | block inner rest =>
    .keyword .blockOpen :: (inner.tokens ++ .keyword .blockClose :: rest.tokens)

/-- The labelled statements of a passage. -/
def statements : Passage → List (Symbol × Labelled × Statement)
  | nil => []
  | clause first rest => first.statements ++ rest.statements
  | block inner rest => inner.statements ++ rest.statements

/-- One passage after another. -/
def append : Passage → Passage → Passage
  | nil, more => more
  | clause first rest, more => clause first (rest.append more)
  | block inner rest, more => block inner (rest.append more)

theorem tokens_append (passage more : Passage) :
    (passage.append more).tokens = passage.tokens ++ more.tokens := by
  induction passage with
  | nil => rfl
  | clause first rest ih => rw [append, tokens, tokens, ih, List.append_assoc]
  | block inner rest _ ih =>
    rw [append, tokens, tokens, ih, List.cons_append, List.append_assoc, List.cons_append]

end Passage

/-! ### Reading tokens without looking at checks -/

/-- How the reading goes on after a token. -/
def Progress.next : Progress → Except Error Reading
  | .more reading => .ok reading
  | .check _ reading => .ok reading
  | .refused error _ => .error error

/-- The builder does not stop before the end of the input. -/
structure Builder.Unbounded (builder : Builder) : Prop where
  stop : builder.bounds.stop = none
  stopped : ¬ builder.stopped

theorem Builder.Unbounded.step {builder result : Builder} {check : Option Check}
    (hunbounded : builder.Unbounded) (hstep : builder.Step check result) : result.Unbounded := by
  obtain ⟨hstop, hstopped⟩ := hunbounded
  cases hstep with
  | idle => exact ⟨hstop, hstopped⟩
  | note label => exact ⟨hstop, by simpa [noteLabel, hstop] using hstopped⟩
  | enter => exact ⟨hstop, hstopped⟩
  | leave _ => exact ⟨hstop, hstopped⟩
  | declare _ _ => exact ⟨hstop, hstopped⟩
  | floating hadd =>
    obtain ⟨_, _, _, -, -, rfl⟩ := exists_of_addFloating hadd
    exact ⟨hstop, hstopped⟩
  | essential hadd =>
    obtain ⟨-, _, _, -, -, rfl⟩ := exists_of_addEssential hadd
    exact ⟨hstop, hstopped⟩
  | axiomatic hadd =>
    obtain ⟨-, _, -, rfl⟩ := exists_of_addAxiomatic hadd
    exact ⟨hstop, hstopped⟩
  | provable _ hadd =>
    obtain ⟨_, -, rfl, -⟩ := exists_of_addProvable hadd
    exact ⟨hstop, hstopped⟩

namespace Reading

/-- Read tokens one after another. -/
def feedAll (reading : Reading) (tokens : List Token) : Except Error Reading :=
  tokens.foldlM (fun current token => (current.feed token).next) reading

variable {reading next : Reading} {token : Token}

theorem feedAll_cons (rest : List Token) :
    reading.feedAll (token :: rest) = (reading.feed token).next >>= (feedAll · rest) :=
  List.foldlM_cons

theorem feedAll_append (tokens rest : List Token) :
    reading.feedAll (tokens ++ rest) = reading.feedAll tokens >>= (feedAll · rest) :=
  List.foldlM_append

theorem feedAll_singleton : reading.feedAll [token] = (reading.feed token).next := by
  rw [feedAll_cons]
  exact bind_pure _

theorem finish_of_closed {builder : Builder} {floor : Nat} (hstopped : ¬ builder.stopped)
    (hclosed : builder.depth ≤ floor + 1) :
    finish ⟨builder, floor, .outer none⟩ = (builder.truncate floor, .ok ()) := by
  rw [finish, if_neg hstopped]
  exact if_neg (Nat.not_lt.mpr hclosed)

/-- Without a label to stop at and with checks that always pass, a run feeds all tokens. -/
theorem run_eq_feedAll {accept : Check → Except Error Unit}
    (haccept : ∀ check, accept check = .ok ()) (hunbounded : reading.builder.Unbounded)
    (hchecked : reading.Checked) (tokens : List Token) :
    (reading.run accept (tokens.map .ok)).result =
        (reading.feedAll tokens >>= fun last => last.finish.2) ∧
      ∀ last, reading.feedAll tokens = .ok last →
        ¬ last.builder.stopped ∧
          (reading.run accept (tokens.map .ok)).builder = last.finish.1 := by
  induction tokens generalizing reading with
  | nil =>
    refine ⟨rfl, fun last hlast => ?_⟩
    cases hlast
    exact ⟨hunbounded.stopped, rfl⟩
  | cons token rest ih =>
    have hfollows := feed_follows hchecked token
    rw [List.map_cons, feedAll_cons]
    cases hfeed : reading.feed token with
    | refused error builder =>
      rw [run_cons_of_refused hunbounded.stopped hfeed]
      exact ⟨rfl, nofun⟩
    | more next =>
      rw [hfeed] at hfollows
      rw [run_cons_of_more hunbounded.stopped hfeed]
      exact ih (hunbounded.step hfollows.1) hfollows.2
    | check given next =>
      rw [hfeed] at hfollows
      rw [run_cons_of_accepted hunbounded.stopped hfeed (haccept given)]
      exact ih (hunbounded.step hfollows.1) hfollows.2

end Reading

/-! ### What statements do -/

/-- The cause lies in the names that are used, not in how they are put together: the scope refuses a
symbol, or a label is defined already. -/
def Cause.ConcernsNames : Cause → Prop
  | .scope _ => True
  | .structural (.redefined _) => True
  | _ => False

namespace Builder

variable {builder : Builder} {label : Symbol} {statement : Statement}

/-- The outcome of statements: they are added to the table of labels and leave all blocks open, or
they are refused because of their names. -/
def Adds (builder : Builder) (statements : List (Symbol × Labelled × Statement)) :
    Except Cause Builder → Prop
  | .ok result => result.depth = builder.depth ∧
      result.labels.statements = builder.labels.statements ++ statements
  | .error cause => cause.ConcernsNames

theorem adds_define {scope : Scope} (entry : Entry) (hdepth : scope.depth = builder.depth) :
    builder.Adds [(label, entry.kind, entry.symbols)]
      (define { builder with scope } label entry) := by
  rw [define]
  split
  · next larger hinsert => exact ⟨hdepth, LabelTable.statements_of_insert? hinsert⟩
  · trivial

theorem concernsNames_of_checkStatement {cause : Cause} (hstatement : statement ≠ [])
    (hchecked : builder.checkStatement statement = .error cause) : cause.ConcernsNames := by
  rw [checkStatement, if_neg (by simpa using hstatement)] at hchecked
  cases hforM : statement.forM builder.checkSymbol with
  | error error =>
    rw [hforM] at hchecked
    cases hchecked
    trivial
  | ok _ =>
    rw [hforM] at hchecked
    cases hchecked

theorem adds_addFloating (typecode v : Symbol) :
    builder.Adds [(label, .floating, [typecode, v])]
      (builder.addFloating label [typecode, v]) := by
  rw [addFloating]
  cases hscope : builder.scope.addFloating ⟨typecode, v⟩ label with
  | error error => trivial
  | ok scope => exact adds_define (.floating [typecode, v]) (Scope.depth_of_addFloating hscope)

theorem adds_addEssential (hstatement : statement ≠ []) :
    builder.Adds [(label, .essential, statement)] (builder.addEssential label statement) := by
  rw [addEssential]
  cases hchecked : builder.checkStatement statement with
  | error cause => exact concernsNames_of_checkStatement hstatement hchecked
  | ok _ =>
    cases hscope : builder.scope.addEssential statement label with
    | error error => trivial
    | ok scope => exact adds_define (.essential statement) (Scope.depth_of_modifyTop hscope)

theorem adds_addAxiomatic (hstatement : statement ≠ []) :
    builder.Adds [(label, .axiomatic, statement)] (builder.addAxiomatic label statement) := by
  rw [addAxiomatic]
  cases hchecked : builder.checkStatement statement with
  | error cause => exact concernsNames_of_checkStatement hstatement hchecked
  | ok _ => exact adds_define (.axiomatic (builder.scope.assertion statement)) rfl

theorem adds_addProvable (builder : Builder) (label : Symbol) (statement : Statement)
    (proof : List Symbol) :
    builder.Adds [(label, .provable, statement)]
      ((builder.addProvable label statement proof).map Prod.fst) := by
  rw [addProvable]
  have hadds : builder.Adds [(label, .provable, statement)]
      (builder.define label (.provable (builder.scope.assertion statement))) :=
    adds_define (.provable (builder.scope.assertion statement)) rfl
  cases hdefine : builder.define label (.provable (builder.scope.assertion statement)) with
  | error cause =>
    rw [hdefine] at hadds
    exact hadds
  | ok result =>
    rw [hdefine] at hadds
    exact hadds

theorem depth_declare (declaration : Declaration) (symbols : List Symbol) :
    (builder.declare declaration symbols).1.depth = builder.depth :=
  declare_induction (P := fun scope => scope.depth = builder.depth)
    (fun _ _ _ hdepth hdeclare => (Scope.depth_of_declareConstant hdeclare).trans hdepth)
    (fun _ _ _ hdepth hdeclare => (Scope.depth_of_declareVariable hdeclare).trans hdepth)
    (fun _ _ _ hdepth hadd => (Scope.depth_of_modifyTop hadd).trans hdepth) rfl declaration symbols

end Builder

namespace Reading

variable {builder : Builder} {floor : Nat} {statements : List (Symbol × Labelled × Statement)}

/-- The outcome of reading between two statements: the statements are added and the reading is
between two statements again, or they are refused because of their names. -/
def Reads (builder : Builder) (floor : Nat) (statements : List (Symbol × Labelled × Statement)) :
    Except Error Reading → Prop
  | .ok next => ∃ result, next = ⟨result, floor, .outer none⟩ ∧
      builder.Adds statements (.ok result)
  | .error error => error.cause.ConcernsNames

theorem reads_complete {phase : Phase} {outcome : Except Cause Builder}
    (hadds : builder.Adds statements outcome) :
    Reads builder floor statements (complete ⟨builder, floor, phase⟩ outcome).next := by
  cases outcome with
  | error cause => exact hadds
  | ok result => exact ⟨result, rfl, hadds⟩

theorem Reads.append {first second : List Token} {more : List (Symbol × Labelled × Statement)}
    (hfirst : Reads builder floor statements (feedAll ⟨builder, floor, .outer none⟩ first))
    (hsecond : ∀ result, builder.Adds statements (.ok result) →
      Reads result floor more (feedAll ⟨result, floor, .outer none⟩ second)) :
    Reads builder floor (statements ++ more)
      (feedAll ⟨builder, floor, .outer none⟩ (first ++ second)) := by
  rw [feedAll_append]
  cases hmiddle : feedAll ⟨builder, floor, .outer none⟩ first with
  | error error =>
    rw [hmiddle] at hfirst
    exact hfirst
  | ok middle =>
    rw [hmiddle] at hfirst
    obtain ⟨result, rfl, hadds⟩ := hfirst
    have hrest := hsecond result hadds
    show Reads builder floor (statements ++ more) (feedAll ⟨result, floor, .outer none⟩ second)
    cases hlast : feedAll ⟨result, floor, .outer none⟩ second with
    | error error =>
      rw [hlast] at hrest
      exact hrest
    | ok last =>
      rw [hlast] at hrest
      obtain ⟨final, rfl, hdepth, hstatements⟩ := hrest
      refine ⟨final, rfl, hdepth.trans hadds.1, ?_⟩
      rw [hstatements, hadds.2, List.append_assoc]

/-- In a phase of this form, words are kept, the last one first. -/
def KeepsWords (phase : List Symbol → Phase) : Prop :=
  ∀ (builder : Builder) (floor : Nat) (kept : List Symbol) (word : Word),
    feed ⟨builder, floor, phase kept⟩ (.word word.text) =
      .more ⟨builder, floor, phase (word.text :: kept)⟩

theorem ofToken_word (stop : Keyword) (word : Word) :
    Member.ofToken stop (.word word.text) = .word word.text :=
  if_neg word.isWord

theorem keepsWords_declaring (declaration : Declaration) :
    KeepsWords (.declaring declaration) := by
  intro builder floor kept word
  simp only [feed, ofToken_word]
  rfl

theorem keepsWords_stating (kind : Labelled) (label : Symbol) :
    KeepsWords (.stating kind label) := by
  intro builder floor kept word
  simp only [feed, ofToken_word]
  rfl

theorem keepsWords_proving (label : Symbol) (statement : Statement) :
    KeepsWords (.proving label statement) := by
  intro builder floor kept word
  simp only [feed, ofToken_word]
  rfl

theorem KeepsWords.feedAll_append {phase : List Symbol → Phase} (hkeeps : KeepsWords phase)
    (words : List Word) (rest : List Token) :
    feedAll ⟨builder, floor, phase []⟩ (Word.tokens words ++ rest) =
      feedAll ⟨builder, floor, phase (Word.symbols words).reverse⟩ rest := by
  have hkept : ∀ kept, feedAll ⟨builder, floor, phase kept⟩ (Word.tokens words ++ rest) =
      feedAll ⟨builder, floor, phase ((Word.symbols words).reverse ++ kept)⟩ rest := by
    induction words with
    | nil => exact fun kept => rfl
    | cons word words ih =>
      intro kept
      rw [Word.tokens, List.map_cons, List.cons_append, feedAll_cons, hkeeps]
      exact (ih (word.text :: kept)).trans (by simp [Word.symbols])
  exact (hkept []).trans (by rw [List.append_nil])

/-- A labelled statement begins with a label that is new. -/
theorem feedAll_heading (kind : Labelled) (label : Word) (symbols : List Word) (rest : List Token) :
    feedAll ⟨builder, floor, .outer none⟩ (heading kind label symbols ++ rest) =
      if builder.labels.contains label.text then
        .error ⟨none, .structural (.redefined label.text)⟩
      else
        feedAll ⟨builder.noteLabel label.text, floor,
          .stating kind label.text (Word.symbols symbols).reverse⟩ rest := by
  have hlabel : feed ⟨builder, floor, .outer none⟩ (.word label.text) =
      feedLabel ⟨builder, floor, .outer none⟩ none label.text := if_neg label.isWord
  rw [heading, List.cons_append, List.cons_append, feedAll_cons, hlabel, feedLabel]
  split_ifs
  · rfl
  · exact (keepsWords_stating kind label.text).feedAll_append symbols rest

theorem reads_finishDeclaration {phase : Phase} (declaration : Declaration)
    (symbols : List Symbol) :
    Reads builder floor []
      (finishDeclaration ⟨builder, floor, phase⟩ declaration symbols).next := by
  have hdepth := builder.depth_declare declaration symbols
  have hlabels : (builder.declare declaration symbols).1.labels = builder.labels := rfl
  rw [finishDeclaration]
  split
  · next result hdeclare =>
    rw [hdeclare] at hdepth hlabels
    exact ⟨result, rfl, hdepth, by rw [List.append_nil, ← hlabels]⟩
  · trivial

theorem reads_declaration (declaration : Declaration) (symbols : List Word) :
    Reads builder floor []
      (feedAll ⟨builder, floor, .outer none⟩ (Clause.declaration declaration symbols).tokens) := by
  have hfeed : feedAll ⟨builder, floor, .outer none⟩
      (Clause.declaration declaration symbols).tokens =
      (finishDeclaration ⟨builder, floor, .declaring declaration (Word.symbols symbols).reverse⟩
        declaration (Word.symbols symbols).reverse.reverse).next :=
    ((keepsWords_declaring declaration).feedAll_append symbols _).trans feedAll_singleton
  rw [hfeed]
  exact reads_finishDeclaration declaration _

/-- Reading a label that is noted for a statement. -/
theorem reads_heading {kind : Labelled} {label : Word} {symbols : List Word} {rest : List Token}
    (hrest : Reads (builder.noteLabel label.text) floor statements
      (feedAll ⟨builder.noteLabel label.text, floor,
        .stating kind label.text (Word.symbols symbols).reverse⟩ rest)) :
    Reads builder floor statements
      (feedAll ⟨builder, floor, .outer none⟩ (heading kind label symbols ++ rest)) := by
  rw [feedAll_heading]
  split_ifs
  · trivial
  · exact hrest

theorem reads_finishProof {phase : Phase} (label : Symbol) (statement : Statement)
    (proof : List Symbol) :
    Reads builder floor [(label, .provable, statement)]
      (finishProof ⟨builder, floor, phase⟩ label statement proof).next := by
  have hadds := builder.adds_addProvable label statement proof
  rw [finishProof]
  split <;> rename_i hadd <;> rw [hadd] at hadds
  · exact ⟨_, rfl, hadds⟩
  · exact ⟨_, rfl, hadds⟩
  · exact hadds

theorem reads_provable (label first : Word) (rest proof : List Word) :
    Reads builder floor [(label.text, .provable, Word.symbols (first :: rest))]
      (feedAll ⟨builder, floor, .outer none⟩ (Clause.provable label first rest proof).tokens) := by
  rw [Clause.tokens, List.append_assoc, List.append_assoc]
  refine reads_heading ?_
  rw [List.singleton_append, feedAll_cons]
  show Reads _ _ _ ((finishStatement ⟨_, floor, _⟩ .provable label.text
    (Word.symbols (first :: rest)).reverse.reverse).next >>= _)
  rw [List.reverse_reverse, finishStatement]
  cases hchecked : (builder.noteLabel label.text).checkStatement
      (Word.symbols (first :: rest)) with
  | error cause =>
    exact Builder.concernsNames_of_checkStatement (List.cons_ne_nil _ _) hchecked
  | ok _ =>
    show Reads _ _ _ (feedAll ⟨_, floor, .proving label.text (Word.symbols (first :: rest)) []⟩
      (Word.tokens proof ++ _))
    rw [(keepsWords_proving _ _).feedAll_append, feedAll_singleton]
    exact reads_finishProof _ _ _

/-- Every statement of the grammar is added, or it is refused because of its names. -/
theorem reads_clause (clause : Clause) :
    Reads builder floor clause.statements
      (feedAll ⟨builder, floor, .outer none⟩ clause.tokens) := by
  cases clause with
  | declaration kind symbols => exact reads_declaration kind symbols
  | floating label typecode v =>
    refine reads_heading ?_
    rw [feedAll_singleton]
    exact reads_complete (Builder.adds_addFloating typecode.text v.text)
  | essential label first rest =>
    refine reads_heading ?_
    rw [feedAll_singleton]
    show Reads _ _ _ (complete ⟨_, floor, _⟩ (Builder.addEssential _ _
      (Word.symbols (first :: rest)).reverse.reverse)).next
    rw [List.reverse_reverse]
    exact reads_complete (Builder.adds_addEssential (List.cons_ne_nil _ _))
  | axiomatic label first rest =>
    refine reads_heading ?_
    rw [feedAll_singleton]
    show Reads _ _ _ (complete ⟨_, floor, _⟩ (Builder.addAxiomatic _ _
      (Word.symbols (first :: rest)).reverse.reverse)).next
    rw [List.reverse_reverse]
    exact reads_complete (Builder.adds_addAxiomatic (List.cons_ne_nil _ _))
  | provable label first rest proof => exact reads_provable label first rest proof

theorem reads_nil : Reads builder floor [] (feedAll ⟨builder, floor, .outer none⟩ []) :=
  ⟨builder, rfl, rfl, (List.append_nil _).symm⟩

/-- Every block but the outermost one can be closed. -/
theorem exists_next_blockClose (hdepth : 1 < builder.depth) :
    ∃ result : Builder, (feed ⟨builder, floor, .outer none⟩ (.keyword .blockClose)).next =
        .ok ⟨result, floor, .outer none⟩ ∧
      result.depth + 1 = builder.depth ∧ result.labels = builder.labels := by
  have hclose : feed ⟨builder, floor, .outer none⟩ (.keyword .blockClose) =
      complete ⟨builder, floor, .outer none⟩ ((builder.scope.pop.mapError .scope).map fun scope =>
        { builder with scope }) := if_neg (Nat.not_le.mpr hdepth)
  obtain ⟨⟨constants, frames⟩, labels, bounds, verifying, stopped⟩ := builder
  cases frames with
  | nil => cases hdepth
  | cons frame outer =>
    exact ⟨⟨⟨constants, outer⟩, labels, bounds, verifying, stopped⟩, by rw [hclose]; rfl, rfl, rfl⟩

theorem reads_block {inner : List Token} (hdepth : 0 < builder.depth)
    (hinner : Reads { builder with scope := builder.scope.push } floor statements
      (feedAll ⟨{ builder with scope := builder.scope.push }, floor, .outer none⟩ inner)) :
    Reads builder floor statements
      (feedAll ⟨builder, floor, .outer none⟩
        (.keyword .blockOpen :: (inner ++ [.keyword .blockClose]))) := by
  rw [feedAll_cons]
  show Reads builder floor statements
    (feedAll ⟨{ builder with scope := builder.scope.push }, floor, .outer none⟩ (inner ++ _))
  rw [feedAll_append]
  cases hmiddle : feedAll ⟨{ builder with scope := builder.scope.push }, floor, .outer none⟩
      inner with
  | error error =>
    rw [hmiddle] at hinner
    exact hinner
  | ok middle =>
    rw [hmiddle] at hinner
    obtain ⟨middle, rfl, hdeeper, hstatements⟩ := hinner
    have hopen : middle.depth = builder.depth + 1 := hdeeper
    obtain ⟨result, hnext, hresult, hlabels⟩ : ∃ result : Builder,
        (feed ⟨middle, floor, .outer none⟩ (.keyword .blockClose)).next =
          .ok ⟨result, floor, .outer none⟩ ∧
        result.depth + 1 = middle.depth ∧ result.labels = middle.labels :=
      exists_next_blockClose (by omega)
    show Reads builder floor statements (feedAll ⟨middle, floor, .outer none⟩ _)
    rw [feedAll_singleton, hnext]
    exact ⟨result, rfl, by omega, by rw [hlabels]; exact hstatements⟩

/-- Every passage is read, or it is refused because of its names. -/
theorem reads_passage (hdepth : 0 < builder.depth) (passage : Passage) :
    Reads builder floor passage.statements
      (feedAll ⟨builder, floor, .outer none⟩ passage.tokens) := by
  induction passage generalizing builder with
  | nil => exact reads_nil
  | clause first rest ih =>
    exact (reads_clause first).append fun result hadds => ih (hadds.1 ▸ hdepth)
  | block inner rest ihInner ihRest =>
    have hblock := (reads_block hdepth (ihInner (Nat.succ_pos _))).append
      fun result hadds => ihRest (hadds.1 ▸ hdepth)
    rw [List.cons_append, List.append_assoc] at hblock
    exact hblock

end Reading

/-! ### What has been written when a token is accepted -/

/-- The tokens of an unfinished statement, as far as the given part of it. -/
inductive Phase.Written : Phase → List Token → Prop where
  | between : Written (.outer none) []
  | label (label : Word) : Written (.outer (some label.text)) [.word label.text]
  | declaring (kind : Declaration) (symbols : List Word) :
      Written (.declaring kind (Word.symbols symbols).reverse)
        (.keyword (.statement (.declaration kind)) :: Word.tokens symbols)
  | stating (kind : Labelled) (label : Word) (symbols : List Word) :
      Written (.stating kind label.text (Word.symbols symbols).reverse)
        (heading kind label symbols)
  | proving (label first : Word) (rest proof : List Word) :
      Written (.proving label.text (Word.symbols (first :: rest)) (Word.symbols proof).reverse)
        (heading .provable label (first :: rest) ++ [.keyword .proofStart] ++ Word.tokens proof)

/-- Passages that are followed by a block which is still open, the innermost one first. -/
def Passage.opened : List Passage → List Token
  | [] => []
  | passage :: outer => opened outer ++ passage.tokens ++ [.keyword .blockOpen]

/-- What a reading has read: passages around the current block, a passage of the current block, and
a part of a statement. -/
inductive Reading.HasRead : Reading → List Token → Prop where
  | intro {builder : Builder} {phase : Phase} {written : List Token} (outer : List Passage)
      (passage : Passage) (hdepth : builder.depth = outer.length + 1)
      (hwritten : phase.Written written) :
      HasRead ⟨builder, 0, phase⟩ (Passage.opened outer ++ passage.tokens ++ written)

namespace Reading

variable {builder result : Builder} {next : Reading} {token : Token} {outer : List Passage}
  {passage : Passage}

theorem exists_of_ofToken_eq_word {stop : Keyword} {text : Symbol}
    (hmember : Member.ofToken stop token = .word text) :
    ∃ word : Word, word.text = text ∧ token = .word text := by
  cases token with
  | word other =>
    rw [Member.ofToken] at hmember
    split_ifs at hmember with hdollar
    cases hmember
    exact ⟨⟨text, hdollar⟩, rfl, rfl⟩
  | keyword keyword =>
    rw [Member.ofToken] at hmember
    split_ifs at hmember

theorem eq_keyword_of_ofToken_eq_stop {stop : Keyword}
    (hmember : Member.ofToken stop token = .stop) : token = .keyword stop := by
  cases token with
  | word other =>
    rw [Member.ofToken] at hmember
    split_ifs at hmember
  | keyword keyword =>
    rw [Member.ofToken] at hmember
    split_ifs at hmember with hstop
    rw [hstop]

/-- A statement is completed. -/
theorem hasRead_clause {statements : List (Symbol × Labelled × Statement)} {written : List Token}
    (clause : Clause) (hclause : written ++ [token] = clause.tokens)
    (hdepth : builder.depth = outer.length + 1) (hreads : Reads builder 0 statements (.ok next)) :
    next.HasRead (Passage.opened outer ++ passage.tokens ++ written ++ [token]) := by
  obtain ⟨result, rfl, hsame, -⟩ := hreads
  have hread := HasRead.intro outer (passage.append (.clause clause .nil)) (hsame.trans hdepth)
    .between
  rw [Passage.tokens_append, Passage.tokens, ← hclause] at hread
  simpa [Passage.tokens] using hread

theorem hasRead_blockOpen (hdepth : builder.depth = outer.length + 1)
    (hnext : (feed ⟨builder, 0, .outer none⟩ (.keyword .blockOpen)).next = .ok next) :
    next.HasRead (Passage.opened outer ++ passage.tokens ++ [.keyword .blockOpen]) := by
  cases hnext
  have hread : HasRead ⟨{ builder with scope := builder.scope.push }, 0, .outer none⟩
      (Passage.opened (passage :: outer) ++ Passage.nil.tokens ++ []) :=
    .intro (passage :: outer) .nil (congrArg (· + 1) hdepth) .between
  rw [List.append_nil, Passage.tokens, List.append_nil] at hread
  exact hread

theorem hasRead_blockClose (hdepth : builder.depth = outer.length + 1)
    (hnext : (feed ⟨builder, 0, .outer none⟩ (.keyword .blockClose)).next = .ok next) :
    next.HasRead (Passage.opened outer ++ passage.tokens ++ [.keyword .blockClose]) := by
  cases outer with
  | nil =>
    -- the outermost block is the only one that is open
    have hrefused : feed ⟨builder, 0, .outer none⟩ (.keyword .blockClose) =
        refuse ⟨builder, 0, .outer none⟩ (.structural .unmatchedClose) :=
      if_pos (Nat.le_of_eq hdepth)
    rw [hrefused] at hnext
    cases hnext
  | cons before outer =>
    obtain ⟨result, hclose, hresult, -⟩ : ∃ result : Builder,
        (feed ⟨builder, 0, .outer none⟩ (.keyword .blockClose)).next =
          .ok ⟨result, 0, .outer none⟩ ∧
        result.depth + 1 = builder.depth ∧ result.labels = builder.labels :=
      exists_next_blockClose (by rw [hdepth, List.length_cons]; omega)
    cases hclose.symm.trans hnext
    have hdepth : result.depth = outer.length + 1 := by
      rw [hdepth, List.length_cons] at hresult
      omega
    have hread := HasRead.intro outer (before.append (.block passage .nil)) hdepth .between
    rw [Passage.tokens_append, Passage.tokens] at hread
    simpa [Passage.opened, Passage.tokens] using hread

theorem hasRead_between (hdepth : builder.depth = outer.length + 1)
    (hnext : (feed ⟨builder, 0, .outer none⟩ token).next = .ok next) :
    next.HasRead (Passage.opened outer ++ passage.tokens ++ [token]) := by
  cases token with
  | word text =>
    rw [feed] at hnext
    simp only [feedOuter, feedLabel] at hnext
    split_ifs at hnext with hdollar hdefined
    · cases hnext
    · cases hnext
    · cases hnext
      exact .intro outer passage hdepth (.label ⟨text, hdollar⟩)
  | keyword keyword =>
    cases keyword with
    | statement kind =>
      cases kind with
      | declaration kind =>
        cases hnext
        exact .intro outer passage hdepth (.declaring kind [])
      | labelled kind => cases hnext
    | blockOpen => exact hasRead_blockOpen hdepth hnext
    | blockClose => exact hasRead_blockClose hdepth hnext
    | _ => cases hnext

theorem hasRead_label (label : Word) (hdepth : builder.depth = outer.length + 1)
    (hnext : (feed ⟨builder, 0, .outer (some label.text)⟩ token).next = .ok next) :
    next.HasRead (Passage.opened outer ++ passage.tokens ++ [.word label.text] ++ [token]) := by
  cases token with
  | word text =>
    rw [feed] at hnext
    simp only [feedOuter, feedLabel] at hnext
    split_ifs at hnext <;> cases hnext
  | keyword keyword =>
    cases keyword with
    | statement kind =>
      cases kind with
      | declaration kind => cases hnext
      | labelled kind =>
        cases hnext
        rw [List.append_assoc]
        exact .intro outer passage hdepth (.stating kind label [])
    | _ => cases hnext

/-- Another word of a declaration, a statement or a proof. -/
theorem hasRead_word {phase : List Symbol → Phase} (start : List Token)
    (hwritten : ∀ words, (phase (Word.symbols words).reverse).Written (start ++ Word.tokens words))
    (hdepth : builder.depth = outer.length + 1) (words : List Word) (word : Word) :
    HasRead ⟨builder, 0, phase (word.text :: (Word.symbols words).reverse)⟩
      (Passage.opened outer ++ passage.tokens ++ (start ++ Word.tokens words) ++
        [.word word.text]) := by
  have hread := HasRead.intro outer passage hdepth (hwritten (words ++ [word]))
  simpa [Word.symbols, Word.tokens] using hread

theorem hasRead_declaring (kind : Declaration) (symbols : List Word)
    (hdepth : builder.depth = outer.length + 1)
    (hnext : (feed ⟨builder, 0, .declaring kind (Word.symbols symbols).reverse⟩ token).next =
      .ok next) :
    next.HasRead (Passage.opened outer ++ passage.tokens ++
      (.keyword (.statement (.declaration kind)) :: Word.tokens symbols) ++ [token]) := by
  rw [feed] at hnext
  simp only at hnext
  split at hnext
  · next text hmember =>
    obtain ⟨word, rfl, rfl⟩ := exists_of_ofToken_eq_word hmember
    cases hnext
    exact hasRead_word [_] (.declaring kind) hdepth symbols word
  · next hmember =>
    cases eq_keyword_of_ofToken_eq_stop hmember
    rw [List.reverse_reverse] at hnext
    exact hasRead_clause (.declaration kind symbols) rfl hdepth
      (hnext ▸ reads_finishDeclaration kind (Word.symbols symbols))
  · cases hnext

/-- A labelled statement is completed only if it has the right number of symbols. -/
theorem hasRead_stop {kind : Labelled} {label : Word} {symbols : List Word} {phase : Phase}
    (hdepth : builder.depth = outer.length + 1)
    (hnext : (finishStatement ⟨builder, 0, phase⟩ kind label.text
      (Word.symbols symbols)).next = .ok next) :
    next.HasRead (Passage.opened outer ++ passage.tokens ++ heading kind label symbols ++
      [.keyword (stopKeyword kind)]) := by
  cases kind with
  | floating =>
    rcases symbols with _ | ⟨typecode, _ | ⟨v, _ | ⟨third, rest⟩⟩⟩
    · cases hnext
    · cases hnext
    · exact hasRead_clause (.floating label typecode v) rfl hdepth
        (hnext ▸ reads_complete (Builder.adds_addFloating typecode.text v.text))
    · cases hnext
  | essential =>
    cases symbols with
    | nil => cases hnext
    | cons first rest =>
      exact hasRead_clause (.essential label first rest) rfl hdepth
        (hnext ▸ reads_complete (Builder.adds_addEssential (List.cons_ne_nil _ _)))
  | axiomatic =>
    cases symbols with
    | nil => cases hnext
    | cons first rest =>
      exact hasRead_clause (.axiomatic label first rest) rfl hdepth
        (hnext ▸ reads_complete (Builder.adds_addAxiomatic (List.cons_ne_nil _ _)))
  | provable =>
    cases symbols with
    | nil => cases hnext
    | cons first rest =>
      rw [finishStatement] at hnext
      split at hnext
      · cases hnext
        have hread := HasRead.intro outer passage hdepth (.proving label first rest [])
        simpa [Word.tokens, Word.symbols, stopKeyword] using hread
      · cases hnext

theorem hasRead_stating (kind : Labelled) (label : Word) (symbols : List Word)
    (hdepth : builder.depth = outer.length + 1)
    (hnext : (feed ⟨builder, 0, .stating kind label.text (Word.symbols symbols).reverse⟩
      token).next = .ok next) :
    next.HasRead (Passage.opened outer ++ passage.tokens ++ heading kind label symbols ++
      [token]) := by
  rw [feed] at hnext
  simp only at hnext
  split at hnext
  · next text hmember =>
    obtain ⟨word, rfl, rfl⟩ := exists_of_ofToken_eq_word hmember
    cases hnext
    exact hasRead_word [_, _] (.stating kind label) hdepth symbols word
  · next hmember =>
    cases eq_keyword_of_ofToken_eq_stop hmember
    rw [List.reverse_reverse] at hnext
    exact hasRead_stop hdepth hnext
  · cases hnext

theorem hasRead_proving (label first : Word) (rest proof : List Word)
    (hdepth : builder.depth = outer.length + 1)
    (hnext : (feed ⟨builder, 0, .proving label.text (Word.symbols (first :: rest))
      (Word.symbols proof).reverse⟩ token).next = .ok next) :
    next.HasRead (Passage.opened outer ++ passage.tokens ++
      (heading .provable label (first :: rest) ++ [.keyword .proofStart] ++ Word.tokens proof) ++
      [token]) := by
  rw [feed] at hnext
  simp only at hnext
  split at hnext
  · next text hmember =>
    obtain ⟨word, rfl, rfl⟩ := exists_of_ofToken_eq_word hmember
    cases hnext
    exact hasRead_word _ (.proving label first rest) hdepth proof word
  · next hmember =>
    cases eq_keyword_of_ofToken_eq_stop hmember
    exact hasRead_clause (.provable label first rest proof) rfl hdepth
      (hnext ▸ reads_finishProof _ _ _)
  · cases hnext

/-- What one token adds to what has been read. -/
theorem HasRead.feed {reading : Reading} {tokens : List Token} (hread : reading.HasRead tokens)
    (hnext : (reading.feed token).next = .ok next) : next.HasRead (tokens ++ [token]) := by
  obtain @⟨builder, phase, written, outer, passage, hdepth, hwritten⟩ := hread
  cases hwritten with
  | between =>
    rw [List.append_nil]
    exact hasRead_between hdepth hnext
  | label label => exact hasRead_label label hdepth hnext
  | declaring kind symbols => exact hasRead_declaring kind symbols hdepth hnext
  | stating kind label symbols => exact hasRead_stating kind label symbols hdepth hnext
  | proving label first rest proof => exact hasRead_proving label first rest proof hdepth hnext

theorem HasRead.feedAll {reading last : Reading} {tokens more : List Token}
    (hread : reading.HasRead tokens) (hlast : reading.feedAll more = .ok last) :
    last.HasRead (tokens ++ more) := by
  induction more generalizing reading tokens with
  | nil =>
    cases hlast
    rw [List.append_nil]
    exact hread
  | cons token rest ih =>
    rw [feedAll_cons] at hlast
    obtain ⟨next, hnext, hrest⟩ := bind_eq_ok_iff.mp hlast
    rw [List.append_cons]
    exact ih (hread.feed hnext) hrest

theorem HasRead.floor_eq_zero {reading : Reading} {tokens : List Token}
    (hread : reading.HasRead tokens) : reading.floor = 0 := by
  cases hread
  rfl

/-- A reading that may end has read a passage. -/
theorem HasRead.exists_passage {reading : Reading} {tokens : List Token}
    (hread : reading.HasRead tokens) (hstopped : ¬ reading.builder.stopped)
    (hfinish : reading.finish.2 = .ok ()) : ∃ passage : Passage, passage.tokens = tokens := by
  obtain @⟨builder, phase, written, outer, passage, hdepth, hwritten⟩ := hread
  rw [finish, if_neg hstopped] at hfinish
  cases hwritten with
  | between =>
    simp only at hfinish
    split_ifs at hfinish with hopen
    cases outer with
    | nil => exact ⟨passage, by simp [Passage.opened]⟩
    | cons before outer =>
      rw [hdepth, List.length_cons] at hopen
      omega
  | label label => cases hfinish
  | declaring kind symbols => cases hfinish
  | stating kind label symbols => cases hfinish
  | proving label first rest proof => cases hfinish

end Reading

namespace Builder

theorem depth_truncate_zero (builder : Builder) : (builder.truncate 0).depth = 0 := by
  simp [truncate, depth, Scope.truncate, Scope.depth]

theorem unbounded_start (start : Option Symbol) :
    (Reading.start (new ⟨start, none⟩)).builder.Unbounded :=
  ⟨rfl, Bool.false_ne_true⟩

theorem hasRead_start (start : Option Symbol) : (Reading.start (new ⟨start, none⟩)).HasRead [] :=
  .intro [] .nil rfl .between

/-- Reading accepts exactly the passages, as far as names do not matter. What is read without error
is a passage, the table of labels then consists of its labelled statements, and all blocks are
closed; and the only errors in reading a passage are symbols that the scope refuses and labels that
are defined twice. -/
theorem read_agrees_with_grammar {accept : Check → Except Error Unit}
    (haccept : ∀ check, accept check = .ok ()) (start : Option Symbol) (tokens : List Token) :
    (((new ⟨start, none⟩).read accept (tokens.map .ok)).result = .ok () →
      (∃ passage : Passage, passage.tokens = tokens) ∧
        ((new ⟨start, none⟩).read accept (tokens.map .ok)).builder.depth = 0) ∧
    ∀ passage : Passage, passage.tokens = tokens →
      (((new ⟨start, none⟩).read accept (tokens.map .ok)).result = .ok () →
        ((new ⟨start, none⟩).read accept (tokens.map .ok)).builder.labels.statements =
          passage.statements) ∧
      ∀ error, ((new ⟨start, none⟩).read accept (tokens.map .ok)).result = .error error →
        error.cause.ConcernsNames := by
  obtain ⟨hresult, hbuilder⟩ :=
    Reading.run_eq_feedAll haccept (unbounded_start start) nofun tokens
  rw [read, hresult]
  refine ⟨fun hok => ?_, ?_⟩
  · obtain ⟨last, hlast, hfinish⟩ := bind_eq_ok_iff.mp hok
    obtain ⟨hstopped, hrun⟩ := hbuilder last hlast
    have hread := (hasRead_start start).feedAll hlast
    refine ⟨hread.exists_passage hstopped hfinish, ?_⟩
    rw [hrun, Reading.finish_of_ok hfinish, hread.floor_eq_zero]
    exact depth_truncate_zero _
  · rintro passage rfl
    have hdepth : 0 < (Reading.start (new ⟨start, none⟩)).builder.depth := Nat.one_pos
    have hreads : Reading.Reads (Reading.start (new ⟨start, none⟩)).builder 0 passage.statements
        ((Reading.start (new ⟨start, none⟩)).feedAll passage.tokens) :=
      Reading.reads_passage hdepth passage
    cases hlast : (Reading.start (new ⟨start, none⟩)).feedAll passage.tokens with
    | error error =>
      rw [hlast] at hreads
      refine ⟨nofun, fun other hother => ?_⟩
      cases hother
      exact hreads
    | ok last =>
      obtain ⟨hstopped, hrun⟩ := hbuilder last hlast
      rw [hlast] at hreads
      obtain ⟨result, rfl, hclosed, hstatements⟩ := hreads
      have hfinish : Reading.finish ⟨result, 0, .outer none⟩ = (result.truncate 0, .ok ()) :=
        Reading.finish_of_closed hstopped (Nat.le_of_eq hclosed)
      refine ⟨fun _ => ?_, fun error herror => ?_⟩
      · rw [hrun, hfinish]
        exact hstatements
      · cases (congrArg Prod.snd hfinish).symm.trans herror

/-- A block with a variable of its own, and a theorem after it. -/
def nestedPassage : Passage :=
  .clause (.declaration .constants [⟨"wff", by decide⟩])
    (.block
      (.clause (.declaration .vars [⟨"ph", by decide⟩])
        (.clause (.floating ⟨"wph", by decide⟩ ⟨"wff", by decide⟩ ⟨"ph", by decide⟩) .nil))
      (.clause (.provable ⟨"th", by decide⟩ ⟨"wff", by decide⟩ [] []) .nil))

theorem read_agrees_with_grammar_nestedPassage :
    ((new ⟨none, none⟩).read (fun _ => .ok ()) (nestedPassage.tokens.map .ok)).result = .ok () ∧
      ((new ⟨none, none⟩).read (fun _ => .ok ())
        (nestedPassage.tokens.map .ok)).builder.labels.statements =
        [("wph", .floating, ["wff", "ph"]), ("th", .provable, ["wff"])] := by
  have hok : ((new ⟨none, none⟩).read (fun _ => .ok ())
      (nestedPassage.tokens.map .ok)).result = .ok () := by decide +kernel
  have hgrammar := read_agrees_with_grammar (fun _ => rfl) none nestedPassage.tokens
  exact ⟨hok, (hgrammar.2 nestedPassage rfl).1 hok⟩

end Builder

end Database

end Metamath
