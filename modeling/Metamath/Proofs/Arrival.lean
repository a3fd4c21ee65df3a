import Metamath.Proofs.Grammar

/-!
# How far a reading gets

A run takes tokens until something ends it: the input is used up, a label to stop at was read, an
item is faulty, a token is refused, or a check is. Here a run is divided at the place where it ends,
into the tokens that lead there and the ending itself. Whatever is said about a place in the input,
such as which words are read as labels or how many blocks are open, is said about the tokens that
lead to it.

What a single accepted token does depends on the part of the statement that it stands in. All cases
are listed once, with what has to hold in each of them, so that a property of places is shown by
going through the list and then along the tokens.
-/

namespace Metamath.Database

/-! ### Accepted tokens -/

/-- What an accepted token does: the part of a statement that it is read in, the check that it gives
out, and what it makes of the builder and of the part of the statement. -/
inductive Builder.Accepts (builder : Builder) :
    Phase → Token → Option Check → Builder → Phase → Prop where
  | label {label : Symbol} (hword : ¬ startsWithDollar label)
      (hnew : ¬ builder.labels.contains label) :
      Accepts builder (.outer none) (.word label) none (builder.noteLabel label)
        (.outer (some label))
  | enter : Accepts builder (.outer none) (.keyword .blockOpen) none
      { builder with scope := builder.scope.push } (.outer none)
  | leave {scope : Scope} (hdepth : 1 < builder.depth) (hpop : builder.scope.pop = .ok scope) :
      Accepts builder (.outer none) (.keyword .blockClose) none { builder with scope }
        (.outer none)
  | declaration (kind : Declaration) :
      Accepts builder (.outer none) (.keyword (.statement (.declaration kind))) none builder
        (.declaring kind [])
  | labelled (kind : Labelled) (label : Symbol) :
      Accepts builder (.outer (some label)) (.keyword (.statement (.labelled kind))) none builder
        (.stating kind label [])
  | declaringWord {kind : Declaration} {words : List Symbol} (word : Word) :
      Accepts builder (.declaring kind words) (.word word.text) none builder
        (.declaring kind (word.text :: words))
  | statingWord {kind : Labelled} {label : Symbol} {words : List Symbol} (word : Word) :
      Accepts builder (.stating kind label words) (.word word.text) none builder
        (.stating kind label (word.text :: words))
  | provingWord {label : Symbol} {statement : Statement} {proof : List Symbol} (word : Word) :
      Accepts builder (.proving label statement proof) (.word word.text) none builder
        (.proving label statement (word.text :: proof))
  | declare {kind : Declaration} {words : List Symbol} {result : Builder}
      (hdeclare : builder.declare kind words.reverse = (result, none)) :
      Accepts builder (.declaring kind words) (.keyword .terminator) none result (.outer none)
  | floating {label : Symbol} {words : List Symbol} {result : Builder}
      (hadd : builder.addFloating label words.reverse = .ok result) :
      Accepts builder (.stating .floating label words) (.keyword .terminator) none result
        (.outer none)
  | essential {label : Symbol} {words : List Symbol} {result : Builder}
      (hadd : builder.addEssential label words.reverse = .ok result) :
      Accepts builder (.stating .essential label words) (.keyword .terminator) none result
        (.outer none)
  | axiomatic {label : Symbol} {words : List Symbol} {result : Builder}
      (hadd : builder.addAxiomatic label words.reverse = .ok result) :
      Accepts builder (.stating .axiomatic label words) (.keyword .terminator) none result
        (.outer none)
  | statement {label : Symbol} {words : List Symbol}
      (hchecked : builder.checkStatement words.reverse = .ok ()) :
      Accepts builder (.stating .provable label words) (.keyword .proofStart) none builder
        (.proving label words.reverse [])
  | provable {label : Symbol} {statement : Statement} {proof : List Symbol} {result : Builder}
      {check : Option Check}
      (hadd : builder.addProvable label statement proof.reverse = .ok (result, check)) :
      Accepts builder (.proving label statement proof) (.keyword .terminator) check result
        (.outer none)

/-- If the progress accepts the token, it does so in one of the ways that there are, above the same
blocks. -/
def Progress.Accepted (reading : Reading) (token : Token) : Progress → Prop
  | .more next =>
    reading.builder.Accepts reading.phase token none next.builder next.phase ∧
      next.floor = reading.floor
  | .check given next =>
    reading.builder.Accepts reading.phase token (some given) next.builder next.phase ∧
      next.floor = reading.floor
  | .refused _ _ => True

namespace Reading

variable {builder : Builder} {floor : Nat} {phase : Phase} {token : Token}

theorem accepted_complete {outcome : Except Cause Builder}
    (haccepts : ∀ result, outcome = .ok result →
      builder.Accepts phase token none result (.outer none)) :
    (complete ⟨builder, floor, phase⟩ outcome).Accepted ⟨builder, floor, phase⟩ token := by
  cases outcome with
  | error cause => trivial
  | ok result => exact ⟨haccepts result rfl, rfl⟩

theorem accepted_blockClose :
    (feedBlock ⟨builder, floor, .outer none⟩ none false).Accepted ⟨builder, floor, .outer none⟩
      (.keyword .blockClose) := by
  simp only [feedBlock, Bool.false_eq_true, if_false]
  split_ifs with houtermost
  · trivial
  · apply accepted_complete
    intro result hresult
    obtain ⟨scope, hscope, rfl⟩ := map_eq_ok_iff.mp hresult
    cases hpop : builder.scope.pop with
    | error error =>
      rw [hpop] at hscope
      cases hscope
    | ok popped =>
      rw [hpop] at hscope
      cases hscope
      exact .leave (Nat.not_le.mp houtermost) hpop

theorem accepted_feedOuter (pending : Option Symbol) (token : Token) :
    (feedOuter ⟨builder, floor, .outer pending⟩ pending token).Accepted
      ⟨builder, floor, .outer pending⟩ token := by
  cases token with
  | word text =>
    rw [feedOuter]
    split_ifs with hdollar
    · trivial
    · cases pending with
      | some earlier => trivial
      | none =>
        rw [feedLabel]
        split_ifs with hdefined
        · trivial
        · exact ⟨.label hdollar hdefined, rfl⟩
  | keyword keyword =>
    cases keyword with
    | statement kind =>
      cases kind with
      | declaration kind =>
        cases pending with
        | some label => trivial
        | none => exact ⟨.declaration kind, rfl⟩
      | labelled kind =>
        cases pending with
        | some label => exact ⟨.labelled kind label, rfl⟩
        | none => trivial
    | blockOpen =>
      cases pending with
      | some label => trivial
      | none => exact ⟨.enter, rfl⟩
    | blockClose =>
      cases pending with
      | some label => trivial
      | none => exact accepted_blockClose
    | _ => trivial

theorem accepted_finishDeclaration (kind : Declaration) (words : List Symbol) :
    (finishDeclaration ⟨builder, floor, .declaring kind words⟩ kind words.reverse).Accepted
      ⟨builder, floor, .declaring kind words⟩ (.keyword .terminator) := by
  rw [finishDeclaration]
  split
  · rename_i result hdeclare
    exact ⟨.declare hdeclare, rfl⟩
  · trivial

theorem accepted_finishStatement (kind : Labelled) (label : Symbol) (words : List Symbol) :
    (finishStatement ⟨builder, floor, .stating kind label words⟩ kind label words.reverse).Accepted
      ⟨builder, floor, .stating kind label words⟩ (.keyword (stopKeyword kind)) := by
  cases kind with
  | floating => exact accepted_complete fun result hadd => .floating hadd
  | essential => exact accepted_complete fun result hadd => .essential hadd
  | axiomatic => exact accepted_complete fun result hadd => .axiomatic hadd
  | provable =>
    rw [finishStatement]
    split
    · rename_i hchecked
      exact ⟨.statement hchecked, rfl⟩
    · trivial

theorem accepted_finishProof (label : Symbol) (statement : Statement) (proof : List Symbol) :
    (finishProof ⟨builder, floor, .proving label statement proof⟩ label statement
      proof.reverse).Accepted ⟨builder, floor, .proving label statement proof⟩
        (.keyword .terminator) := by
  rw [finishProof]
  split
  · rename_i result hadd
    exact ⟨.provable hadd, rfl⟩
  · rename_i result check hadd
    exact ⟨.provable hadd, rfl⟩
  · trivial

/-- Every way in which a token can be accepted. -/
theorem feed_accepted (reading : Reading) (token : Token) :
    (reading.feed token).Accepted reading token := by
  obtain ⟨builder, floor, phase⟩ := reading
  cases phase with
  | outer pending => exact accepted_feedOuter pending token
  | declaring kind words =>
    simp only [feed]
    split
    · rename_i text hmember
      obtain ⟨word, rfl, rfl⟩ := exists_of_ofToken_eq_word hmember
      exact ⟨.declaringWord word, rfl⟩
    · rename_i hmember
      cases eq_keyword_of_ofToken_eq_stop hmember
      exact accepted_finishDeclaration kind words
    · trivial
  | stating kind label words =>
    simp only [feed]
    split
    · rename_i text hmember
      obtain ⟨word, rfl, rfl⟩ := exists_of_ofToken_eq_word hmember
      exact ⟨.statingWord word, rfl⟩
    · rename_i hmember
      cases eq_keyword_of_ofToken_eq_stop hmember
      exact accepted_finishStatement kind label words
    · trivial
  | proving label statement proof =>
    simp only [feed]
    split
    · rename_i text hmember
      obtain ⟨word, rfl, rfl⟩ := exists_of_ofToken_eq_word hmember
      exact ⟨.provingWord word, rfl⟩
    · rename_i hmember
      cases eq_keyword_of_ofToken_eq_stop hmember
      exact accepted_finishProof label statement proof
    · trivial

end Reading

/-! ### Runs -/

/-- The outcome, with checks that were given out earlier. -/
def Outcome.after (checks : List Check) (outcome : Outcome) : Outcome :=
  { outcome with checks := checks ++ outcome.checks }

theorem Outcome.after_append (first second : List Check) (outcome : Outcome) :
    outcome.after (first ++ second) = (outcome.after second).after first := by
  rw [after, after, after, List.append_assoc]

namespace Reading

/-- A token is accepted, and so is the check that it gives out, if any. -/
inductive Passes (accept : Check → Except Error Unit) (reading : Reading) (token : Token) :
    Option Check → Reading → Prop where
  | more {next : Reading} (hfeed : reading.feed token = .more next) :
      Passes accept reading token none next
  | check {given : Check} {next : Reading} (hfeed : reading.feed token = .check given next)
      (haccept : accept given = .ok ()) : Passes accept reading token (some given) next

/-- The tokens lead from one reading to another and give out the checks on the way. -/
inductive Arrives (accept : Check → Except Error Unit) :
    Reading → List Token → List Check → Reading → Prop where
  | here {reading : Reading} : Arrives accept reading [] [] reading
  | pass {reading next last : Reading} {token : Token} {tokens : List Token}
      {given : Option Check} {checks : List Check} (hstopped : ¬ reading.builder.stopped)
      (hpasses : reading.Passes accept token given next)
      (harrives : Arrives accept next tokens checks last) :
      Arrives accept reading (token :: tokens) (given.toList ++ checks) last

/-- A run takes none of the items any more and ends with the given outcome. -/
inductive Ends (accept : Check → Except Error Unit) (reading : Reading) :
    List (Except Inclusion.Error Token) → Outcome → Prop where
  | finish {items : List (Except Inclusion.Error Token)}
      (hend : items = [] ∨ reading.builder.stopped) :
      Ends accept reading items ⟨reading.finish.1, [], reading.finish.2⟩
  | fault {error : Inclusion.Error} {rest : List (Except Inclusion.Error Token)}
      (hstopped : ¬ reading.builder.stopped) :
      Ends accept reading (.error error :: rest)
        ⟨reading.builder, [], .error ⟨reading.phase.place?, .inclusion error⟩⟩
  | refused {token : Token} {error : Error} {builder : Builder}
      {rest : List (Except Inclusion.Error Token)} (hstopped : ¬ reading.builder.stopped)
      (hfeed : reading.feed token = .refused error builder) :
      Ends accept reading (.ok token :: rest) ⟨builder, [], .error error⟩
  | rejected {token : Token} {check : Check} {next : Reading} {error : Error}
      {rest : List (Except Inclusion.Error Token)} (hstopped : ¬ reading.builder.stopped)
      (hfeed : reading.feed token = .check check next) (haccept : accept check = .error error) :
      Ends accept reading (.ok token :: rest) ⟨next.builder, [check], .error error⟩

variable {accept : Check → Except Error Unit} {reading next middle last : Reading} {token : Token}
  {tokens more : List Token} {given : Option Check} {checks others : List Check}
  {items rest : List (Except Inclusion.Error Token)} {outcome : Outcome}

theorem Passes.run_cons (hpasses : reading.Passes accept token given next)
    (hstopped : ¬ reading.builder.stopped) (rest : List (Except Inclusion.Error Token)) :
    reading.run accept (.ok token :: rest) = (next.run accept rest).after given.toList := by
  cases hpasses with
  | more hfeed => exact run_cons_of_more hstopped hfeed
  | check hfeed haccept => exact run_cons_of_accepted hstopped hfeed haccept

theorem Arrives.run_append (harrives : Arrives accept reading tokens checks last)
    (rest : List (Except Inclusion.Error Token)) :
    reading.run accept (tokens.map .ok ++ rest) = (last.run accept rest).after checks := by
  induction harrives with
  | here => rfl
  | pass hstopped hpasses _ ih =>
    rw [List.map_cons, List.cons_append, hpasses.run_cons hstopped, ih, Outcome.after_append]

theorem Ends.run_eq (hends : reading.Ends accept items outcome) :
    reading.run accept items = outcome := by
  cases hends with
  | finish hend =>
    rcases hend with rfl | hstopped
    · rfl
    · exact run_of_stopped hstopped
  | fault hstopped => exact run_cons_error hstopped
  | refused hstopped hfeed => exact run_cons_of_refused hstopped hfeed
  | rejected hstopped hfeed haccept => exact run_cons_of_rejected hstopped hfeed haccept

theorem Arrives.run_eq (harrives : Arrives accept reading tokens checks last)
    (hends : last.Ends accept rest outcome) :
    reading.run accept (tokens.map .ok ++ rest) = outcome.after checks := by
  rw [harrives.run_append, hends.run_eq]

/-- Every run takes some tokens and then ends. -/
theorem exists_arrives_ends (accept : Check → Except Error Unit) (reading : Reading)
    (items : List (Except Inclusion.Error Token)) :
    ∃ tokens rest checks last outcome, items = tokens.map .ok ++ rest ∧
      Arrives accept reading tokens checks last ∧ last.Ends accept rest outcome := by
  induction items generalizing reading with
  | nil => exact ⟨[], [], [], reading, _, rfl, .here, .finish (.inl rfl)⟩
  | cons item rest ih =>
    by_cases hstopped : reading.builder.stopped
    · exact ⟨[], _, [], reading, _, rfl, .here, .finish (.inr hstopped)⟩
    · cases item with
      | error error => exact ⟨[], _, [], reading, _, rfl, .here, .fault hstopped⟩
      | ok token =>
        cases hfeed : reading.feed token with
        | refused error builder =>
          exact ⟨[], _, [], reading, _, rfl, .here, .refused hstopped hfeed⟩
        | more next =>
          obtain ⟨tokens, rest, checks, last, outcome, rfl, harrives, hends⟩ := ih next
          exact ⟨token :: tokens, rest, _, last, outcome, rfl,
            .pass hstopped (.more hfeed) harrives, hends⟩
        | check given next =>
          cases haccept : accept given with
          | error error =>
            exact ⟨[], _, [], reading, _, rfl, .here, .rejected hstopped hfeed haccept⟩
          | ok accepted =>
            obtain ⟨tokens, rest, checks, last, outcome, rfl, harrives, hends⟩ := ih next
            exact ⟨token :: tokens, rest, _, last, outcome, rfl,
              .pass hstopped (.check hfeed haccept) harrives, hends⟩

/-- A run that ends well has taken all items, or those up to a label to stop at. -/
theorem exists_arrives_of_result_ok (hresult : (reading.run accept items).result = .ok ()) :
    ∃ tokens rest checks last, items = tokens.map .ok ++ rest ∧
      Arrives accept reading tokens checks last ∧ (rest = [] ∨ last.builder.stopped) ∧
      last.finish.2 = .ok () ∧ (reading.run accept items).builder = last.finish.1 := by
  obtain ⟨tokens, rest, checks, last, outcome, rfl, harrives, hends⟩ :=
    exists_arrives_ends accept reading items
  rw [harrives.run_eq hends] at hresult ⊢
  cases hends with
  | finish hend => exact ⟨tokens, rest, checks, last, rfl, harrives, hend, hresult, rfl⟩
  | fault => cases hresult
  | refused => cases hresult
  | rejected => cases hresult

theorem Arrives.append (hfirst : Arrives accept reading tokens checks middle)
    (hsecond : Arrives accept middle more others last) :
    Arrives accept reading (tokens ++ more) (checks ++ others) last := by
  induction hfirst with
  | here => exact hsecond
  | pass hstopped hpasses _ ih =>
    rw [List.append_assoc]
    exact .pass hstopped hpasses (ih hsecond)

theorem Arrives.exists_middle (harrives : Arrives accept reading (tokens ++ more) checks last) :
    ∃ early middle late, Arrives accept reading tokens early middle ∧
      Arrives accept middle more late last := by
  induction tokens generalizing reading checks with
  | nil => exact ⟨[], reading, checks, .here, harrives⟩
  | cons token tokens ih =>
    cases harrives with
    | pass hstopped hpasses harrives =>
      obtain ⟨early, middle, late, hearly, hlate⟩ := ih harrives
      exact ⟨_, middle, late, .pass hstopped hpasses hearly, hlate⟩

/-! ### What stays on the way -/

theorem Passes.accepts (hpasses : reading.Passes accept token given next) :
    reading.builder.Accepts reading.phase token given next.builder next.phase ∧
      next.floor = reading.floor := by
  have haccepted := reading.feed_accepted token
  cases hpasses with
  | more hfeed =>
    rw [hfeed] at haccepted
    exact haccepted
  | check hfeed _ =>
    rw [hfeed] at haccepted
    exact haccepted

theorem Arrives.floor_eq (harrives : Arrives accept reading tokens checks last) :
    last.floor = reading.floor := by
  induction harrives with
  | here => rfl
  | pass _ hpasses _ ih => exact ih.trans hpasses.accepts.2

theorem Passes.step (hpasses : reading.Passes accept token given next)
    (hchecked : reading.Checked) : reading.builder.Step given next.builder ∧ next.Checked := by
  have hfollows := feed_follows hchecked token
  cases hpasses with
  | more hfeed =>
    rw [hfeed] at hfollows
    exact hfollows
  | check hfeed _ =>
    rw [hfeed] at hfollows
    exact hfollows

/-- Where every check is accepted, a token that does not end the reading passes. -/
theorem exists_passes_of_next (haccept : ∀ check, accept check = .ok ())
    (hnext : (reading.feed token).next = .ok next) :
    ∃ given, reading.Passes accept token given next := by
  cases hfeed : reading.feed token with
  | more following =>
    rw [hfeed] at hnext
    cases hnext
    exact ⟨none, .more hfeed⟩
  | check given following =>
    rw [hfeed] at hnext
    cases hnext
    exact ⟨some given, .check hfeed (haccept given)⟩
  | refused error builder =>
    rw [hfeed] at hnext
    cases hnext

theorem checked_start (builder : Builder) : (start builder).Checked := by
  intro label statement proof hphase
  cases hphase

theorem Arrives.checked (harrives : Arrives accept reading tokens checks last)
    (hchecked : reading.Checked) : last.Checked := by
  induction harrives with
  | here => exact hchecked
  | pass _ hpasses _ ih => exact ih (hpasses.step hchecked).2

/-- All checks that were given out on the way were accepted. -/
theorem Arrives.accepted (harrives : Arrives accept reading tokens checks last) :
    ∀ check ∈ checks, accept check = .ok () := by
  induction harrives with
  | here => exact List.forall_mem_nil _
  | pass _ hpasses _ ih =>
    cases hpasses with
    | more hfeed => exact ih
    | check hfeed haccept => exact List.forall_mem_cons.mpr ⟨haccept, ih⟩

/-- What every step preserves holds where the tokens lead to. -/
theorem Arrives.invariant {P : Builder → Prop}
    (hstep : ∀ builder check result, P builder → builder.Step check result → P result)
    (harrives : Arrives accept reading tokens checks last) (hchecked : reading.Checked)
    (hbuilder : P reading.builder) : P last.builder := by
  induction harrives with
  | here => exact hbuilder
  | pass _ hpasses _ ih =>
    obtain ⟨hmove, hnext⟩ := hpasses.step hchecked
    exact ih hnext (hstep _ _ _ hbuilder hmove)

theorem Arrives.verifying (harrives : Arrives accept reading tokens checks last)
    (hchecked : reading.Checked) (hverifying : reading.builder.verifying) :
    last.builder.verifying :=
  harrives.invariant (fun _ _ _ hbuilder hstep => hstep.grows.verifying hbuilder) hchecked
    hverifying

end Reading

end Metamath.Database
