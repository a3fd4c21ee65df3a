import Metamath.Database.Reading
import Metamath.Proofs.Scope

/-!
# What reading does to a builder

However tokens are put together to statements, each of them does one of few things to the builder:
mostly nothing, or it opens or closes a block, or it completes one statement. This module says what
these are, so that nothing else has to follow a reading from phase to phase. What all of them
preserve holds of the builder when a read has ended.

The first property of this kind is that a builder is valid: the scope agrees with the table of
labels, and the assertions in the table are well typed.
-/

namespace Metamath.Database

/-- What a token can do to a builder. The check is the one that the token gives out. -/
inductive Builder.Step (builder : Builder) : Option Check → Builder → Prop where
  | idle : Step builder none builder
  | note (label : Symbol) : Step builder none (builder.noteLabel label)
  | enter : Step builder none { builder with scope := builder.scope.push }
  | leave {scope : Scope} (hpop : builder.scope.pop = .ok scope) :
      Step builder none { builder with scope }
  | declare (declaration : Declaration) (symbols : List Symbol) :
      Step builder none (builder.declare declaration symbols).1
  | floating {label : Symbol} {statement : Statement} {result : Builder}
      (hadd : builder.addFloating label statement = .ok result) : Step builder none result
  | essential {label : Symbol} {statement : Statement} {result : Builder}
      (hadd : builder.addEssential label statement = .ok result) : Step builder none result
  | axiomatic {label : Symbol} {statement : Statement} {result : Builder}
      (hadd : builder.addAxiomatic label statement = .ok result) : Step builder none result
  | provable {label : Symbol} {statement : Statement} {proof : List Symbol} {result : Builder}
      {check : Option Check} (hchecked : builder.checkStatement statement = .ok ())
      (hadd : builder.addProvable label statement proof = .ok (result, check)) :
      Step builder check result

/-- The statement whose proof is being read has been checked. -/
def Reading.Checked (reading : Reading) : Prop :=
  ∀ label statement proof, reading.phase = .proving label statement proof →
    reading.builder.checkStatement statement = .ok ()

/-- The progress comes from a step of the given builder, also if the token is refused. -/
def Progress.Follows (builder : Builder) : Progress → Prop
  | .more next => builder.Step none next.builder ∧ next.Checked
  | .check given next => builder.Step (some given) next.builder ∧ next.Checked
  | .refused _ result => builder.Step none result

namespace Reading

variable {reading : Reading}

theorem refuse_follows (cause : Cause) : (reading.refuse cause).Follows reading.builder :=
  Builder.Step.idle

theorem complete_follows {outcome : Except Cause Builder}
    (hstep : ∀ result, outcome = .ok result → reading.builder.Step none result) :
    (reading.complete outcome).Follows reading.builder := by
  cases outcome with
  | error cause => exact refuse_follows cause
  | ok result => exact ⟨hstep result rfl, nofun⟩

theorem feedLabel_follows (pending : Option Symbol) (label : Symbol) :
    (reading.feedLabel pending label).Follows reading.builder := by
  cases pending with
  | some earlier => exact refuse_follows _
  | none =>
    rw [feedLabel]
    split
    · exact refuse_follows _
    · exact ⟨.note label, nofun⟩

theorem feedKind_follows (pending : Option Symbol) (kind : Kind) :
    (reading.feedKind pending kind).Follows reading.builder := by
  rw [feedKind.eq_def]
  split
  · exact ⟨.idle, nofun⟩
  · exact refuse_follows _
  · exact ⟨.idle, nofun⟩
  · exact refuse_follows _

theorem feedBlock_follows (pending : Option Symbol) (opens : Bool) :
    (reading.feedBlock pending opens).Follows reading.builder := by
  cases pending with
  | some label => exact refuse_follows _
  | none =>
    rw [feedBlock]
    split_ifs
    · refine complete_follows fun result hresult => ?_
      cases hresult
      exact .enter
    · exact refuse_follows _
    · refine complete_follows fun result hresult => ?_
      obtain ⟨scope, hscope, rfl⟩ := map_eq_ok_iff.mp hresult
      cases hpop : reading.builder.scope.pop with
      | error error =>
        rw [hpop] at hscope
        cases hscope
      | ok popped =>
        rw [hpop] at hscope
        cases hscope
        exact .leave hpop

theorem feedOuter_follows (pending : Option Symbol) (token : Token) :
    (reading.feedOuter pending token).Follows reading.builder := by
  rw [feedOuter.eq_def]
  split
  · split_ifs
    · exact refuse_follows _
    · exact feedLabel_follows _ _
  · exact feedKind_follows _ _
  · exact feedBlock_follows _ _
  · exact feedBlock_follows _ _
  · exact refuse_follows _

theorem finishDeclaration_follows (declaration : Declaration) (symbols : List Symbol) :
    (reading.finishDeclaration declaration symbols).Follows reading.builder := by
  have hstep : reading.builder.Step none (reading.builder.declare declaration symbols).1 :=
    .declare declaration symbols
  rw [finishDeclaration]
  split
  · rename_i builder hdeclare
    rw [hdeclare] at hstep
    exact ⟨hstep, nofun⟩
  · rename_i builder error hdeclare
    rw [hdeclare] at hstep
    exact hstep

theorem finishStatement_follows (kind : Labelled) (label : Symbol) (statement : Statement) :
    (reading.finishStatement kind label statement).Follows reading.builder := by
  cases kind with
  | floating => exact complete_follows fun result hadd => .floating hadd
  | essential => exact complete_follows fun result hadd => .essential hadd
  | axiomatic => exact complete_follows fun result hadd => .axiomatic hadd
  | provable =>
    rw [finishStatement]
    split
    · rename_i hchecked
      refine ⟨.idle, fun other found proof hphase => ?_⟩
      cases hphase
      exact hchecked
    · exact refuse_follows _

theorem finishProof_follows {label : Symbol} {statement : Statement} {proof : List Symbol}
    (hchecked : reading.builder.checkStatement statement = .ok ()) :
    (reading.finishProof label statement proof).Follows reading.builder := by
  rw [finishProof]
  split
  · rename_i builder hadd
    exact ⟨.provable hchecked hadd, nofun⟩
  · rename_i builder check hadd
    exact ⟨.provable hchecked hadd, nofun⟩
  · exact refuse_follows _

theorem feed_follows (hchecked : reading.Checked) (token : Token) :
    (reading.feed token).Follows reading.builder := by
  rw [feed]
  cases hphase : reading.phase with
  | outer pending => exact feedOuter_follows pending token
  | declaring declaration words =>
    simp only
    split
    · exact ⟨.idle, nofun⟩
    · exact finishDeclaration_follows _ _
    · exact refuse_follows _
  | stating kind label words =>
    simp only
    split
    · exact ⟨.idle, nofun⟩
    · exact finishStatement_follows _ _ _
    · exact refuse_follows _
  | proving label statement proof =>
    have hstatement := hchecked label statement proof hphase
    simp only
    split
    · refine ⟨.idle, fun other found words hwords => ?_⟩
      cases hwords
      exact hstatement
    · exact finishProof_follows hstatement
    · exact refuse_follows _

/-- The end of a read closes blocks at most. -/
theorem finish_fst (reading : Reading) :
    reading.finish.1 = reading.builder ∨
      reading.finish.1 = reading.builder.truncate reading.floor := by
  rw [finish]
  by_cases hstopped : reading.builder.stopped
  · rw [if_pos hstopped]
    exact .inr rfl
  · rw [if_neg hstopped]
    split
    · exact .inl rfl
    · by_cases hopen : reading.builder.depth > reading.floor + 1
      · rw [if_pos hopen]
        exact .inl rfl
      · rw [if_neg hopen]
        exact .inr rfl
    · exact .inl rfl

theorem labels_finish (reading : Reading) :
    reading.finish.1.labels = reading.builder.labels := by
  rcases reading.finish_fst with hfinish | hfinish
  · rw [hfinish]
  · rw [hfinish]
    rfl

/-- A reading that ends well closes the blocks it opened. -/
theorem finish_of_ok (hfinish : reading.finish.2 = .ok ()) :
    reading.finish.1 = reading.builder.truncate reading.floor := by
  rw [finish] at hfinish ⊢
  by_cases hstopped : reading.builder.stopped
  · rw [if_pos hstopped]
  · rw [if_neg hstopped] at hfinish ⊢
    cases hphase : reading.phase with
    | outer pending =>
      rw [hphase] at hfinish
      cases pending with
      | some label => cases hfinish
      | none =>
        simp only at hfinish ⊢
        split_ifs at hfinish ⊢
        rfl
    | declaring => simp [hphase] at hfinish
    | stating => simp [hphase] at hfinish
    | proving => simp [hphase] at hfinish

section

variable {accept : Check → Except Error Unit} {items rest : List (Except Inclusion.Error Token)}
  {token : Token}

theorem run_of_stopped (hstopped : reading.builder.stopped) :
    reading.run accept items = ⟨reading.finish.1, [], reading.finish.2⟩ := by
  cases items with
  | nil => rfl
  | cons item rest =>
    rw [run.eq_def]
    exact if_pos hstopped

theorem run_cons_error {error : Inclusion.Error} (hstopped : ¬ reading.builder.stopped) :
    reading.run accept (.error error :: rest) =
      ⟨reading.builder, [], .error ⟨reading.phase.place?, .inclusion error⟩⟩ := by
  rw [run.eq_def]
  exact if_neg hstopped

theorem run_cons_of_refused {error : Error} {builder : Builder}
    (hstopped : ¬ reading.builder.stopped) (hfeed : reading.feed token = .refused error builder) :
    reading.run accept (.ok token :: rest) = ⟨builder, [], .error error⟩ := by
  rw [run.eq_def]
  simp only [if_neg hstopped, hfeed]

theorem run_cons_of_more {next : Reading} (hstopped : ¬ reading.builder.stopped)
    (hfeed : reading.feed token = .more next) :
    reading.run accept (.ok token :: rest) = next.run accept rest := by
  rw [run.eq_def]
  simp only [if_neg hstopped, hfeed]

theorem run_cons_of_rejected {check : Check} {next : Reading} {error : Error}
    (hstopped : ¬ reading.builder.stopped) (hfeed : reading.feed token = .check check next)
    (haccept : accept check = .error error) :
    reading.run accept (.ok token :: rest) = ⟨next.builder, [check], .error error⟩ := by
  rw [run.eq_def]
  simp only [if_neg hstopped, hfeed, haccept]

theorem run_cons_of_accepted {check : Check} {next : Reading}
    (hstopped : ¬ reading.builder.stopped) (hfeed : reading.feed token = .check check next)
    (haccept : accept check = .ok ()) :
    reading.run accept (.ok token :: rest) =
      ⟨(next.run accept rest).builder, check :: (next.run accept rest).checks,
        (next.run accept rest).result⟩ := by
  rw [run.eq_def]
  simp only [if_neg hstopped, hfeed, haccept]

end

/-- What every accepted step preserves, and also closing blocks, holds after a successful run. -/
theorem run_induction {accept : Check → Except Error Unit} {P : Builder → Prop}
    (hstep : ∀ builder check result, P builder → builder.Step check result →
      (∀ given, check = some given → accept given = .ok ()) → P result)
    (htruncate : ∀ builder depth, P builder → P (builder.truncate depth))
    {tokens : List (Except Inclusion.Error Token)} (hchecked : reading.Checked)
    (hbuilder : P reading.builder) (hresult : (reading.run accept tokens).result = .ok ()) :
    P (reading.run accept tokens).builder := by
  have hfinish : ∀ reading : Reading, P reading.builder → reading.finish.2 = .ok () →
      P reading.finish.1 := by
    intro reading hbuilder hok
    rw [finish_of_ok hok]
    exact htruncate _ _ hbuilder
  -- a reading that has stopped leaves the remaining tokens alone, as one at their end does
  induction tokens generalizing reading with
  | nil => exact hfinish reading hbuilder hresult
  | cons item rest ih =>
    by_cases hstopped : reading.builder.stopped
    · rw [run_of_stopped hstopped] at hresult ⊢
      exact hfinish reading hbuilder hresult
    · cases item with
      | error error =>
        rw [run_cons_error hstopped] at hresult
        cases hresult
      | ok token =>
        have hfollows := feed_follows hchecked token
        cases hfeed : reading.feed token with
        | refused error builder =>
          rw [run_cons_of_refused hstopped hfeed] at hresult
          cases hresult
        | more next =>
          rw [hfeed] at hfollows
          rw [run_cons_of_more hstopped hfeed] at hresult ⊢
          exact ih hfollows.2 (hstep _ _ _ hbuilder hfollows.1 nofun) hresult
        | check given next =>
          rw [hfeed] at hfollows
          cases haccept : accept given with
          | error error =>
            rw [run_cons_of_rejected hstopped hfeed haccept] at hresult
            cases hresult
          | ok accepted =>
            rw [run_cons_of_accepted hstopped hfeed haccept] at hresult ⊢
            refine ih hfollows.2 (hstep _ _ _ hbuilder hfollows.1 fun other hother => ?_) hresult
            cases hother
            exact haccept

end Reading

theorem Builder.read_induction {accept : Check → Except Error Unit} {P : Builder → Prop}
    (hstep : ∀ builder check result, P builder → builder.Step check result →
      (∀ given, check = some given → accept given = .ok ()) → P result)
    (htruncate : ∀ builder depth, P builder → P (builder.truncate depth))
    {tokens : List (Except Inclusion.Error Token)} {builder : Builder} (hbuilder : P builder)
    (hresult : (builder.read accept tokens).result = .ok ()) :
    P (builder.read accept tokens).builder :=
  Reading.run_induction hstep htruncate nofun (hstep _ _ _ hbuilder .enter nofun) hresult

namespace Builder

variable {builder result : Builder} {label : Symbol} {statement : Statement} {entry : Entry}
  {check : Option Check}

/-! ### What the operations do -/

theorem define_eq_ok_iff :
    builder.define label entry = .ok result ↔ ∃ larger,
      builder.labels.insert? label entry = some larger ∧
        result = { builder with labels := larger } := by
  rw [define]
  cases builder.labels.insert? label entry with
  | none => simp
  | some larger => simp [eq_comm]

theorem exists_of_addFloating (hadd : builder.addFloating label statement = .ok result) :
    ∃ typing scope larger, builder.scope.addFloating typing label = .ok scope ∧
      builder.labels.insert? label (.floating typing.statement) = some larger ∧
      result = { builder with scope, labels := larger } := by
  rw [addFloating.eq_def] at hadd
  split at hadd
  · rename_i typecode v
    cases hscope : builder.scope.addFloating ⟨typecode, v⟩ label with
    | error error => simp [hscope] at hadd
    | ok scope =>
      simp only [hscope] at hadd
      obtain ⟨larger, hinsert, rfl⟩ := define_eq_ok_iff.mp hadd
      exact ⟨⟨typecode, v⟩, scope, larger, hscope, hinsert, rfl⟩
  · cases hadd

theorem exists_of_addEssential (hadd : builder.addEssential label statement = .ok result) :
    builder.checkStatement statement = .ok () ∧ ∃ scope larger,
      builder.scope.addEssential statement label = .ok scope ∧
      builder.labels.insert? label (.essential statement) = some larger ∧
      result = { builder with scope, labels := larger } := by
  obtain ⟨⟨⟩, hchecked, hrest⟩ := bind_eq_ok_iff.mp hadd
  refine ⟨hchecked, ?_⟩
  cases hscope : builder.scope.addEssential statement label with
  | error error => simp [hscope] at hrest
  | ok scope =>
    simp only [hscope] at hrest
    obtain ⟨larger, hinsert, rfl⟩ := define_eq_ok_iff.mp hrest
    exact ⟨scope, larger, rfl, hinsert, rfl⟩

theorem exists_of_addAxiomatic (hadd : builder.addAxiomatic label statement = .ok result) :
    builder.checkStatement statement = .ok () ∧ ∃ larger,
      builder.labels.insert? label (.axiomatic (builder.scope.assertion statement)) =
        some larger ∧
      result = { builder with labels := larger } := by
  obtain ⟨⟨⟩, hchecked, hrest⟩ := bind_eq_ok_iff.mp hadd
  exact ⟨hchecked, define_eq_ok_iff.mp hrest⟩

theorem exists_of_addProvable {proof : List Symbol}
    (hadd : builder.addProvable label statement proof = .ok (result, check)) :
    ∃ larger, builder.labels.insert? label (.provable (builder.scope.assertion statement)) =
        some larger ∧
      result = { builder with labels := larger } ∧
      check = if builder.verifying then some ⟨label, builder.scope.assertion statement, proof,
        ⟨builder.labels, builder.scope.environment⟩⟩ else none := by
  obtain ⟨defined, hdefine, heq⟩ := map_eq_ok_iff.mp hadd
  obtain ⟨larger, hinsert, rfl⟩ := define_eq_ok_iff.mp hdefine
  cases heq
  exact ⟨larger, hinsert, rfl, rfl⟩

/-- A statement that passes its check consists of symbols that may occur in it. -/
theorem admits_of_checkStatement (hagrees : builder.scope.place.Agrees builder.labels)
    (hchecked : builder.checkStatement statement = .ok ()) :
    ∀ symbol ∈ statement, builder.scope.place.Admits symbol := by
  rw [checkStatement] at hchecked
  split_ifs at hchecked
  have hsymbols : statement.forM builder.checkSymbol = .ok () := by
    cases hforM : statement.forM builder.checkSymbol with
    | error error =>
      rw [hforM] at hchecked
      cases hchecked
    | ok _ => rfl
  intro symbol hsymbol
  have hok := forM_eq_ok_iff.mp hsymbols symbol hsymbol
  rw [checkSymbol] at hok
  split_ifs at hok with _ hlabel hconstant
  · exact .inr ((hagrees.labelled symbol).mp hlabel)
  · exact .inl hconstant

theorem declareEach_induction {declare : Scope → Symbol → Except Scope.Error Scope}
    {P : Scope → Prop}
    (hdeclare : ∀ scope symbol result, P scope → declare scope symbol = .ok result → P result)
    {scope : Scope} (hscope : P scope) (symbols : List Symbol) :
    P (declareEach declare scope symbols).1 := by
  induction symbols generalizing scope with
  | nil => exact hscope
  | cons symbol rest ih =>
    rw [declareEach]
    cases hsymbol : declare scope symbol with
    | error error => exact hscope
    | ok next => exact ih (hdeclare scope symbol next hscope hsymbol)

/-- What the declarations of single symbols preserve holds after a declaration, be it complete or
refused halfway. -/
theorem declare_induction {P : Scope → Prop}
    (hconstant : ∀ scope symbol result, P scope →
      scope.declareConstant symbol = .ok result → P result)
    (hvariable : ∀ scope symbol result, P scope →
      scope.declareVariable symbol = .ok result → P result)
    (hdisjoint : ∀ scope vars result, P scope → scope.addDisjoint vars = .ok result → P result)
    (hscope : P builder.scope) (declaration : Declaration) (symbols : List Symbol) :
    P (builder.declare declaration symbols).1.scope := by
  cases declaration with
  | constants => exact declareEach_induction hconstant hscope symbols
  | vars => exact declareEach_induction hvariable hscope symbols
  | disjoint =>
    rw [declare]
    simp only
    split
    · exact hscope
    · cases hadd : builder.scope.addDisjoint symbols with
      | error error => exact hscope
      | ok scope => exact hdisjoint _ _ _ hscope hadd

theorem isConstant_declare (declaration : Declaration) (symbols : List Symbol) {symbol : Symbol}
    (hsymbol : builder.scope.isConstant symbol) :
    (builder.declare declaration symbols).1.scope.isConstant symbol :=
  declare_induction (P := fun scope => scope.isConstant symbol)
    (fun _ _ _ hscope hdeclare => Scope.isConstant_of_declareConstant hdeclare hscope)
    (fun _ _ _ hscope hdeclare =>
      Scope.isConstant_of_constants_eq (Scope.constants_of_declareVariable hdeclare) hscope)
    (fun _ _ _ hscope hadd =>
      Scope.isConstant_of_constants_eq (Scope.constants_of_modifyTop hadd) hscope)
    hsymbol declaration symbols

/-! ### Valid builders -/

/-- The scope agrees with the table of labels, and every assertion in the table is well typed. -/
structure Valid (builder : Builder) : Prop where
  scope : builder.scope.Valid builder.labels
  wellTyped : ∀ label entry assertion, builder.labels.get? label = some entry →
    entry.assertion? = some assertion → Scope.WellTyped builder.scope.constants assertion

theorem valid_new (bounds : Bounds) : (new bounds).Valid :=
  ⟨Scope.valid_empty, fun label entry assertion hget _ => by
    simp [new, LabelTable.get?, LabelTable.position?, LabelTable.empty] at hget⟩

/-- A scope may change its blocks and get more constants, as long as it stays valid. -/
theorem Valid.withScope (hvalid : builder.Valid) {scope : Scope}
    (hscope : scope.Valid builder.labels)
    (hconstants : ∀ symbol, builder.scope.isConstant symbol → scope.isConstant symbol) :
    Valid { builder with scope } :=
  ⟨hscope, fun label entry assertion hget hassertion =>
    (hvalid.wellTyped label entry assertion hget hassertion).mono hconstants⟩

/-- A label may be defined together with a change of the scope, if its assertion is well typed. -/
theorem Valid.withLabel (hvalid : builder.Valid) {scope : Scope} {larger : LabelTable}
    (hinsert : builder.labels.insert? label entry = some larger) (hscope : scope.Valid larger)
    (hconstants : scope.constants = builder.scope.constants)
    (hentry : ∀ assertion, entry.assertion? = some assertion →
      Scope.WellTyped builder.scope.constants assertion) :
    Valid { builder with scope, labels := larger } := by
  refine ⟨hscope, fun other found assertion hget hassertion => ?_⟩
  rw [hconstants]
  rw [LabelTable.get?_of_insert? hinsert] at hget
  split_ifs at hget
  · cases hget
    exact hentry assertion hassertion
  · exact hvalid.wellTyped other found assertion hget hassertion

theorem Valid.declare (hvalid : builder.Valid) (declaration : Declaration)
    (symbols : List Symbol) : (builder.declare declaration symbols).1.Valid := by
  have hscope := declare_induction (P := fun scope => scope.Valid builder.labels)
    (fun _ _ _ hscope hdeclare => hscope.declareConstant hdeclare)
    (fun _ _ _ hscope hdeclare => hscope.declareVariable hdeclare)
    (fun _ _ _ hscope hadd => hscope.addDisjoint hadd) hvalid.scope declaration symbols
  exact hvalid.withScope hscope fun _ => isConstant_declare declaration symbols

theorem Valid.step (hvalid : builder.Valid)
    (hstep : builder.Step check result) : result.Valid := by
  have hagrees := hvalid.scope.agrees
  cases hstep with
  | idle => exact hvalid
  | note label => exact ⟨hvalid.scope, hvalid.wellTyped⟩
  | enter => exact hvalid.withScope hvalid.scope.push fun _ hsymbol => hsymbol
  | leave hpop =>
    exact hvalid.withScope (hvalid.scope.pop hpop) fun _ =>
      Scope.isConstant_of_constants_eq (Scope.constants_of_pop hpop)
  | declare declaration symbols => exact hvalid.declare declaration symbols
  | floating hadd =>
    obtain ⟨typing, scope, larger, hscope, hinsert, rfl⟩ := exists_of_addFloating hadd
    exact hvalid.withLabel hinsert (hvalid.scope.addFloating hinsert hscope)
      (Scope.constants_of_addFloating hscope) nofun
  | essential hadd =>
    obtain ⟨hchecked, scope, larger, hscope, hinsert, rfl⟩ := exists_of_addEssential hadd
    have hadmitted := admits_of_checkStatement hagrees hchecked
    exact hvalid.withLabel hinsert
      (hvalid.scope.addEssential hinsert hadmitted hscope)
      (Scope.constants_of_modifyTop hscope) nofun
  | axiomatic hadd =>
    obtain ⟨hchecked, larger, hinsert, rfl⟩ := exists_of_addAxiomatic hadd
    refine hvalid.withLabel hinsert (hvalid.scope.define hinsert) rfl
      fun assertion hassertion => ?_
    cases hassertion
    exact Scope.wellTyped_assertion hagrees (admits_of_checkStatement hagrees hchecked)
  | provable hchecked hadd =>
    obtain ⟨larger, hinsert, rfl, -⟩ := exists_of_addProvable hadd
    refine hvalid.withLabel hinsert (hvalid.scope.define hinsert) rfl
      fun assertion hassertion => ?_
    cases hassertion
    exact Scope.wellTyped_assertion hagrees (admits_of_checkStatement hagrees hchecked)

theorem Valid.truncate (hvalid : builder.Valid) (depth : Nat) : (builder.truncate depth).Valid :=
  hvalid.withScope (Scope.Coherent.drop hvalid.scope _) fun _ hsymbol => hsymbol

/-! ### What a step adds -/

/-- A builder gets more constants, and at most one new label. If the label is that of a theorem, its
check is given out, unless proofs are not verified here. -/
structure Grows (builder : Builder) (check : Option Check) (result : Builder) : Prop where
  constants : ∀ symbol, builder.scope.isConstant symbol → result.scope.isConstant symbol
  verifying : builder.verifying → result.verifying
  labels : result.labels = builder.labels ∨ ∃ label entry,
    builder.labels.insert? label entry = some result.labels ∧
    ∀ assertion, entry = .provable assertion → ∃ statement proof,
      assertion = builder.scope.assertion statement ∧
      check = if builder.verifying then some ⟨label, builder.scope.assertion statement, proof,
        ⟨builder.labels, builder.scope.environment⟩⟩ else none

theorem Step.grows (hstep : builder.Step check result) : builder.Grows check result := by
  cases hstep with
  | idle => exact ⟨fun _ => id, id, .inl rfl⟩
  | note label => exact ⟨fun _ => id, fun h => Bool.or_eq_true_iff.mpr (.inl h), .inl rfl⟩
  | enter => exact ⟨fun _ => id, id, .inl rfl⟩
  | leave hpop =>
    exact ⟨fun _ => Scope.isConstant_of_constants_eq (Scope.constants_of_pop hpop), id, .inl rfl⟩
  | declare declaration symbols =>
    exact ⟨fun _ => isConstant_declare declaration symbols, id, .inl rfl⟩
  | floating hadd =>
    obtain ⟨typing, scope, larger, hscope, hinsert, rfl⟩ := exists_of_addFloating hadd
    exact ⟨fun _ => Scope.isConstant_of_constants_eq (Scope.constants_of_addFloating hscope), id,
      .inr ⟨_, _, hinsert, nofun⟩⟩
  | essential hadd =>
    obtain ⟨-, scope, larger, hscope, hinsert, rfl⟩ := exists_of_addEssential hadd
    exact ⟨fun _ => Scope.isConstant_of_constants_eq (Scope.constants_of_modifyTop hscope), id,
      .inr ⟨_, _, hinsert, nofun⟩⟩
  | axiomatic hadd =>
    obtain ⟨-, larger, hinsert, rfl⟩ := exists_of_addAxiomatic hadd
    exact ⟨fun _ => id, id, .inr ⟨_, _, hinsert, nofun⟩⟩
  | provable _ hadd =>
    obtain ⟨larger, hinsert, rfl, hcheck⟩ := exists_of_addProvable hadd
    refine ⟨fun _ => id, id, .inr ⟨_, _, hinsert, fun assertion hassertion => ?_⟩⟩
    cases hassertion
    exact ⟨_, _, rfl, hcheck⟩

theorem Grows.get?_mono (hgrows : builder.Grows check result)
    (hget : builder.labels.get? label = some entry) : result.labels.get? label = some entry := by
  rcases hgrows.labels with hsame | ⟨_, _, hinsert, -⟩
  · rw [hsame, hget]
  · exact LabelTable.get?_mono hinsert hget

end Builder

end Metamath.Database
