import Mathlib.Data.List.Nodup
import Metamath.Database
import Metamath.FileSystem.Tree
import Metamath.Proofs.Lexing
import Metamath.Proofs.Paths
import Metamath.Proofs.Scope

/-!
# Inclusion is splicing

An includer keeps a stack of files that are half read. What it yields is what one gets by walking
through the tokens of one file and putting the expansion of the named file in the place of every
inclusion, provided that file was not imported before. This is said by the relation `Expands`, that
knows nothing of stacks and cursors: the expansion of an inclusion is complete before the including
file goes on, and what is handed on between them are only the imported paths. The name in an
inclusion stands for a path in the directory in which the including file lies.

There is exactly one expansion, also if files include each other in circles. It imports every path
at most once, and it ends at its first fault.
-/

namespace Metamath

/-- Tokens outside of comments, and faults of comments. -/
abbrev PlainTokens := List (Except CommentFault Token)

/-- The tokens of a text outside of comments. -/
def plainTokens (text : String) : PlainTokens :=
  (uncomment (byteCount text.toList) (lex text)).map PlainLexeme.content

/-- The tokens after a place outside of comments. -/
def Cursor.plainTokens (cursor : Cursor) : PlainTokens :=
  cursor.plainLexemes.map PlainLexeme.content

/-- How messages call a file, and the directory that the names of its inclusions are relative to. -/
structure Origin where
  name : String
  directory : String

/-- What identifies an open file. -/
def OpenFile.origin (file : OpenFile) : Origin :=
  ⟨file.name, file.directory⟩

/-- What is wrong with an inclusion in the given file, if the tokens after its opening one are not
the name of a file and the closing one. Two tokens are looked at in any case. -/
def Inclusion.fault? (file : String) : PlainTokens → Option Inclusion.Error
  | [] => some (.unclosed file)
  | .error fault :: _ => some (.comment file fault)
  | .ok _ :: .error fault :: _ => some (.comment file fault)
  | .ok (.word _) :: .ok (.keyword .includeClose) :: _ => none
  | .ok (.word _) :: .ok second :: _ => some (.malformed file second.text)
  | [.ok (.word _)] => some (.unclosed file)
  | .ok (.keyword keyword) :: _ => some (.malformed file keyword.text)

/-- What the tokens of a file expand to, given the paths that are imported already. The paths that
are imported at the end are handed on, unless a fault put an end to everything. -/
inductive Expands (system : FileSystem) :
    Origin → Std.TreeSet String → PlainTokens → List Inclusion.Item →
      Option (Std.TreeSet String) → Prop where
  | finish {origin : Origin} {imported : Std.TreeSet String} :
      Expands system origin imported [] [] (some imported)
  | token {origin : Origin} {imported : Std.TreeSet String} {token : Token} {rest : PlainTokens}
      {items : List Inclusion.Item} {ending : Option (Std.TreeSet String)}
      (htoken : token ≠ .keyword .includeOpen)
      (hrest : Expands system origin imported rest items ending) :
      Expands system origin imported (.ok token :: rest) (.token token :: items) ending
  | comment {origin : Origin} {imported : Std.TreeSet String} {fault : CommentFault}
      {rest : PlainTokens} :
      Expands system origin imported (.error fault :: rest)
        [.fault (.comment origin.name fault)] none
  | malformed {origin : Origin} {imported : Std.TreeSet String} {rest : PlainTokens}
      {error : Inclusion.Error} (hfault : Inclusion.fault? origin.name rest = some error) :
      Expands system origin imported (.ok (.keyword .includeOpen) :: rest) [.fault error] none
  /-- the named file cannot be found -/
  | missing {origin : Origin} {imported : Std.TreeSet String} {name target : String}
      {rest : PlainTokens} {failure : FileSystem.Failure}
      (hname : StandsFor origin.directory name target)
      (hpath : system.canonical target = .error failure) :
      Expands system origin imported
        (.ok (.keyword .includeOpen) :: .ok (.word name) :: .ok (.keyword .includeClose) :: rest)
        [.fault (.unreadable target failure)] none
  /-- the named file was imported before -/
  | again {origin : Origin} {imported : Std.TreeSet String} {name target path : String}
      {rest : PlainTokens} {items : List Inclusion.Item} {ending : Option (Std.TreeSet String)}
      (hname : StandsFor origin.directory name target) (hpath : system.canonical target = .ok path)
      (hknown : imported.contains path) (hrest : Expands system origin imported rest items ending) :
      Expands system origin imported
        (.ok (.keyword .includeOpen) :: .ok (.word name) :: .ok (.keyword .includeClose) :: rest)
        (.skipped path :: items) ending
  /-- the named file cannot be read -/
  | unreadable {origin : Origin} {imported : Std.TreeSet String} {name target path : String}
      {rest : PlainTokens} {failure : FileSystem.Failure}
      (hname : StandsFor origin.directory name target) (hpath : system.canonical target = .ok path)
      (hnew : ¬ imported.contains path) (hread : system.read path = .error failure) :
      Expands system origin imported
        (.ok (.keyword .includeOpen) :: .ok (.word name) :: .ok (.keyword .includeClose) :: rest)
        [.imported path, .fault (.unreadable path failure)] none
  /-- a fault in the named file -/
  | broken {origin : Origin} {imported : Std.TreeSet String}
      {name target path directory text : String} {rest : PlainTokens} {inner : List Inclusion.Item}
      (hname : StandsFor origin.directory name target) (hpath : system.canonical target = .ok path)
      (hnew : ¬ imported.contains path) (hread : system.read path = .ok text)
      (hdirectory : InDirectory path directory)
      (hinner : Expands system ⟨path, directory⟩ (imported.insert path) (plainTokens text) inner
        none) :
      Expands system origin imported
        (.ok (.keyword .includeOpen) :: .ok (.word name) :: .ok (.keyword .includeClose) :: rest)
        (.imported path :: inner) none
  | splice {origin : Origin} {imported later : Std.TreeSet String}
      {name target path directory text : String} {rest : PlainTokens}
      {inner items : List Inclusion.Item} {ending : Option (Std.TreeSet String)}
      (hname : StandsFor origin.directory name target) (hpath : system.canonical target = .ok path)
      (hnew : ¬ imported.contains path) (hread : system.read path = .ok text)
      (hdirectory : InDirectory path directory)
      (hinner : Expands system ⟨path, directory⟩ (imported.insert path) (plainTokens text) inner
        (some later))
      (hrest : Expands system origin later rest items ending) :
      Expands system origin imported
        (.ok (.keyword .includeOpen) :: .ok (.word name) :: .ok (.keyword .includeClose) :: rest)
        (.imported path :: (inner ++ items)) ending

variable {system : FileSystem} {origin : Origin} {imported later : Std.TreeSet String}
  {tokens : PlainTokens} {items : List Inclusion.Item} {ending : Option (Std.TreeSet String)}

/-- There is at most one expansion. -/
theorem Expands.unique {others : List Inclusion.Item} {otherEnding : Option (Std.TreeSet String)}
    (hexpands : Expands system origin imported tokens items ending)
    (hothers : Expands system origin imported tokens others otherEnding) :
    others = items ∧ otherEnding = ending := by
  -- the rules exclude each other, so the last rule of both derivations is the same
  induction hexpands generalizing others otherEnding with
  | finish =>
    cases hothers
    exact ⟨rfl, rfl⟩
  | token htoken _ ih =>
    cases hothers with
    | token _ hrest =>
      obtain ⟨rfl, rfl⟩ := ih hrest
      exact ⟨rfl, rfl⟩
    | _ => contradiction
  | comment =>
    cases hothers
    exact ⟨rfl, rfl⟩
  | malformed hfault =>
    cases hothers with
    | malformed hother =>
      cases hfault.symm.trans hother
      exact ⟨rfl, rfl⟩
    | _ => grind [Inclusion.fault?]
  | missing hname hpath =>
    cases hothers with
    | missing hsameName hother =>
      obtain rfl := hname.unique hsameName
      cases hpath.symm.trans hother
      exact ⟨rfl, rfl⟩
    | _ => grind [Inclusion.fault?, StandsFor.unique]
  | again hname hpath hknown _ ih =>
    cases hothers with
    | again hsameName hother _ hrest =>
      obtain rfl := hname.unique hsameName
      cases hpath.symm.trans hother
      obtain ⟨rfl, rfl⟩ := ih hrest
      exact ⟨rfl, rfl⟩
    | _ => grind [Inclusion.fault?, StandsFor.unique]
  | unreadable hname hpath hnew hread =>
    cases hothers with
    | unreadable hsameName hother _ hsame =>
      obtain rfl := hname.unique hsameName
      cases hpath.symm.trans hother
      cases hread.symm.trans hsame
      exact ⟨rfl, rfl⟩
    | _ => grind [Inclusion.fault?, StandsFor.unique]
  | broken hname hpath hnew hread hdirectory _ ih =>
    cases hothers with
    | broken hsameName hother _ hsame hsameDirectory hinner =>
      obtain rfl := hname.unique hsameName
      cases hpath.symm.trans hother
      cases hread.symm.trans hsame
      obtain rfl := hdirectory.unique hsameDirectory
      obtain ⟨rfl, -⟩ := ih hinner
      exact ⟨rfl, rfl⟩
    | _ => grind [Inclusion.fault?, StandsFor.unique, InDirectory.unique]
  | splice hname hpath hnew hread hdirectory _ _ ihInner ihRest =>
    cases hothers with
    | splice hsameName hother _ hsame hsameDirectory hinner hrest =>
      obtain rfl := hname.unique hsameName
      cases hpath.symm.trans hother
      cases hread.symm.trans hsame
      obtain rfl := hdirectory.unique hsameDirectory
      obtain ⟨rfl, hlater⟩ := ihInner hinner
      cases hlater
      obtain ⟨rfl, rfl⟩ := ihRest hrest
      exact ⟨rfl, rfl⟩
    | _ => grind [Inclusion.fault?, StandsFor.unique, InDirectory.unique]

/-! ### Imported paths and faults -/

/-- The path that a notice says is imported. -/
def Inclusion.Item.importedPath? : Inclusion.Item → Option String
  | .imported path => some path
  | .token _ | .fault _ | .skipped _ => none

/-- All paths that are imported, in order. -/
def Inclusion.importedPaths (items : List Inclusion.Item) : List String :=
  items.filterMap Inclusion.Item.importedPath?

/-- Every imported path is new, and it is known from then on. -/
structure ImportsOnce (imported : Std.TreeSet String) (items : List Inclusion.Item)
    (ending : Option (Std.TreeSet String)) : Prop where
  nodup : (Inclusion.importedPaths items).Nodup
  fresh : ∀ path ∈ Inclusion.importedPaths items, ¬ imported.contains path
  handedOn : ∀ later, ending = some later → ∀ path,
    later.contains path ↔ imported.contains path ∨ path ∈ Inclusion.importedPaths items

theorem importsOnce_nil : ImportsOnce imported [] (some imported) := by
  refine ⟨List.nodup_nil, nofun, fun later hlater path => ?_⟩
  cases hlater
  simp [Inclusion.importedPaths]

theorem importsOnce_fault (error : Inclusion.Error) : ImportsOnce imported [.fault error] none :=
  ⟨List.nodup_nil, nofun, nofun⟩

theorem ImportsOnce.cons {path : String} (honce : ImportsOnce (imported.insert path) items ending)
    (hnew : ¬ imported.contains path) : ImportsOnce imported (.imported path :: items) ending where
  nodup := List.nodup_cons.mpr
    ⟨fun hmem => honce.fresh path hmem (contains_insert_iff.mpr (.inl rfl)), honce.nodup⟩
  fresh := by
    intro other hmem hknown
    rcases List.mem_cons.mp hmem with rfl | hlater
    · exact hnew hknown
    · exact honce.fresh other hlater (contains_insert_iff.mpr (.inr hknown))
  handedOn := by
    intro later hlater other
    have hmem : other ∈ Inclusion.importedPaths (.imported path :: items) ↔
        other = path ∨ other ∈ Inclusion.importedPaths items := List.mem_cons
    rw [honce.handedOn later hlater other, contains_insert_iff, hmem]
    tauto

theorem ImportsOnce.append {inner : List Inclusion.Item}
    (hinner : ImportsOnce imported inner (some later)) (honce : ImportsOnce later items ending) :
    ImportsOnce imported (inner ++ items) ending := by
  have hknown := hinner.handedOn later rfl
  have hpaths : Inclusion.importedPaths (inner ++ items) =
      Inclusion.importedPaths inner ++ Inclusion.importedPaths items := List.filterMap_append
  refine ⟨?_, ?_, ?_⟩
  · rw [hpaths]
    refine List.nodup_append.mpr ⟨hinner.nodup, honce.nodup, ?_⟩
    rintro path hfirst other hsecond rfl
    exact honce.fresh path hsecond ((hknown path).mpr (.inr hfirst))
  · intro path hmem hold
    rw [hpaths] at hmem
    rcases List.mem_append.mp hmem with hfirst | hsecond
    · exact hinner.fresh path hfirst hold
    · exact honce.fresh path hsecond ((hknown path).mpr (.inl hold))
  · intro last hlast path
    rw [honce.handedOn last hlast path, hknown path, hpaths, List.mem_append, or_assoc]

/-- No path is imported twice. -/
theorem Expands.importsOnce (hexpands : Expands system origin imported tokens items ending) :
    ImportsOnce imported items ending := by
  induction hexpands with
  | finish => exact importsOnce_nil
  | token _ _ ih => exact ⟨ih.nodup, ih.fresh, ih.handedOn⟩
  | comment => exact importsOnce_fault _
  | malformed _ => exact importsOnce_fault _
  | missing _ _ => exact importsOnce_fault _
  | again _ _ _ _ ih => exact ⟨ih.nodup, ih.fresh, ih.handedOn⟩
  | unreadable _ _ hnew _ => exact (importsOnce_fault _).cons hnew
  | broken _ _ hnew _ _ _ ih => exact ih.cons hnew
  | splice _ _ hnew _ _ _ _ ihInner ihRest => exact (ihInner.append ihRest).cons hnew

/-- Nothing comes after a fault, and nothing is handed on then. -/
inductive EndsAtFault : List Inclusion.Item → Option (Std.TreeSet String) → Prop where
  | none (items : List Inclusion.Item) (later : Std.TreeSet String)
      (hitems : ∀ error, .fault error ∉ items) : EndsAtFault items (some later)
  | last (items : List Inclusion.Item) (error : Inclusion.Error)
      (hitems : ∀ error, .fault error ∉ items) : EndsAtFault (items ++ [.fault error]) .none

theorem EndsAtFault.append {start : List Inclusion.Item} (hends : EndsAtFault items ending)
    (hstart : ∀ error, .fault error ∉ start) : EndsAtFault (start ++ items) ending := by
  have hwithout : ∀ {items : List Inclusion.Item}, (∀ error, .fault error ∉ items) →
      ∀ error, .fault error ∉ start ++ items := fun hitems error hmem =>
    (List.mem_append.mp hmem).elim (hstart error) (hitems error)
  cases hends with
  | none _ later hitems => exact .none _ later (hwithout hitems)
  | last items error hitems =>
    rw [← List.append_assoc]
    exact .last (start ++ items) error (hwithout hitems)

theorem EndsAtFault.cons {item : Inclusion.Item} (hends : EndsAtFault items ending)
    (hitem : ∀ error, item ≠ .fault error) : EndsAtFault (item :: items) ending :=
  hends.append fun error hmem => hitem error (List.mem_singleton.mp hmem).symm

theorem endsAtFault_fault (error : Inclusion.Error) : EndsAtFault [.fault error] none :=
  .last [] error nofun

theorem Expands.endsAtFault (hexpands : Expands system origin imported tokens items ending) :
    EndsAtFault items ending := by
  induction hexpands with
  | finish => exact .none [] _ nofun
  | token _ _ ih => exact ih.cons nofun
  | comment => exact endsAtFault_fault _
  | malformed _ => exact endsAtFault_fault _
  | missing _ _ => exact endsAtFault_fault _
  | again _ _ _ _ ih => exact ih.cons nofun
  | unreadable _ _ _ _ => exact (endsAtFault_fault _).cons nofun
  | broken _ _ _ _ _ _ ih => exact ih.cons nofun
  | splice _ _ _ _ _ _ _ ihInner ihRest =>
    cases ihInner with
    | none inner _ hinner => exact (ihRest.append hinner).cons nofun

theorem EndsAtFault.eq_nil {before after : List Inclusion.Item} {error : Inclusion.Error}
    (hends : EndsAtFault (before ++ .fault error :: after) ending) : after = [] := by
  generalize hitems : before ++ .fault error :: after = items at hends
  cases hends with
  | none _ _ hwithout =>
    refine absurd ?_ (hwithout error)
    simp [← hitems]
  | last front other hwithout =>
    rcases List.eq_nil_or_concat' after with hnil | ⟨inner, last, rfl⟩
    · exact hnil
    · rw [← List.cons_append, ← List.append_assoc] at hitems
      have hfront : before ++ .fault error :: inner = front := List.append_inj_left' hitems rfl
      refine absurd ?_ (hwithout error)
      simp [← hfront]

/-! ### The includer -/

namespace Includer

/-- The items that an includer yields if it is moved until nothing is left to read. -/
inductive Drains (system : FileSystem) : Includer → List Inclusion.Item → Prop where
  | finished {includer : Includer}
      (hmove : advance system includer.imported includer.files = none) : Drains system includer []
  | moved {includer rest : Includer} {items more : List Inclusion.Item}
      (hmove : advance system includer.imported includer.files = some (items, rest))
      (hrest : Drains system rest more) : Drains system includer (items ++ more)

/-- The moves of an includer come to an end. -/
theorem drains_items (system : FileSystem) (includer : Includer) :
    includer.Drains system (includer.items system) := by
  fun_induction items system includer with
  | case1 includer hmove => exact .finished hmove
  | case2 includer items rest hmove ih => exact .moved hmove ih

end Includer

theorem Cursor.plainTokens_start (text : String) :
    (Cursor.start text).plainTokens = Metamath.plainTokens text := by
  rw [Cursor.plainTokens, plainLexemes, finish, start, Nat.zero_add]
  rfl

section

variable {cursor next : Cursor} {content : Except CommentFault Token} {file following : OpenFile}
  {outer files : List OpenFile} {name : String} {error : Inclusion.Error} {rest : Includer}
  {more : List Inclusion.Item}

theorem Cursor.plainTokens_of_next?_eq_none (hnext : cursor.next? = none) :
    cursor.plainTokens = [] := by
  rw [Cursor.plainTokens, plainLexemes_of_next?_eq_none hnext]
  rfl

theorem Cursor.plainTokens_of_next?_eq_some (hnext : cursor.next? = some (content, next)) :
    cursor.plainTokens = content :: next.plainTokens := by
  rw [Cursor.plainTokens, plainLexemes_of_next?_eq_some hnext]
  rfl

theorem OpenFile.fault?_of_inclusion (hread : file.inclusion = .error error) :
    Inclusion.fault? file.name file.cursor.plainTokens = some error := by
  rw [inclusion] at hread
  split at hread
  · next hfirst =>
    cases hread
    rw [Cursor.plainTokens_of_next?_eq_none hfirst]
    rfl
  · next fault cursor hfirst =>
    cases hread
    rw [Cursor.plainTokens_of_next?_eq_some hfirst]
    rfl
  · next first cursor hfirst =>
    rw [Cursor.plainTokens_of_next?_eq_some hfirst]
    split at hread
    · next fault close hsecond =>
      cases hread
      rw [Cursor.plainTokens_of_next?_eq_some hsecond]
      rfl
    · cases hread
    · next second close hclose hsecond =>
      cases hread
      rw [Cursor.plainTokens_of_next?_eq_some hsecond, Inclusion.fault?]
      exact hclose
    · next hsecond =>
      cases hread
      rw [Cursor.plainTokens_of_next?_eq_none hsecond]
      rfl
    · next keyword hsecond =>
      cases hread
      rw [Inclusion.fault?]
      intro fault later hlater
      cases hnext : cursor.next? with
      | none =>
        rw [Cursor.plainTokens_of_next?_eq_none hnext] at hlater
        cases hlater
      | some found =>
        rw [Cursor.plainTokens_of_next?_eq_some hnext] at hlater
        cases found
        cases hlater
        exact hsecond fault _ hnext

theorem OpenFile.plainTokens_of_inclusion (hread : file.inclusion = .ok (name, following)) :
    file.cursor.plainTokens = .ok (.word name) :: .ok (.keyword .includeClose) ::
        following.cursor.plainTokens ∧ following.origin = file.origin := by
  rw [inclusion] at hread
  split at hread
  · cases hread
  · cases hread
  · next first cursor hfirst =>
    rw [Cursor.plainTokens_of_next?_eq_some hfirst]
    split at hread
    · cases hread
    · next close hsecond =>
      cases hread
      rw [Cursor.plainTokens_of_next?_eq_some hsecond]
      exact ⟨rfl, rfl⟩
    · cases hread
    · cases hread
    · cases hread

/-- What the open files expand to, from the innermost one outwards. -/
inductive ExpandsAll (system : FileSystem) :
    Std.TreeSet String → List OpenFile → List Inclusion.Item → Prop where
  | nil {imported : Std.TreeSet String} : ExpandsAll system imported [] []
  | stop {imported : Std.TreeSet String} {file : OpenFile} {outer : List OpenFile}
      {items : List Inclusion.Item}
      (hfile : Expands system file.origin imported file.cursor.plainTokens items none) :
      ExpandsAll system imported (file :: outer) items
  | cons {imported later : Std.TreeSet String} {file : OpenFile} {outer : List OpenFile}
      {items more : List Inclusion.Item}
      (hfile : Expands system file.origin imported file.cursor.plainTokens items (some later))
      (houter : ExpandsAll system later outer more) :
      ExpandsAll system imported (file :: outer) (items ++ more)

/-- A file may be taken up at an earlier place, if this adds something to its expansion. -/
theorem ExpandsAll.prepend {start : List Inclusion.Item}
    (hall : ExpandsAll system later (following :: outer) items)
    (hstart : ∀ items ending,
      Expands system following.origin later following.cursor.plainTokens items ending →
      Expands system file.origin imported file.cursor.plainTokens (start ++ items) ending) :
    ExpandsAll system imported (file :: outer) (start ++ items) := by
  cases hall with
  | stop hfile => exact .stop (hstart _ _ hfile)
  | cons hfile houter =>
    rw [← List.append_assoc]
    exact .cons (hstart _ _ hfile) houter

theorem ExpandsAll.of_fault
    (hfile : Expands system file.origin imported file.cursor.plainTokens items none)
    (hmore : ExpandsAll system imported [] more) :
    ExpandsAll system imported (file :: outer) (items ++ more) := by
  cases hmore
  rw [List.append_nil]
  exact .stop hfile

/-- A file that was read to its end adds nothing. -/
theorem ExpandsAll.pass (houter : ExpandsAll system imported outer items)
    (hnext : file.cursor.next? = none) : ExpandsAll system imported (file :: outer) items := by
  have hfile : Expands system file.origin imported file.cursor.plainTokens [] (some imported) := by
    rw [Cursor.plainTokens_of_next?_eq_none hnext]
    exact .finish
  exact .cons hfile houter

/-- An inclusion is expanded before the including file goes on. -/
theorem ExpandsAll.of_includeFile
    (hmove : Includer.includeFile system imported name following outer = (items, rest))
    (htokens : file.cursor.plainTokens = .ok (.keyword .includeOpen) :: .ok (.word name) ::
      .ok (.keyword .includeClose) :: following.cursor.plainTokens)
    (horigin : following.origin = file.origin)
    (hrest : ExpandsAll system rest.imported rest.files more) :
    ExpandsAll system imported (file :: outer) (items ++ more) := by
  have hname : StandsFor file.origin.directory name (joinPath following.directory name) := by
    rw [← horigin]
    exact standsFor_joinPath following.directory name
  rw [Includer.includeFile] at hmove
  split at hmove
  · next failure hpath =>
    cases hmove
    exact .of_fault (htokens ▸ .missing hname hpath) hrest
  · next path hpath =>
    split_ifs at hmove with hknown
    · cases hmove
      refine hrest.prepend fun items ending hfile => ?_
      rw [htokens]
      rw [horigin] at hfile
      exact .again hname hpath hknown hfile
    · split at hmove
      · next failure hread =>
        cases hmove
        exact .of_fault (htokens ▸ .unreadable hname hpath hknown hread) hrest
      · next text hread =>
        cases hmove
        have htext : (OpenFile.ofText path text).cursor.plainTokens = plainTokens text :=
          Cursor.plainTokens_start text
        have hdirectory := inDirectory_parentPath path
        cases hrest with
        | stop hinner =>
          rw [htext] at hinner
          exact .stop (htokens ▸ .broken hname hpath hknown hread hdirectory hinner)
        | @cons _ _ _ _ inner _ hinner houter =>
          rw [htext] at hinner
          have hspliced : ExpandsAll system imported (file :: outer)
              ((.imported path :: inner) ++ _) := houter.prepend fun items ending hfile => by
            rw [htokens]
            rw [horigin] at hfile
            exact .splice hname hpath hknown hread hdirectory hinner hfile
          exact hspliced

theorem ExpandsAll.of_advance_eq_none (hmove : Includer.advance system imported files = none) :
    ExpandsAll system imported files [] := by
  induction files with
  | nil => exact .nil
  | cons file outer ih =>
    rw [Includer.advance] at hmove
    split at hmove
    · next hnext => exact (ih hmove).pass hnext
    · cases hmove
    · split_ifs at hmove
      split at hmove <;> cases hmove

/-- What one move yields belongs to the expansion. -/
theorem ExpandsAll.of_advance (hmove : Includer.advance system imported files = some (items, rest))
    (hrest : ExpandsAll system rest.imported rest.files more) :
    ExpandsAll system imported files (items ++ more) := by
  induction files with
  | nil => cases hmove
  | cons file outer ih =>
    rw [Includer.advance] at hmove
    split at hmove
    · next hnext => exact (ih hmove).pass hnext
    · next fault cursor hnext =>
      cases hmove
      exact .of_fault (Cursor.plainTokens_of_next?_eq_some hnext ▸ .comment) hrest
    · next token cursor hnext =>
      have htokens := Cursor.plainTokens_of_next?_eq_some hnext
      split_ifs at hmove with hopen
      · subst hopen
        split at hmove
        · next error hinclusion =>
          cases hmove
          have hfault := OpenFile.fault?_of_inclusion hinclusion
          exact .of_fault (htokens ▸ .malformed hfault) hrest
        · next name following hinclusion =>
          obtain ⟨hdirective, horigin⟩ := OpenFile.plainTokens_of_inclusion hinclusion
          have hinclude : Includer.includeFile system imported name following outer =
              (items, rest) := Option.some.inj hmove
          exact .of_includeFile hinclude (by rw [htokens, ← hdirective]) horigin hrest
      · cases hmove
        refine hrest.prepend fun items ending hfile => ?_
        rw [htokens]
        exact .token hopen hfile

/-- An includer yields the expansion of the open files. -/
theorem expandsAll_items (system : FileSystem) (includer : Includer) :
    ExpandsAll system includer.imported includer.files (includer.items system) := by
  fun_induction Includer.items system includer with
  | case1 includer hmove => exact .of_advance_eq_none hmove
  | case2 includer items rest hmove ih => exact .of_advance hmove ih

theorem ExpandsAll.exists_expands (hall : ExpandsAll system imported [file] items) :
    ∃ ending, Expands system file.origin imported file.cursor.plainTokens items ending := by
  cases hall with
  | stop hfile => exact ⟨none, hfile⟩
  | cons hfile houter =>
    cases houter
    rw [List.append_nil]
    exact ⟨_, hfile⟩

end

/-- The expansion of a source. A file counts as imported from the beginning. -/
inductive Source.ExpandsTo (system : FileSystem) :
    Source → List String → List Inclusion.Item → Prop where
  | file {path canonical directory text : String} {items : List Inclusion.Item}
      {ending : Option (Std.TreeSet String)} (hpath : system.canonical path = .ok canonical)
      (hread : system.read canonical = .ok text) (hdirectory : InDirectory canonical directory)
      (hexpands : Expands system ⟨canonical, directory⟩ (Std.TreeSet.ofList [canonical])
        (plainTokens text) items ending) : ExpandsTo system (.file path) [canonical] items
  | text {content directory : String} {items : List Inclusion.Item}
      {ending : Option (Std.TreeSet String)}
      (hexpands : Expands system ⟨"<input>", directory⟩ ∅ (plainTokens content) items ending) :
      ExpandsTo system (.text content directory) [] items

namespace Source

variable {source : Source} {includer : Includer} {roots : List String}

theorem ExpandsTo.unique {others : List Inclusion.Item} {otherRoots : List String}
    (hexpands : source.ExpandsTo system roots items)
    (hothers : source.ExpandsTo system otherRoots others) : others = items := by
  cases hexpands with
  | file hpath hread hdirectory hitems =>
    cases hothers with
    | file hother hsame hsameDirectory hotherItems =>
      cases hpath.symm.trans hother
      cases hread.symm.trans hsame
      obtain rfl := hdirectory.unique hsameDirectory
      exact (hitems.unique hotherItems).1
  | text hitems =>
    cases hothers with
    | text hotherItems => exact (hitems.unique hotherItems).1

theorem exists_expandsTo (hopen : source.includer system = .ok includer) :
    ∃ roots, source.ExpandsTo system roots (includer.items system) := by
  have hall := expandsAll_items system includer
  cases source with
  | file path =>
    rw [Source.includer, Includer.ofFile] at hopen
    split at hopen
    · cases hopen
    · next canonical hpath =>
      split at hopen
      · cases hopen
      · next text hread =>
        cases hopen
        obtain ⟨ending, hexpands⟩ := hall.exists_expands
        rw [show (OpenFile.ofText canonical text).cursor.plainTokens = plainTokens text from
          Cursor.plainTokens_start text] at hexpands
        exact ⟨[canonical], .file hpath hread (inDirectory_parentPath canonical) hexpands⟩
  | text content directory =>
    cases hopen
    obtain ⟨ending, hexpands⟩ := hall.exists_expands
    exact ⟨[], .text (Cursor.plainTokens_start content ▸ hexpands)⟩

theorem ExpandsTo.nodup (hexpands : source.ExpandsTo system roots items) :
    (roots ++ Inclusion.importedPaths items).Nodup := by
  cases hexpands with
  | file _ _ _ hitems =>
    have honce := hitems.importsOnce
    refine List.nodup_cons.mpr ⟨fun hmem => honce.fresh _ hmem ?_, honce.nodup⟩
    simp
  | text hitems => exact hitems.importsOnce.nodup

theorem ExpandsTo.endsAtFault (hexpands : source.ExpandsTo system roots items) :
    ∃ ending, EndsAtFault items ending := by
  cases hexpands with
  | file _ _ _ hitems => exact ⟨_, hitems.endsAtFault⟩
  | text hitems => exact ⟨_, hitems.endsAtFault⟩

/-- The moves of an includer come to an end, and together they yield the expansion of the source,
which is unique. No path is imported twice, and nothing comes after a fault. -/
theorem includer_yields_expansion (hopen : source.includer system = .ok includer) :
    includer.Drains system (includer.items system) ∧
      (∃ roots, source.ExpandsTo system roots (includer.items system) ∧
        (roots ++ Inclusion.importedPaths (includer.items system)).Nodup) ∧
      (∀ roots items, source.ExpandsTo system roots items → items = includer.items system) ∧
      ∀ before error after, includer.items system = before ++ .fault error :: after →
        after = [] := by
  obtain ⟨roots, hexpands⟩ := exists_expandsTo hopen
  refine ⟨Includer.drains_items system includer, ⟨roots, hexpands, hexpands.nodup⟩,
    fun _ _ hother => hexpands.unique hother, fun before error after hitems => ?_⟩
  obtain ⟨ending, hends⟩ := hexpands.endsAtFault
  rw [hitems] at hends
  exact hends.eq_nil

/-- Files in two directories, which include each other in a circle. -/
def circle : FileSystem :=
  (FileTree.ofList "/t"
    [("top", some "$[ sub/outer $] x".toUTF8),
      ("sub/outer", some "$[ inner $] y".toUTF8),
      ("sub/inner", some "z $( $[ c $] $) $[ ../top $]".toUTF8)]).toFileSystem

/-- Each name is looked up in the directory of the file it is written in, and the inclusion that
would close the circle stands for nothing. -/
theorem includer_yields_expansion_subdirectory :
    ∃ includer, (file "top").includer circle = .ok includer ∧
      includer.items circle =
        [.imported "/t/sub/outer", .imported "/t/sub/inner", .token (.word "z"),
          .skipped "/t/top", .token (.word "y"), .token (.word "x")] := by
  have hpath : circle.canonical "top" = .ok "/t/top" := by decide +kernel
  have hreadTop : circle.read "/t/top" = .ok "$[ sub/outer $] x" := by decide +kernel
  have hreadOuter : circle.read "/t/sub/outer" = .ok "$[ inner $] y" := by decide +kernel
  have hreadInner : circle.read "/t/sub/inner" = .ok "z $( $[ c $] $) $[ ../top $]" := by
    decide +kernel
  have hopen : (file "top").includer circle =
      .ok ⟨[.ofText "/t/top" "$[ sub/outer $] x"], Std.TreeSet.ofList ["/t/top"]⟩ := by
    simp only [includer, Includer.ofFile, hpath, hreadTop]
  have htokensTop : plainTokens "$[ sub/outer $] x" = [.ok (.keyword .includeOpen),
      .ok (.word "sub/outer"), .ok (.keyword .includeClose), .ok (.word "x")] := by decide +kernel
  have htokensOuter : plainTokens "$[ inner $] y" = [.ok (.keyword .includeOpen),
      .ok (.word "inner"), .ok (.keyword .includeClose), .ok (.word "y")] := by decide +kernel
  have htokensInner : plainTokens "z $( $[ c $] $) $[ ../top $]" = [.ok (.word "z"),
      .ok (.keyword .includeOpen), .ok (.word "../top"), .ok (.keyword .includeClose)] := by
    decide +kernel
  have hnameInner : StandsFor "/t/sub" "inner" "/t/sub/inner" :=
    standsFor_iff.mpr (by decide +kernel)
  have hnameTop : StandsFor "/t/sub" "../top" "/t/sub/../top" :=
    standsFor_iff.mpr (by decide +kernel)
  have hnameOuter : StandsFor "/t" "sub/outer" "/t/sub/outer" :=
    standsFor_iff.mpr (by decide +kernel)
  set outermost := Std.TreeSet.ofList ["/t/top"]
  set all := (outermost.insert "/t/sub/outer").insert "/t/sub/inner"
  have hinner : Expands circle ⟨"/t/sub/inner", "/t/sub"⟩ all
      (plainTokens "z $( $[ c $] $) $[ ../top $]")
      [.token (.word "z"), .skipped "/t/top"] (some all) := by
    rw [htokensInner]
    exact .token (by decide)
      (.again hnameTop (by decide +kernel) (by decide +kernel) .finish)
  have houter : Expands circle ⟨"/t/sub/outer", "/t/sub"⟩ (outermost.insert "/t/sub/outer")
      (plainTokens "$[ inner $] y")
      [.imported "/t/sub/inner", .token (.word "z"), .skipped "/t/top", .token (.word "y")]
      (some all) := by
    rw [htokensOuter]
    exact .splice hnameInner (by decide +kernel) (by decide +kernel) hreadInner
      (@InDirectory.nested "/t/sub" "inner" (by decide) (by decide)) hinner
      (.token (by decide) .finish)
  have htop : Expands circle ⟨"/t/top", "/t"⟩ outermost (plainTokens "$[ sub/outer $] x")
      [.imported "/t/sub/outer", .imported "/t/sub/inner", .token (.word "z"),
        .skipped "/t/top", .token (.word "y"), .token (.word "x")] (some all) := by
    rw [htokensTop]
    exact .splice hnameOuter (by decide +kernel) (by decide +kernel) hreadOuter
      (@InDirectory.nested "/t/sub" "outer" (by decide) (by decide)) houter
      (.token (by decide) .finish)
  have hunique := (includer_yields_expansion hopen).2.2.1 ["/t/top"] _
    (.file hpath hreadTop (@InDirectory.nested "/t" "top" (by decide) (by decide)) htop)
  exact ⟨_, hopen, hunique.symm⟩

end Source

end Metamath
