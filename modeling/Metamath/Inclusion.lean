import Std.Data.TreeSet
import Metamath.FileSystem
import Metamath.Token.Comment

/-!
# Inclusion of files

A file can include another one by `$[ name $]`. The tokens of the named file then take the place of
the inclusion. Names are relative to the directory of the including file, and every file is imported
at most once: a further inclusion of the same canonical path stands for nothing. Comments and
inclusions must be closed in the file in which they are opened.

An `Includer` is a stack of files that are being read. Each of its moves reads from the file on top
and yields items: tokens, notices about imported and skipped files, or a fault, after which nothing
is left to read. `Includer.items` is everything that it yields. It is finite, because a move either
imports one more file of the file system or uses up text of the files that are open.
-/

namespace Metamath

/-- What is wrong with an inclusion or with a comment. -/
inductive Inclusion.Error where
  /-- a path cannot be followed, or a file cannot be read -/
  | unreadable (path : String) (failure : FileSystem.Failure)
  /-- a comment of a file is faulty -/
  | comment (file : String) (fault : CommentFault)
  /-- a file ends inside of an inclusion -/
  | unclosed (file : String)
  /-- an inclusion does not have the shape `$[ name $]` -/
  | malformed (file : String) (found : String)
  deriving DecidableEq, Repr

/-- The fault in words, with the file it occurs in. -/
def Inclusion.Error.message : Inclusion.Error → String
  | unreadable path failure => path ++ ": " ++ failure.message
  | comment file fault => file ++ ": " ++ fault.message
  | unclosed file => file ++ ": unclosed inclusion statement at end of file"
  | malformed file found =>
    file ++ ": malformed inclusion, expected `$[ file $]` but found " ++ found

/-- What reading files with inclusions yields. -/
inductive Inclusion.Item where
  | token (token : Token)
  | fault (error : Inclusion.Error)
  /-- the file at this canonical path is read now -/
  | imported (path : String)
  /-- the file at this canonical path was imported before -/
  | skipped (path : String)
  deriving DecidableEq, Repr

/-- A token or a fault; notices are neither. -/
def Inclusion.Item.content? : Inclusion.Item → Option (Except Inclusion.Error Token)
  | token t => some (.ok t)
  | fault e => some (.error e)
  | imported _ | skipped _ => none

structure OpenFile where
  /-- how messages call the file -/
  name : String
  /-- the directory that the names of its inclusions are relative to -/
  directory : String
  /-- the place up to which it was read -/
  cursor : Cursor

def OpenFile.ofText (path text : String) : OpenFile :=
  ⟨path, parentPath path, .start text⟩

/-- Read the rest of an inclusion whose opening token was read, up to its closing token. Two tokens
are read in any case, so a faulty comment before the second one is reported first. -/
def OpenFile.inclusion (file : OpenFile) : Except Inclusion.Error (String × OpenFile) :=
  match file.cursor.next? with
  | none => .error (.unclosed file.name)
  | some (.error fault, _) => .error (.comment file.name fault)
  | some (.ok first, cursor) =>
    match first, cursor.next? with
    | _, some (.error fault, _) => .error (.comment file.name fault)
    | .word name, some (.ok (.keyword .includeClose), cursor) => .ok (name, { file with cursor })
    | .word _, some (.ok second, _) => .error (.malformed file.name second.text)
    | .word _, none => .error (.unclosed file.name)
    | .keyword keyword, _ => .error (.malformed file.name keyword.text)

/-- An inclusion that is read to its end uses up text. -/
theorem OpenFile.length_rest_lt_of_inclusion {file following : OpenFile} {name : String}
    (hread : file.inclusion = .ok (name, following)) :
    following.cursor.rest.length < file.cursor.rest.length := by
  unfold OpenFile.inclusion at hread
  split at hread
  · cases hread
  · cases hread
  · rename_i first cursor hfirst
    split at hread
    · cases hread
    · rename_i close hsecond
      cases hread
      exact Nat.lt_trans (Cursor.length_rest_lt_of_scan hsecond)
        (Cursor.length_rest_lt_of_scan hfirst)
    · cases hread
    · cases hread
    · cases hread

/-- The files that are being read, the innermost one first, and all imported paths. -/
structure Includer where
  files : List OpenFile
  imported : Std.TreeSet String

namespace Includer

def done (imported : Std.TreeSet String) : Includer := ⟨[], imported⟩

/-- Start with the file that a path leads to. -/
def ofFile (system : FileSystem) (path : String) : Except Inclusion.Error Includer :=
  match system.canonical path with
  | .error failure => .error (.unreadable path failure)
  | .ok canonical =>
    match system.read canonical with
    | .error failure => .error (.unreadable canonical failure)
    | .ok text => .ok ⟨[.ofText canonical text], Std.TreeSet.ofList [canonical]⟩

/-- Start with a text. The names of its inclusions are relative to the given directory. -/
def ofText (text directory : String) : Includer :=
  ⟨[⟨"<input>", directory, .start text⟩], ∅⟩

def includeFile (system : FileSystem) (imported : Std.TreeSet String) (name : String)
    (file : OpenFile) (outer : List OpenFile) : List Inclusion.Item × Includer :=
  let path := joinPath file.directory name
  match system.canonical path with
  | .error failure => ([.fault (.unreadable path failure)], done imported)
  | .ok canonical =>
    if imported.contains canonical then ([.skipped canonical], ⟨file :: outer, imported⟩)
    else
      match system.read canonical with
      | .error failure =>
        ([.imported canonical, .fault (.unreadable canonical failure)], done imported)
      | .ok text =>
        ([.imported canonical],
          ⟨.ofText canonical text :: file :: outer, imported.insert canonical⟩)

/-- One move: the items it yields and what is left to read. Files that have been read to their end
are passed over. -/
def advance (system : FileSystem) (imported : Std.TreeSet String) :
    List OpenFile → Option (List Inclusion.Item × Includer)
  | [] => none
  | file :: outer =>
    match file.cursor.next? with
    | none => advance system imported outer
    | some (.error fault, _) => some ([.fault (.comment file.name fault)], done imported)
    | some (.ok token, cursor) =>
      if token = .keyword .includeOpen then
        match { file with cursor }.inclusion with
        | .error error => some ([.fault error], done imported)
        | .ok (name, file) => some (includeFile system imported name file outer)
      else some ([.token token], ⟨{ file with cursor } :: outer, imported⟩)

/-- The number of files that can still be imported. -/
def unread (system : FileSystem) (includer : Includer) : Nat :=
  system.files.countP fun file => !includer.imported.contains file.1

/-- The amount of text in the open files, where every open file counts for one more. -/
def workload (includer : Includer) : Nat :=
  includer.files.foldr (fun file total => file.cursor.rest.length + 1 + total) 0

/-- Importing a file of the file system leaves one file less to import. -/
theorem unread_insert_lt {system : FileSystem} {imported : Std.TreeSet String}
    {files files' : List OpenFile} {path text : String} (hread : system.read path = .ok text)
    (hnew : imported.contains path = false) :
    unread system ⟨files', imported.insert path⟩ < unread system ⟨files, imported⟩ := by
  obtain ⟨bytes, hmember⟩ := FileSystem.exists_mem_files_of_read hread
  obtain ⟨before, after, hfiles⟩ := List.append_of_mem hmember
  have hmono (part : List (String × ByteArray)) :
      part.countP (fun file => !(imported.insert path).contains file.1) ≤
        part.countP (fun file => !imported.contains file.1) :=
    List.countP_mono_left fun file _ hstill => by
      simp only [Std.TreeSet.contains_insert, Bool.not_or, Bool.and_eq_true] at hstill
      exact hstill.2
  have hbefore := hmono before
  have hafter := hmono after
  simp only [unread, hfiles, List.countP_append, List.countP_cons, hnew,
    Std.TreeSet.contains_insert_self]
  simp only [Bool.not_true, Bool.not_false, Bool.false_eq_true, if_true, if_false]
  omega

/-- Including a file, or refusing to, comes closer to the end. -/
theorem includeFile_decreases {system : FileSystem} {imported : Std.TreeSet String} {name : String}
    {file : OpenFile} {outer files : List OpenFile} {items : List Inclusion.Item} {rest : Includer}
    (hmove : includeFile system imported name file outer = (items, rest))
    (hread : workload ⟨file :: outer, imported⟩ < workload ⟨files, imported⟩) :
    unread system rest < unread system ⟨files, imported⟩ ∨
      unread system rest = unread system ⟨files, imported⟩ ∧
        workload rest < workload ⟨files, imported⟩ := by
  have hdone : workload (done imported) < workload ⟨files, imported⟩ :=
    Nat.lt_of_le_of_lt (Nat.zero_le _) hread
  unfold includeFile at hmove
  simp only at hmove
  split at hmove
  · cases hmove
    exact .inr ⟨rfl, hdone⟩
  · split at hmove
    · cases hmove
      exact .inr ⟨rfl, hread⟩
    · rename_i hnew
      split at hmove
      · cases hmove
        exact .inr ⟨rfl, hdone⟩
      · rename_i htext
        cases hmove
        exact .inl (unread_insert_lt htext (Bool.eq_false_iff.mpr hnew))

/-- Every move comes closer to the end: it imports one more file, or it uses up text. -/
theorem advance_decreases {system : FileSystem} {imported : Std.TreeSet String}
    {files : List OpenFile} {items : List Inclusion.Item} {rest : Includer}
    (hmove : advance system imported files = some (items, rest)) :
    unread system rest < unread system ⟨files, imported⟩ ∨
      unread system rest = unread system ⟨files, imported⟩ ∧
        workload rest < workload ⟨files, imported⟩ := by
  induction files with
  | nil => cases hmove
  | cons file outer ih =>
    have hpop : workload ⟨outer, imported⟩ < workload ⟨file :: outer, imported⟩ := by
      simp only [workload, List.foldr_cons]
      omega
    unfold advance at hmove
    split at hmove
    · obtain hless | ⟨hsame, hless⟩ := ih hmove
      · exact .inl hless
      · exact .inr ⟨hsame, Nat.lt_trans hless hpop⟩
    · cases hmove
      exact .inr ⟨rfl, Nat.lt_of_le_of_lt (Nat.zero_le _) hpop⟩
    · rename_i token cursor hnext
      have hread : workload ⟨{ file with cursor } :: outer, imported⟩ <
          workload ⟨file :: outer, imported⟩ := by
        have hshorter := Cursor.length_rest_lt_of_scan hnext
        simp only [workload, List.foldr_cons]
        omega
      split at hmove
      · split at hmove
        · cases hmove
          exact .inr ⟨rfl, Nat.lt_of_le_of_lt (Nat.zero_le _) hpop⟩
        · rename_i name following hinclusion
          have hincluded : workload ⟨following :: outer, imported⟩ <
              workload ⟨file :: outer, imported⟩ := by
            have hshorter : following.cursor.rest.length < cursor.rest.length :=
              OpenFile.length_rest_lt_of_inclusion hinclusion
            simp only [workload, List.foldr_cons] at hread ⊢
            omega
          exact includeFile_decreases (Option.some.inj hmove) hincluded
      · cases hmove
        exact .inr ⟨rfl, hread⟩

/-- Everything that is yielded until nothing is left to read. -/
def items (system : FileSystem) (includer : Includer) : List Inclusion.Item :=
  match _hmove : advance system includer.imported includer.files with
  | none => []
  | some (items, rest) => items ++ rest.items system
termination_by (includer.unread system, includer.workload)
decreasing_by
  rw [Prod.lex_def]
  exact advance_decreases _hmove

end Includer

end Metamath
