/-!
# File systems

Reading a database needs two things of a file system: to find the canonical path that a path leads
to, and to read the text of the file at a canonical path. Both may fail, and neither changes while a
database is being read, so a file system is a value.

Finding canonical paths is left open here, because it is the business of the system that holds the
files. The files themselves are a finite list, which is what makes reading a database come to an end
even if its files include each other in circles.
-/

namespace Metamath

/-- Why a path cannot be followed or a file cannot be read. -/
inductive FileSystem.Failure where
  /-- some component of the path does not exist -/
  | notFound
  /-- a component that is used as a directory is a file -/
  | notADirectory
  /-- what is to be read is a directory -/
  | isADirectory
  /-- the bytes of the file are not UTF-8 -/
  | invalidText
  deriving DecidableEq, Repr

def FileSystem.Failure.message : FileSystem.Failure → String
  | notFound => "No such file or directory (os error 2)"
  | notADirectory => "Not a directory (os error 20)"
  | isADirectory => "Is a directory (os error 21)"
  | invalidText => "stream did not contain valid UTF-8"

/-- Files that can be found by their paths. -/
structure FileSystem where
  /-- the canonical path that a path leads to -/
  canonical : String → Except FileSystem.Failure String
  /-- all files by their canonical paths -/
  files : List (String × ByteArray)

/-- The text of the file at a canonical path. A path that leads somewhere, but not to a file, leads
to a directory. -/
def FileSystem.read (system : FileSystem) (path : String) : Except FileSystem.Failure String :=
  match system.files.lookup path with
  | none => .error .isADirectory
  | some bytes =>
    match String.fromUTF8? bytes with
    | none => .error .invalidText
    | some text => .ok text

theorem FileSystem.exists_mem_files_of_read {system : FileSystem} {path text : String}
    (hread : system.read path = .ok text) : ∃ bytes, (path, bytes) ∈ system.files := by
  unfold FileSystem.read at hread
  split at hread
  · cases hread
  · rename_i bytes hlookup
    obtain ⟨before, after, hfiles, _⟩ := List.lookup_eq_some_iff.mp hlookup
    exact ⟨bytes, by simp [hfiles]⟩

/-- The path of a name in a directory. An absolute name does not depend on the directory. -/
def joinPath (directory name : String) : String :=
  if directory.isEmpty || name.toList.head? == some '/' then name
  else if directory.toList.getLast? == some '/' then directory ++ name
  else directory ++ "/" ++ name

/-- The directory of the file at a canonical path. -/
def parentPath (path : String) : String :=
  match (path.toList.reverse.dropWhile (· != '/')).reverse with
  | ['/'] => "/"
  | directory => String.ofList directory.dropLast

section

variable {directory name : String}

theorem joinPath_absolute (directory rest : String) :
    joinPath directory ("/" ++ rest) = "/" ++ rest := by
  simp [joinPath]

theorem joinPath_empty (name : String) : joinPath "" name = name := by
  simp [joinPath]

theorem head?_toList_ne_slash (hname : ∀ rest, name ≠ "/" ++ rest) :
    name.toList.head? ≠ some '/' := by
  intro hhead
  obtain ⟨rest, hrest⟩ := List.head?_eq_some_iff.mp hhead
  apply hname (String.ofList rest)
  rw [← String.toList_inj, hrest]
  simp

/-- A directory that ends with a separator gets no second one. -/
theorem joinPath_slash (front : String) (hname : ∀ rest, name ≠ "/" ++ rest) :
    joinPath (front ++ "/") name = front ++ "/" ++ name := by
  have hhead := head?_toList_ne_slash hname
  simp [joinPath, hhead]

theorem joinPath_relative (hdirectory : directory ≠ "")
    (hopen : ∀ front, directory ≠ front ++ "/") (hname : ∀ rest, name ≠ "/" ++ rest) :
    joinPath directory name = directory ++ "/" ++ name := by
  have hhead := head?_toList_ne_slash hname
  have hlast : directory.toList.getLast? ≠ some '/' := by
    intro hlast
    obtain ⟨front, hfront⟩ := List.getLast?_eq_some_iff.mp hlast
    apply hopen (String.ofList front)
    rw [← String.toList_inj, hfront]
    simp
  simp [joinPath, hhead, hlast, hdirectory]

theorem dropWhile_ne_slash_append {base : List Char} (hbase : '/' ∉ base) (before : List Char) :
    (base.reverse ++ before).dropWhile (· != '/') = before.dropWhile (· != '/') := by
  apply List.dropWhile_append_of_pos
  intro c hc
  rw [bne_iff_ne]
  rintro rfl
  exact hbase (List.mem_reverse.mp hc)

/-- The directory of a file is what stands before the last separator of its path. -/
theorem parentPath_append (hdirectory : directory ≠ "") (hname : '/' ∉ name.toList) :
    parentPath (directory ++ "/" ++ name) = directory := by
  have hfront : ((directory ++ "/" ++ name).toList.reverse.dropWhile (· != '/')).reverse =
      directory.toList ++ ['/'] := by
    simp [dropWhile_ne_slash_append hname]
  rw [parentPath, hfront]
  split
  · next hroot => exact absurd (by simpa using hroot) hdirectory
  · simp

/-- Nothing stands before the last separator of a path in the root directory. -/
theorem parentPath_root (hname : '/' ∉ name.toList) : parentPath ("/" ++ name) = "/" := by
  have hfront : (("/" ++ name).toList.reverse.dropWhile (· != '/')).reverse = ['/'] := by
    simp [dropWhile_ne_slash_append hname]
  rw [parentPath, hfront]
  rfl

theorem parentPath_of_not_mem (hname : '/' ∉ name.toList) : parentPath name = "" := by
  have hnone : (name.toList.reverse.dropWhile (· != '/')).reverse = [] := by
    rw [← List.append_nil name.toList.reverse, dropWhile_ne_slash_append hname]
    rfl
  rw [parentPath, hnone]
  rfl

end

end Metamath
