import Metamath.Inclusion

/-!
# Surveys of file systems

A file system that is not given as a whole is surveyed path by path. A survey holds the answers
about all paths that were asked for, and it is a file system in which all other paths lead nowhere.
As long as reading a file comes upon a path that was not asked for, that path is asked for and the
file is read again. When there is none left, the survey has all answers that reading the file needs.
-/

namespace Metamath

/-- The answers about some paths of a file system. -/
structure Survey where
  /-- the paths that were asked for, and the canonical paths they lead to -/
  paths : List (String × Except FileSystem.Failure String)
  /-- the files at those canonical paths -/
  files : List (String × ByteArray)

namespace Survey

def empty : Survey := ⟨[], []⟩

def knows (survey : Survey) (path : String) : Bool :=
  (survey.paths.lookup path).isSome

/-- The file system of all paths that were asked for. -/
def toFileSystem (survey : Survey) : FileSystem where
  canonical path := (survey.paths.lookup path).getD (.error .notFound)
  files := survey.files

def addFailure (survey : Survey) (path : String) (failure : FileSystem.Failure) : Survey :=
  { survey with paths := (path, .error failure) :: survey.paths }

/-- Note the canonical path that a path leads to, and the contents if there is a file. -/
def addPlace (survey : Survey) (path canonical : String) (content : Option ByteArray) : Survey :=
  { paths := (path, .ok canonical) :: survey.paths
    files := (content.map fun bytes => (canonical, bytes)).toList ++ survey.files }

/-- A path that reading a file comes upon and that was not asked for. -/
def unknown? (survey : Survey) (file : String) : Option String :=
  if survey.knows file then
    match Includer.ofFile survey.toFileSystem file with
    | .error _ => none
    | .ok includer =>
      (includer.items survey.toFileSystem).findSome? fun
        | .fault (.unreadable path .notFound) => if survey.knows path then none else some path
        | _ => none
  else some file

end Survey

end Metamath
