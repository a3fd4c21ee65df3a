import Metamath.FileSystem

/-!
# File trees

A file tree is a file system that is given as a whole: a working directory and the files and
directories below it. Paths are followed component by component, as usual on systems where `/`
separates components: every component but the last one must be a directory, `.` and empty components
stay where they are, and `..` leads to the directory around. There are no links, so the place that
is reached is the canonical one.
-/

namespace Metamath

/-- Files and directories, each with the components of its absolute path. -/
structure FileTree where
  /-- the directory that relative paths start from -/
  workingDirectory : List String
  /-- contents of files, or nothing for directories -/
  nodes : List (List String × Option ByteArray)

/-- The pieces of a path between its slashes. -/
def pathPieces (path : List Char) : List (List Char) :=
  path.foldr (fun c pieces =>
    match pieces with
    | [] => [[]]
    | piece :: rest => if c = '/' then [] :: piece :: rest else (c :: piece) :: rest) [[]]

namespace FileTree

/-- The tree of the files and directories with the given paths below a working directory. -/
def ofList (workingDirectory : String) (nodes : List (String × Option ByteArray)) : FileTree :=
  let components (path : String) : List String :=
    ((pathPieces path.toList).map String.ofList).filter fun piece => piece != "" && piece != "."
  { workingDirectory := components workingDirectory
    nodes := nodes.map fun node =>
      (components workingDirectory ++ components node.1, node.2) }

/-- Whether there is a directory at a place. A directory that contains something need not be
listed. -/
def isDirectory (tree : FileTree) (place : List String) : Bool :=
  place.isPrefixOf tree.workingDirectory || tree.nodes.any fun node =>
    (node.1 == place && node.2.isNone) || (node.1 != place && place.isPrefixOf node.1)

def isPresent (tree : FileTree) (place : List String) : Bool :=
  tree.isDirectory place || tree.nodes.any (·.1 == place)

/-- The place that pieces of a path lead to from a given place. -/
def walk (tree : FileTree) (place : List String) :
    List String → Except FileSystem.Failure (List String)
  | [] => .ok place
  | piece :: rest =>
    if !tree.isDirectory place then .error .notADirectory
    else if piece == "" || piece == "." then tree.walk place rest
    else if piece == ".." then tree.walk place.dropLast rest
    else if tree.isPresent (place ++ [piece]) then tree.walk (place ++ [piece]) rest
    else .error .notFound

def pathText (place : List String) : String :=
  "/" ++ String.intercalate "/" place

def canonical (tree : FileTree) (path : String) : Except FileSystem.Failure String :=
  if path.isEmpty then .error .notFound
  else
    let start := if path.toList.head? == some '/' then [] else tree.workingDirectory
    (tree.walk start ((pathPieces path.toList).map String.ofList)).map pathText

def toFileSystem (tree : FileTree) : FileSystem where
  canonical := tree.canonical
  files := tree.nodes.filterMap fun node => node.2.map fun bytes => (pathText node.1, bytes)

end FileTree

end Metamath
