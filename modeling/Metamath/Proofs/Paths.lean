import Mathlib.Data.List.Basic
import Metamath.FileSystem

/-!
# Directories and names

`parentPath` and `joinPath` work on the characters of a path. What they are for is said here without
them, by two relations: in which directory a file lies, and which path a name has that is written in
a directory. Every path lies in exactly one directory, and every name has exactly one path, so the
relations are the graphs of the two functions.
-/

namespace Metamath

/-- The file at a path lies in a directory: the last component of the path is its own name. -/
inductive InDirectory : (path directory : String) → Prop where
  | nested {directory base : String} (hdirectory : directory ≠ "") (hbase : '/' ∉ base.toList) :
      InDirectory (directory ++ "/" ++ base) directory
  | root {base : String} (hbase : '/' ∉ base.toList) : InDirectory ("/" ++ base) "/"
  /-- a path of one component lies in the working directory, whose path is empty -/
  | working {base : String} (hbase : '/' ∉ base.toList) : InDirectory base ""

/-- A name that does not start at the root directory. -/
def IsRelative (name : String) : Prop :=
  ∀ rest, name ≠ "/" ++ rest

/-- A name that is written in a directory stands for a path. -/
inductive StandsFor : (directory name path : String) → Prop where
  | absolute (directory rest : String) : StandsFor directory ("/" ++ rest) ("/" ++ rest)
  | working {name : String} (hname : IsRelative name) : StandsFor "" name name
  /-- a directory that ends with a separator already, such as the root directory -/
  | separated {front name : String} (hname : IsRelative name) :
      StandsFor (front ++ "/") name (front ++ "/" ++ name)
  | nested {directory name : String} (hdirectory : directory ≠ "")
      (hopen : ∀ front, directory ≠ front ++ "/") (hname : IsRelative name) :
      StandsFor directory name (directory ++ "/" ++ name)

variable {path directory name other : String}

theorem inDirectory_parentPath (path : String) : InDirectory path (parentPath path) := by
  by_cases hslash : '/' ∈ path.toList
  · -- the last separator of the path is the first one of the reversed path
    obtain ⟨base, front, hreverse, hbase⟩ :=
      List.eq_append_cons_of_mem (List.mem_reverse.mpr hslash)
    have hbase' : '/' ∉ (String.ofList base.reverse).toList := by
      simpa using hbase
    have hpath : path = String.ofList front.reverse ++ "/" ++ String.ofList base.reverse := by
      rw [← String.toList_inj, ← List.reverse_inj, hreverse]
      simp
    by_cases hfront : String.ofList front.reverse = ""
    · rw [hpath, hfront, String.empty_append, parentPath_root hbase']
      exact .root hbase'
    · rw [hpath, parentPath_append hfront hbase']
      exact .nested hfront hbase'
  · rw [parentPath_of_not_mem hslash]
    exact .working hslash

theorem inDirectory_iff : InDirectory path directory ↔ directory = parentPath path := by
  constructor
  · intro hin
    cases hin with
    | nested hdirectory hbase => exact (parentPath_append hdirectory hbase).symm
    | root hbase => exact (parentPath_root hbase).symm
    | working hbase => exact (parentPath_of_not_mem hbase).symm
  · rintro rfl
    exact inDirectory_parentPath path

theorem InDirectory.unique (hin : InDirectory path directory) (hother : InDirectory path other) :
    other = directory :=
  (inDirectory_iff.mp hother).trans (inDirectory_iff.mp hin).symm

theorem standsFor_joinPath (directory name : String) :
    StandsFor directory name (joinPath directory name) := by
  by_cases hname : IsRelative name
  · by_cases hdirectory : directory = ""
    · rw [hdirectory, joinPath_empty]
      exact .working hname
    · by_cases hopen : ∀ front, directory ≠ front ++ "/"
      · rw [joinPath_relative hdirectory hopen hname]
        exact .nested hdirectory hopen hname
      · obtain ⟨front, rfl⟩ := not_forall_not.mp hopen
        rw [joinPath_slash front hname]
        exact .separated hname
  · obtain ⟨rest, rfl⟩ := not_forall_not.mp hname
    rw [joinPath_absolute]
    exact .absolute directory rest

theorem standsFor_iff : StandsFor directory name path ↔ path = joinPath directory name := by
  constructor
  · intro hstands
    cases hstands with
    | absolute rest => exact (joinPath_absolute directory _).symm
    | working hname => exact (joinPath_empty _).symm
    | separated hname => exact (joinPath_slash _ hname).symm
    | nested hdirectory hopen hname => exact (joinPath_relative hdirectory hopen hname).symm
  · rintro rfl
    exact standsFor_joinPath directory name

theorem StandsFor.unique (hstands : StandsFor directory name path)
    (hother : StandsFor directory name other) : other = path :=
  (standsFor_iff.mp hother).trans (standsFor_iff.mp hstands).symm

end Metamath
