/-!
# Blanks and words of a text

Goals and tactics are written by people and by other programs, so they are cut into words at every
character that Unicode counts as white space, not only at the five blanks that separate the tokens
of a database. This module holds that character class and the two operations that depend on it:
cutting a text into its words and removing the blanks around it.

Both operations work on lists of characters and recur on the list, so that statements about them
are proved by induction and closed instances compute.
-/

namespace Metamath.Text

/-- The ranges of code points with the Unicode property White_Space, in ascending order and with
both ends included. -/
def blankRanges : List (Nat × Nat) :=
  [(0x9, 0xD), (0x20, 0x20), (0x85, 0x85), (0xA0, 0xA0), (0x1680, 0x1680), (0x2000, 0x200A),
    (0x2028, 0x2029), (0x202F, 0x202F), (0x205F, 0x205F), (0x3000, 0x3000)]

/-- Whether a character is white space in the sense of Unicode. -/
def isBlank (c : Char) : Bool :=
  blankRanges.any fun range => range.1 ≤ c.toNat && c.toNat ≤ range.2

/-- The run of non-blank characters a text starts with (possibly empty), and the runs after it.
Keeping the first run apart from the others is what lets the recursion extend it by one more
character. -/
def splitRuns (blank : Char → Bool) : List Char → List Char × List (List Char)
  | [] => ([], [])
  | c :: rest =>
    let (run, later) := splitRuns blank rest
    if blank c then ([], if run.isEmpty then later else run :: later)
    else (c :: run, later)

/-- The maximal non-empty runs of non-blank characters, in order. -/
def runs (blank : Char → Bool) (text : List Char) : List (List Char) :=
  let (run, later) := splitRuns blank text
  if run.isEmpty then later else run :: later

/-- The words of a text: what white space separates. -/
def words (text : String) : List String :=
  (runs isBlank text.toList).map String.ofList

/-- The text without the white space it starts and ends with. -/
def trim (text : String) : String :=
  String.ofList (((text.toList.dropWhile isBlank).reverse.dropWhile isBlank).reverse)

def isBlankText (text : String) : Bool :=
  text.toList.all isBlank

end Metamath.Text
