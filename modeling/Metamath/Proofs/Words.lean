import Mathlib.Data.List.Basic
import Metamath.Text.Blank

/-!
# Words and lines

What it means that a text consists of words with blanks around them is said here without cutting the
text: each word is followed by a blank or by the end. There is one way at most to see a text like
this, and cutting it into words finds it. So the blanks that a writer chooses do not matter to a
reader, as long as there are some between two words.

The same is said about the blanks around a text and, for line breaks, about lines. Lines differ from
words in that a line may be empty.
-/

namespace Metamath.Text

variable {blank : Char → Bool} {text run rest : List Char} {runs : List (List Char)}

/-- The text consists of the given runs in order, with blanks before, between and after them. After
a run there is a blank or the end, so no run could be longer. -/
inductive Separated (blank : Char → Bool) : List Char → List (List Char) → Prop where
  | finish : Separated blank [] []
  | skip {c : Char} {rest : List Char} {runs : List (List Char)} (hblank : blank c)
      (hrest : Separated blank rest runs) : Separated blank (c :: rest) runs
  | run {run rest : List Char} {runs : List (List Char)} (hne : run ≠ [])
      (hrun : ∀ c ∈ run, ¬ blank c) (hend : ∀ c ∈ rest.head?, blank c)
      (hrest : Separated blank rest runs) : Separated blank (run ++ rest) (run :: runs)

theorem Separated.of_mem (hseparated : Separated blank text runs) :
    ∀ run ∈ runs, run ≠ [] ∧ ∀ c ∈ run, ¬ blank c := by
  induction hseparated with
  | finish => exact List.forall_mem_nil _
  | skip _ _ ih => exact ih
  | run hne hrun _ _ ih => exact List.forall_mem_cons.mpr ⟨⟨hne, hrun⟩, ih⟩

/-- The run that a text starts with may be empty, and then it is none of the runs. -/
theorem Separated.append (hrun : ∀ c ∈ run, ¬ blank c) (hend : ∀ c ∈ rest.head?, blank c)
    (hrest : Separated blank rest runs) :
    Separated blank (run ++ rest) (if run.isEmpty then runs else run :: runs) := by
  cases run with
  | nil => exact hrest
  | cons c run => exact .run (List.cons_ne_nil c run) hrun hend hrest

theorem Separated.append_blanks {blanks : List Char} (hblanks : ∀ c ∈ blanks, blank c)
    (hrest : Separated blank rest runs) : Separated blank (blanks ++ rest) runs := by
  induction blanks with
  | nil => exact hrest
  | cons c blanks ih =>
    obtain ⟨hc, hblanks⟩ := List.forall_mem_cons.mp hblanks
    exact .skip hc (ih hblanks)

theorem splitRuns_of_blank {c : Char} (hblank : blank c) :
    splitRuns blank (c :: rest) = ([], Text.runs blank rest) := by
  simp only [splitRuns, if_pos hblank]
  rfl

theorem splitRuns_of_not_blank {c : Char} (hblank : ¬ blank c) :
    splitRuns blank (c :: rest) = (c :: (splitRuns blank rest).1, (splitRuns blank rest).2) := by
  simp only [splitRuns, if_neg hblank]

theorem exists_separated_splitRuns (blank : Char → Bool) (text : List Char) :
    ∃ rest, text = (splitRuns blank text).1 ++ rest ∧
      (∀ c ∈ (splitRuns blank text).1, ¬ blank c) ∧ (∀ c ∈ rest.head?, blank c) ∧
      Separated blank rest (splitRuns blank text).2 := by
  induction text with
  | nil => exact ⟨[], rfl, List.forall_mem_nil _, by simp, .finish⟩
  | cons c text ih =>
    obtain ⟨rest, htext, hrun, hend, hrest⟩ := ih
    by_cases hblank : blank c
    · have hafter := Separated.append hrun hend hrest
      rw [← htext] at hafter
      rw [splitRuns_of_blank hblank]
      exact ⟨c :: text, rfl, List.forall_mem_nil _, by simpa using hblank, .skip hblank hafter⟩
    · rw [splitRuns_of_not_blank hblank]
      exact ⟨rest, congrArg (c :: ·) htext, List.forall_mem_cons.mpr ⟨hblank, hrun⟩, hend, hrest⟩

theorem separated_runs (blank : Char → Bool) (text : List Char) :
    Separated blank text (Text.runs blank text) := by
  obtain ⟨rest, htext, hrun, hend, hrest⟩ := exists_separated_splitRuns blank text
  have hseparated := Separated.append hrun hend hrest
  rwa [← htext] at hseparated

theorem runs_cons_of_blank {c : Char} (hblank : blank c) :
    Text.runs blank (c :: rest) = Text.runs blank rest := by
  rw [Text.runs, splitRuns_of_blank hblank]
  rfl

theorem splitRuns_append (hrun : ∀ c ∈ run, ¬ blank c) (hend : ∀ c ∈ rest.head?, blank c) :
    splitRuns blank (run ++ rest) = (run, Text.runs blank rest) := by
  induction run with
  | nil =>
    cases rest with
    | nil => rfl
    | cons c rest =>
      have hblank : blank c := hend c rfl
      rw [List.nil_append, splitRuns_of_blank hblank, runs_cons_of_blank hblank]
  | cons c run ih =>
    obtain ⟨hc, hrun⟩ := List.forall_mem_cons.mp hrun
    rw [List.cons_append, splitRuns_of_not_blank hc, ih hrun]

/-- Cutting a text at blanks finds the runs that it consists of. -/
theorem runs_eq_iff : Text.runs blank text = runs ↔ Separated blank text runs := by
  constructor
  · rintro rfl
    exact separated_runs blank text
  · intro hseparated
    induction hseparated with
    | finish => rfl
    | skip hblank _ ih => rw [runs_cons_of_blank hblank, ih]
    | run hne hrun hend _ ih =>
      rw [Text.runs, splitRuns_append hrun hend, ih]
      exact if_neg (List.isEmpty_iff.not.mpr hne)

/-! ### Words -/

/-- There is no blank in the text. -/
def BlankFree (text : String) : Prop :=
  ∀ c ∈ text.toList, ¬ isBlank c

-- given by hand: the instance for statements about all characters would try each of them
instance : DecidablePred BlankFree := fun text =>
  decidable_of_iff (text.toList.all (!isBlank ·)) (by simp [BlankFree])

/-- A text that stays in one piece when it is cut into words. -/
def IsWord (word : String) : Prop :=
  word ≠ "" ∧ BlankFree word

instance : DecidablePred IsWord := fun word =>
  inferInstanceAs (Decidable (word ≠ "" ∧ BlankFree word))

theorem isWord_of_mem_words {text word : String} (hword : word ∈ words text) : IsWord word := by
  obtain ⟨run, hrun, rfl⟩ := List.mem_map.mp hword
  have hnonblank := (separated_runs isBlank text.toList).of_mem run hrun
  constructor
  · intro hempty
    exact hnonblank.1 (String.ofList_eq_empty_iff.mp hempty)
  · rw [BlankFree, String.toList_ofList]
    exact hnonblank.2

theorem separated_intercalate {words : List String} (hwords : ∀ word ∈ words, IsWord word) :
    Separated isBlank (String.intercalate " " words).toList (words.map String.toList) := by
  have hrun : ∀ word ∈ words, word.toList ≠ [] ∧ ∀ c ∈ word.toList, ¬ isBlank c := by
    intro word hword
    exact (hwords word hword).imp_left (mt String.toList_eq_nil_iff.mp)
  have hspace : isBlank ' ' := by decide
  induction words with
  | nil => exact .finish
  | cons first rest ih =>
    obtain ⟨⟨hne, hfirst⟩, hrest⟩ := List.forall_mem_cons.mp hrun
    have hlater := ih (List.forall_mem_cons.mp hwords).2 hrest
    cases rest with
    | nil =>
      have hlast : Separated isBlank (first.toList ++ []) [first.toList] :=
        .run hne hfirst (by simp) .finish
      rwa [List.append_nil] at hlast
    | cons second rest =>
      rw [String.intercalate_cons_cons, String.toList_append, String.toList_append,
        List.append_assoc]
      exact .run hne hfirst (by simpa using hspace) (.skip hspace hlater)

/-- Words that are written with single spaces between them are read back. -/
theorem words_intercalate {words : List String} (hwords : ∀ word ∈ words, IsWord word) :
    Text.words (String.intercalate " " words) = words := by
  rw [Text.words, runs_eq_iff.mpr (separated_intercalate hwords), List.map_map]
  simp [Function.comp_def]

/-! ### The blanks around a text -/

/-- The text is the core with blanks around it, and the core neither starts nor ends with one. -/
structure IsCore (text core : String) : Prop where
  around : ∃ before after : List Char, text.toList = before ++ core.toList ++ after ∧
    (∀ c ∈ before, isBlank c) ∧ ∀ c ∈ after, isBlank c
  head : ∀ c ∈ core.toList.head?, ¬ isBlank c
  last : ∀ c ∈ core.toList.getLast?, ¬ isBlank c

theorem not_blank_of_mem_head?_dropWhile {c : Char}
    (hhead : c ∈ (text.dropWhile blank).head?) : ¬ blank c := by
  have hnot := List.head?_dropWhile_not blank text
  rw [Option.mem_def.mp hhead] at hnot
  simpa using hnot

theorem isCore_trim (text : String) : IsCore text (trim text) := by
  let tail := text.toList.dropWhile isBlank
  have htoList : (trim text).toList = (tail.reverse.dropWhile isBlank).reverse := by
    rw [trim, String.toList_ofList]
  have htail : tail = (trim text).toList ++ (tail.reverse.takeWhile isBlank).reverse := by
    rw [htoList, ← List.reverse_append, List.takeWhile_append_dropWhile, List.reverse_reverse]
  refine ⟨⟨text.toList.takeWhile isBlank, (tail.reverse.takeWhile isBlank).reverse, ?_, ?_, ?_⟩,
    fun c hc => ?_, fun c hc => ?_⟩
  · rw [List.append_assoc, ← htail, List.takeWhile_append_dropWhile]
  · exact List.all_eq_true.mp List.all_takeWhile
  · intro c hc
    exact List.all_eq_true.mp List.all_takeWhile c (List.mem_reverse.mp hc)
  · have hhead : c ∈ tail.head? := by
      rw [htail, List.head?_append, Option.mem_def.mp hc]
      rfl
    exact not_blank_of_mem_head?_dropWhile hhead
  · rw [htoList, List.getLast?_reverse] at hc
    exact not_blank_of_mem_head?_dropWhile hc

/-! ### Lines -/

/-- A character between words is the one that separates them. -/
theorem mem_or_exists_of_mem_intercalate {separator : String} {words : List String} {c : Char}
    (hmem : c ∈ (String.intercalate separator words).toList) :
    c ∈ separator.toList ∨ ∃ word ∈ words, c ∈ word.toList := by
  induction words with
  | nil => simp at hmem
  | cons word rest ih =>
    cases rest with
    | nil =>
      rw [String.intercalate_singleton] at hmem
      exact .inr ⟨word, List.mem_cons_self, hmem⟩
    | cons next rest =>
      rw [String.intercalate_cons_cons, String.toList_append, String.toList_append,
        List.mem_append, List.mem_append] at hmem
      rcases hmem with (hword | hseparator) | hlater
      · exact .inr ⟨word, List.mem_cons_self, hword⟩
      · exact .inl hseparator
      · obtain hseparator | ⟨found, hfound, hc⟩ := ih hlater
        · exact .inl hseparator
        · exact .inr ⟨found, List.mem_cons_of_mem word hfound, hc⟩

/-- The lines of a text: what line breaks separate. -/
def lines (text : String) : List String :=
  (text.toList.splitOn '\n').map String.ofList

/-- Lines that are written with line breaks between them are read back. -/
theorem lines_intercalate {lines : List String} (hlines : ∀ line ∈ lines, '\n' ∉ line.toList)
    (hne : lines ≠ []) : Text.lines (String.intercalate "\n" lines) = lines := by
  rw [Text.lines, String.toList_intercalate]
  have hbreak : "\n".toList = ['\n'] := rfl
  rw [hbreak, List.splitOn_intercalate]
  · rw [List.map_map]
    simp [Function.comp_def]
  · intro line hline
    obtain ⟨text, htext, rfl⟩ := List.mem_map.mp hline
    exact hlines text htext
  · simpa using hne

end Metamath.Text
