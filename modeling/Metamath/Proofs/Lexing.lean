import Mathlib.Data.List.Basic
import Metamath.Token.Comment

/-!
# Reading token by token

A source is cut into tokens in two ways: all at once, and one token at a time by a cursor that is
moved behind each token it has read. Here both are shown to give the same tokens at the same
offsets, first with comments and then without them. So nothing is lost if a reader leaves a source
after some token, reads another source, and comes back.
-/

namespace Metamath

variable {offset : Nat} {run text : List Char}

theorem byteCount_takeWhile_add_dropWhile (p : Char → Bool) (text : List Char) :
    byteCount (text.takeWhile p) + byteCount (text.dropWhile p) = byteCount text := by
  induction text with
  | nil => rfl
  | cons c rest ih =>
    by_cases hc : p c
    · rw [List.takeWhile_cons_of_pos hc, List.dropWhile_cons_of_pos hc, byteCount, byteCount,
        Nat.add_assoc, ih]
    · rw [List.takeWhile_cons_of_neg hc, List.dropWhile_cons_of_neg hc, byteCount, Nat.zero_add]

/-- Blanks before a token are passed over. -/
theorem lexFrom_blanks (offset : Nat) (text : List Char) :
    lexFrom offset [] text =
      lexFrom (offset + byteCount (text.takeWhile isSeparator)) []
        (text.dropWhile isSeparator) := by
  induction text generalizing offset with
  | nil => rfl
  | cons c rest ih =>
    by_cases hblank : isSeparator c
    · rw [lexFrom, if_pos hblank, ih, List.takeWhile_cons_of_pos hblank,
        List.dropWhile_cons_of_pos hblank, byteCount, Nat.add_assoc]
      rfl
    · rw [List.takeWhile_cons_of_neg hblank, List.dropWhile_cons_of_neg hblank]
      rfl

/-- A token that is being read ends before the next blank. -/
theorem lexFrom_run (offset : Nat) (hrun : run ≠ []) (text : List Char) :
    lexFrom offset run text =
      ⟨Token.ofRun (run.reverse ++ text.takeWhile (!isSeparator ·)),
          offset + byteCount (text.takeWhile (!isSeparator ·))⟩ ::
        lexFrom (offset + byteCount (text.takeWhile (!isSeparator ·))) []
          (text.dropWhile (!isSeparator ·)) := by
  have hsome : ¬ run.isEmpty := by rwa [List.isEmpty_iff]
  induction text generalizing offset run with
  | nil =>
    rw [lexFrom, if_neg hsome, List.takeWhile_nil, List.append_nil]
    rfl
  | cons c rest ih =>
    by_cases hblank : isSeparator c
    · simp only [lexFrom, List.takeWhile_cons, List.dropWhile_cons, hblank, hsome, Bool.not_true,
        Bool.false_eq_true, if_true, if_false, List.append_nil]
      rfl
    · rw [lexFrom, if_neg hblank, ih (offset + c.utf8Size) (List.cons_ne_nil c run) (by simp)]
      simp only [List.takeWhile_cons, List.dropWhile_cons, hblank, Bool.not_false, if_true,
        byteCount, Nat.add_assoc, List.reverse_cons, List.append_assoc, List.singleton_append]

namespace Cursor

variable {cursor next : Cursor} {token : Token} {content : Except CommentFault Token}

theorem lexemes_of_token?_eq_none (hread : cursor.token? = none) : cursor.lexemes = [] := by
  rw [token?] at hread
  split at hread
  · next hrest =>
    rw [lexemes, lexFrom_blanks, hrest]
    rfl
  · cases hread

/-- A cursor reads the first token and is left with the others. -/
theorem lexemes_of_token?_eq_some (hread : cursor.token? = some (token, next)) :
    cursor.lexemes = ⟨token, next.offset⟩ :: next.lexemes ∧
      next.finish.offset = cursor.finish.offset := by
  rw [token?] at hread
  split at hread
  · cases hread
  · next c text hrest =>
    cases hread
    have hc : isSeparator c = false := by
      have hhead := List.head?_dropWhile_not isSeparator cursor.rest
      rwa [hrest] at hhead
    refine ⟨?_, ?_⟩
    · rw [lexemes, lexFrom_blanks, hrest, lexFrom, if_neg (by simp [hc]),
        lexFrom_run _ (List.cons_ne_nil c [])]
      simp [lexemes, byteCount, Nat.add_assoc]
    · have hblanks := byteCount_takeWhile_add_dropWhile isSeparator cursor.rest
      have hrun := byteCount_takeWhile_add_dropWhile (!isSeparator ·) text
      rw [hrest] at hblanks
      simp only [finish, byteCount] at hblanks ⊢
      omega

/-- Outside of a comment and inside of one, scanning finds what removing comments leaves. -/
theorem uncommentFrom_lexemes (inComment : Bool) (cursor : Cursor) :
    uncommentFrom cursor.finish.offset inComment cursor.lexemes =
      (cursor.scan inComment).elim [] fun found =>
        ⟨found.1, found.2.offset⟩ :: found.2.plainLexemes := by
  fun_induction scan inComment cursor with
  | case1 cursor htoken =>
    rw [lexemes_of_token?_eq_none htoken]
    rfl
  | case2 inComment cursor htoken hout =>
    rw [lexemes_of_token?_eq_none htoken, eq_false_of_ne_true hout]
    rfl
  | case3 cursor next hread ih =>
    obtain ⟨hlexemes, hfinish⟩ := lexemes_of_token?_eq_some hread
    rw [hlexemes, uncommentFrom, if_pos rfl, ← hfinish]
    exact ih
  | case4 cursor token next hread hclose hnests =>
    obtain ⟨hlexemes, hfinish⟩ := lexemes_of_token?_eq_some hread
    rw [hlexemes, uncommentFrom, if_neg hclose, if_pos hnests, ← hfinish]
    rfl
  | case5 cursor token next hread hclose hnests ih =>
    obtain ⟨hlexemes, hfinish⟩ := lexemes_of_token?_eq_some hread
    rw [hlexemes, uncommentFrom, if_neg hclose, if_neg hnests, ← hfinish]
    exact ih
  | case6 inComment cursor next hout hread ih =>
    obtain ⟨hlexemes, hfinish⟩ := lexemes_of_token?_eq_some hread
    rw [hlexemes, eq_false_of_ne_true hout, uncommentFrom, if_pos rfl, ← hfinish]
    exact ih
  | case7 inComment cursor token next hread hout hopen =>
    obtain ⟨hlexemes, hfinish⟩ := lexemes_of_token?_eq_some hread
    rw [hlexemes, eq_false_of_ne_true hout, uncommentFrom, if_neg hopen, ← hfinish]
    rfl

theorem plainLexemes_of_next?_eq_none (hnext : cursor.next? = none) : cursor.plainLexemes = [] := by
  rw [plainLexemes, uncomment, uncommentFrom_lexemes, ← next?, hnext]
  rfl

/-- A cursor finds the first token outside of comments and is left with the others, or it finds the
fault of a comment and is left with what comes after it. -/
theorem plainLexemes_of_next?_eq_some (hnext : cursor.next? = some (content, next)) :
    cursor.plainLexemes = ⟨content, next.offset⟩ :: next.plainLexemes := by
  rw [plainLexemes, uncomment, uncommentFrom_lexemes, ← next?, hnext]
  rfl

end Cursor

end Metamath
