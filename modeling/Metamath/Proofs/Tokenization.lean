import Metamath.Proofs.Restart
import Metamath.Proofs.Words

/-!
# Tokens and the text they are cut from

Which tokens a text has can be said in three ways that do not mention how it is cut.

* By lexical rules: one for each keyword, one for words and one for blanks. At every place the rule
  that matches most characters applies, and a keyword is preferred to a word of the same length. A
  place where no rule matches would be a fault.
* By maximal runs: the stretches without blanks that could not be longer.
* By layouts: tokens that are written down one after another with blanks around them.

Cutting a text agrees with each of them, and there are no faults. Keywords are what makes this more
than splitting. A keyword can be the beginning of a word, so the longest match decides; and a word
that is written like a keyword could not be told from it, so no layout has such words.
-/

namespace Metamath

variable {offset : Nat} {c : Char} {text before run rest after : List Char}
  {runs : List (List Char)} {lexeme : Lexeme} {token : Token}

/-! ### The token that a run is -/

namespace Keyword

variable {keyword : Keyword}

theorem toList_text_of_ofChar? (hchar : ofChar? c = some keyword) :
    keyword.text.toList = ['$', c] := by
  unfold ofChar? at hchar
  split at hchar <;> cases hchar <;> rfl

theorem ofRun_text (keyword : Keyword) : Token.ofRun keyword.text.toList = .keyword keyword := by
  rcases keyword with ((_ | _ | _) | (_ | _ | _ | _)) | _ | _ | _ | _ | _ | _ | _ | _ <;> rfl

theorem unbroken_text (keyword : Keyword) :
    keyword.text.toList ≠ [] ∧ ∀ c ∈ keyword.text.toList, ¬ isSeparator c := by
  have hall : keyword.text.toList ≠ [] ∧ keyword.text.toList.all (!isSeparator ·) := by
    rcases keyword with ((_ | _ | _) | (_ | _ | _ | _)) | _ | _ | _ | _ | _ | _ | _ | _ <;> decide
  simpa using hall

end Keyword

namespace Token

theorem ofRun_of_forall_ne (hword : ∀ keyword : Keyword, run ≠ keyword.text.toList) :
    ofRun run = .word (String.ofList run) := by
  unfold ofRun
  split
  · next c =>
    split
    · next keyword hchar => exact absurd (Keyword.toList_text_of_ofChar? hchar).symm (hword keyword)
    · rfl
  · rfl

theorem ofRun_cases (run : List Char) :
    (∃ keyword : Keyword, run = keyword.text.toList ∧ ofRun run = .keyword keyword) ∨
      (∀ keyword : Keyword, run ≠ keyword.text.toList) ∧ ofRun run = .word (String.ofList run) := by
  by_cases hrun : ∃ keyword : Keyword, run = keyword.text.toList
  · obtain ⟨keyword, rfl⟩ := hrun
    exact .inl ⟨keyword, rfl, keyword.ofRun_text⟩
  · have hword : ∀ keyword : Keyword, run ≠ keyword.text.toList := not_exists.mp hrun
    exact .inr ⟨hword, ofRun_of_forall_ne hword⟩

theorem text_ofRun (run : List Char) : (ofRun run).text = String.ofList run := by
  rcases ofRun_cases run with ⟨keyword, rfl, hread⟩ | ⟨-, hread⟩
  · rw [hread, String.ofList_toList]
    rfl
  · rw [hread]
    rfl

/-- What it means that a run is read as a token: a run that is written like a keyword is this
keyword, and any other run is a word. -/
structure IsReadFrom (token : Token) (run : List Char) : Prop where
  keyword : ∀ keyword : Keyword, run = keyword.text.toList → token = .keyword keyword
  word : (∀ keyword : Keyword, run ≠ keyword.text.toList) → token = .word (String.ofList run)

theorem isReadFrom_iff : token.IsReadFrom run ↔ token = ofRun run := by
  constructor
  · intro hread
    rcases ofRun_cases run with ⟨keyword, hrun, hkeyword⟩ | ⟨hrun, hword⟩
    · rw [hkeyword, hread.keyword keyword hrun]
    · rw [hword, hread.word hrun]
  · rintro rfl
    refine ⟨fun keyword hrun => ?_, ofRun_of_forall_ne⟩
    rw [hrun, keyword.ofRun_text]

/-- A token that can be written down and read back: a keyword, or a word that is not empty, has no
blanks and is not written like a keyword. -/
def Legible : Token → Prop
  | .keyword _ => True
  | .word w => w ≠ "" ∧ (∀ c ∈ w.toList, ¬ isSeparator c) ∧ ∀ keyword : Keyword, w ≠ keyword.text

theorem Legible.unbroken_text (hlegible : token.Legible) :
    token.text.toList ≠ [] ∧ ∀ c ∈ token.text.toList, ¬ isSeparator c := by
  cases token with
  | keyword keyword => exact keyword.unbroken_text
  | word w =>
    obtain ⟨hne, hblanks, -⟩ := hlegible
    exact ⟨mt String.toList_eq_nil_iff.mp hne, hblanks⟩

theorem Legible.ofRun_text (hlegible : token.Legible) : ofRun token.text.toList = token := by
  cases token with
  | keyword keyword => exact keyword.ofRun_text
  | word w =>
    obtain ⟨-, -, hkeyword⟩ := hlegible
    have hother : ∀ keyword : Keyword, w.toList ≠ keyword.text.toList := by
      intro keyword htext
      exact hkeyword keyword (String.toList_inj.mp htext)
    rw [text, ofRun_of_forall_ne hother, String.ofList_toList]

theorem legible_ofRun (hne : run ≠ []) (hrun : ∀ c ∈ run, ¬ isSeparator c) :
    (ofRun run).Legible := by
  rcases ofRun_cases run with ⟨keyword, -, hread⟩ | ⟨hword, hread⟩
  · rw [hread]
    trivial
  · rw [hread]
    refine ⟨mt String.ofList_eq_empty_iff.mp hne, ?_, fun keyword htext => hword keyword ?_⟩
    · rwa [String.toList_ofList]
    · rw [← htext, String.toList_ofList]

-- given by hand: a keyword is not searched for, the text is read instead
instance : DecidablePred Legible := fun token =>
  decidable_of_iff (token.text.toList ≠ [] ∧ token.text.toList.all (!isSeparator ·) ∧
      ofRun token.text.toList = token) <| by
    constructor
    · rintro ⟨hne, hblanks, hread⟩
      rw [← hread]
      exact legible_ofRun hne (by simpa using hblanks)
    · intro hlegible
      obtain ⟨hne, hblanks⟩ := hlegible.unbroken_text
      exact ⟨hne, by simpa using hblanks, hlegible.ofRun_text⟩

end Token

/-! ### Cutting off blanks and runs -/

theorem lexFrom_append_blanks {blanks : List Char} (hblanks : ∀ c ∈ blanks, isSeparator c) :
    lexFrom offset [] (blanks ++ rest) = lexFrom (offset + byteCount blanks) [] rest := by
  induction blanks generalizing offset with
  | nil => rfl
  | cons c blanks ih =>
    obtain ⟨hc, hblanks⟩ := List.forall_mem_cons.mp hblanks
    rw [List.cons_append, lexFrom, if_pos hc, List.isEmpty_nil, if_pos rfl, ih hblanks, byteCount,
      Nat.add_assoc]

theorem lexFrom_append_run (hne : run ≠ []) (hrun : ∀ c ∈ run, ¬ isSeparator c)
    (hend : ∀ c ∈ rest.head?, isSeparator c) :
    lexFrom offset [] (run ++ rest) =
      ⟨Token.ofRun run, offset + byteCount run⟩ :: lexFrom (offset + byteCount run) [] rest := by
  obtain ⟨first, run, rfl⟩ := List.exists_cons_of_ne_nil hne
  obtain ⟨hfirst, hrun⟩ := List.forall_mem_cons.mp hrun
  have hnonblank : ∀ c ∈ run, (!isSeparator c) = true := by simpa using hrun
  have htake : rest.takeWhile (!isSeparator ·) = [] := by
    cases rest with
    | nil => rfl
    | cons c rest => exact List.takeWhile_cons_of_neg (by simpa using hend)
  have hdrop : rest.dropWhile (!isSeparator ·) = rest := by
    cases rest with
    | nil => rfl
    | cons c rest => exact List.dropWhile_cons_of_neg (by simpa using hend)
  rw [List.cons_append, lexFrom, if_neg hfirst, lexFrom_run _ (List.cons_ne_nil first []),
    List.takeWhile_append_of_pos hnonblank, List.dropWhile_append_of_pos hnonblank, htake, hdrop,
    List.append_nil, byteCount, Nat.add_assoc]
  rfl

theorem map_token_lexFrom (hseparated : Text.Separated isSeparator text runs) :
    (lexFrom offset [] text).map Lexeme.token = runs.map Token.ofRun := by
  induction hseparated generalizing offset with
  | finish => rfl
  | skip hblank _ ih =>
    rw [← List.singleton_append, lexFrom_append_blanks (by simpa using hblank), ih]
  | run hne hrun hend _ ih =>
    rw [lexFrom_append_run hne hrun hend, List.map_cons, List.map_cons, ih]

/-! ### Lexical rules -/

/-- What a stretch of text can be. -/
inductive Rule where
  | keyword (keyword : Keyword)
  | word
  /-- blanks are no token -/
  | blanks

/-- The stretches of text that a rule is for. -/
def Rule.Matches : Rule → List Char → Prop
  | .keyword k, run => run = k.text.toList
  | .word, run => run ≠ [] ∧ ∀ c ∈ run, ¬ isSeparator c
  | .blanks, run => run ≠ [] ∧ ∀ c ∈ run, isSeparator c

/-- A rule matches the beginning of a text, no rule matches more of it, and if the rule is that for
words, then no keyword matches as much. -/
structure LongestMatch (text : List Char) (rule : Rule) (run rest : List Char) : Prop where
  text_eq : text = run ++ rest
  matched : rule.Matches run
  longest : ∀ (other : Rule) (longer : List Char),
    longer <+: text → other.Matches longer → longer.length ≤ run.length
  preferred : rule = .word → ∀ keyword : Keyword, ¬ (Rule.keyword keyword).Matches run

/-- What is found in the text after an offset by following the rules: tokens, and the offsets of
places where no rule applies. Nothing is assumed about how reading goes on after such a place. -/
inductive Scans : Nat → List Char → List (Except Nat Lexeme) → Prop where
  | finish {offset : Nat} : Scans offset [] []
  | keyword {offset : Nat} {text run rest : List Char} {items : List (Except Nat Lexeme)}
      {keyword : Keyword} (hmatch : LongestMatch text (.keyword keyword) run rest)
      (hrest : Scans (offset + byteCount run) rest items) :
      Scans offset text (.ok ⟨.keyword keyword, offset + byteCount run⟩ :: items)
  | word {offset : Nat} {text run rest : List Char} {items : List (Except Nat Lexeme)}
      (hmatch : LongestMatch text .word run rest)
      (hrest : Scans (offset + byteCount run) rest items) :
      Scans offset text (.ok ⟨.word (String.ofList run), offset + byteCount run⟩ :: items)
  | blanks {offset : Nat} {text run rest : List Char} {items : List (Except Nat Lexeme)}
      (hmatch : LongestMatch text .blanks run rest)
      (hrest : Scans (offset + byteCount run) rest items) : Scans offset text items
  | fault {offset next : Nat} {text rest : List Char} {items : List (Except Nat Lexeme)}
      (hne : text ≠ [])
      (hnone : ∀ (rule : Rule) (run : List Char), run <+: text → ¬ rule.Matches run)
      (hrest : Scans next rest items) : Scans offset text (.error offset :: items)

/-- A rule matches blanks only or no blanks at all. -/
theorem Rule.Matches.uniform {rule : Rule} (hmatches : rule.Matches run) :
    run ≠ [] ∧ ∃ blank, ∀ c ∈ run, isSeparator c = blank := by
  cases rule with
  | keyword keyword =>
    cases hmatches
    exact ⟨keyword.unbroken_text.1, false, by simpa using keyword.unbroken_text.2⟩
  | word => exact ⟨hmatches.1, false, by simpa using hmatches.2⟩
  | blanks => exact ⟨hmatches.1, true, hmatches.2⟩

/-- What is not blank and matched by a longest match ends at a blank, because the rule for words
would match one more character. -/
theorem LongestMatch.ends {rule : Rule} (hmatch : LongestMatch text rule run rest)
    (hrun : ∀ c ∈ run, ¬ isSeparator c) : ∀ c ∈ rest.head?, isSeparator c := by
  intro c hc
  by_contra hnonblank
  obtain ⟨tail, rfl⟩ := List.head?_eq_some_iff.mp hc
  have hlonger : Rule.word.Matches (run ++ [c]) :=
    ⟨by simp, List.forall_mem_append.mpr ⟨hrun, by simpa using hnonblank⟩⟩
  have hinitial : run ++ [c] <+: text := by
    rw [hmatch.text_eq]
    exact (List.prefix_append_right_inj run).mpr (List.prefix_append [c] tail)
  have hlength := hmatch.longest .word (run ++ [c]) hinitial hlonger
  simp only [List.length_append, List.length_singleton] at hlength
  omega

/-- A stretch of one kind that is followed by the other kind is as much as any rule matches. -/
theorem length_le_of_matches {blank : Bool} {rule : Rule} {longer : List Char} (hne : run ≠ [])
    (hrun : ∀ c ∈ run, isSeparator c = blank) (hend : ∀ c ∈ rest.head?, isSeparator c ≠ blank)
    (hinitial : longer <+: run ++ rest) (hmatches : rule.Matches longer) :
    longer.length ≤ run.length := by
  obtain ⟨-, other, hlonger⟩ := hmatches.uniform
  obtain ⟨tail, htail⟩ := hinitial
  rcases List.append_eq_append_iff.mp htail with ⟨more, rfl, -⟩ | ⟨more, rfl, rfl⟩
  · simp
  · cases more with
    | nil => simp
    | cons c more =>
      obtain ⟨first, run, rfl⟩ := List.exists_cons_of_ne_nil hne
      have hfirst := hrun first List.mem_cons_self
      rw [hlonger first (by simp)] at hfirst
      exact absurd ((hlonger c (by simp)).trans hfirst) (hend c rfl)

theorem exists_stretch (hne : text ≠ []) :
    ∃ run rest blank, text = run ++ rest ∧ run ≠ [] ∧ (∀ c ∈ run, isSeparator c = blank) ∧
      ∀ c ∈ rest.head?, isSeparator c ≠ blank := by
  obtain ⟨first, text, rfl⟩ := List.exists_cons_of_ne_nil hne
  let same : Char → Bool := fun c => isSeparator c == isSeparator first
  refine ⟨(first :: text).takeWhile same, (first :: text).dropWhile same, isSeparator first,
    List.takeWhile_append_dropWhile.symm, ?_, ?_, ?_⟩
  · have hfirst : same first := beq_self_eq_true _
    rw [List.takeWhile_cons_of_pos hfirst]
    exact List.cons_ne_nil _ _
  · intro c hc
    exact beq_iff_eq.mp (List.all_eq_true.mp List.all_takeWhile c hc)
  · intro c hc
    exact mt beq_iff_eq.mpr (Text.not_blank_of_mem_head?_dropWhile hc)

/-- The rules leave no choice, and there is always one that applies. -/
theorem Scans.eq_lexFrom {items : List (Except Nat Lexeme)} (hscans : Scans offset text items) :
    items = (lexFrom offset [] text).map .ok := by
  induction hscans with
  | finish => rfl
  | @keyword offset text run rest items keyword hmatch _ ih =>
    obtain rfl : run = keyword.text.toList := hmatch.matched
    obtain ⟨hne, hrun⟩ := keyword.unbroken_text
    rw [hmatch.text_eq, lexFrom_append_run hne hrun (hmatch.ends hrun), keyword.ofRun_text,
      List.map_cons, ih]
  | word hmatch _ ih =>
    obtain ⟨hne, hrun⟩ := hmatch.matched
    rw [hmatch.text_eq, lexFrom_append_run hne hrun (hmatch.ends hrun),
      Token.ofRun_of_forall_ne (hmatch.preferred rfl), List.map_cons, ih]
  | blanks hmatch _ ih => rw [hmatch.text_eq, lexFrom_append_blanks hmatch.matched.2, ih]
  | fault hne hnone =>
    -- a single character is a blank or a word
    obtain ⟨first, text, rfl⟩ := List.exists_cons_of_ne_nil hne
    have hinitial : [first] <+: first :: text := List.prefix_append [first] text
    by_cases hblank : isSeparator first
    · exact absurd ⟨by simp, by simpa using hblank⟩ (hnone .blanks [first] hinitial)
    · exact absurd ⟨by simp, by simpa using hblank⟩ (hnone .word [first] hinitial)

/-- Cutting follows the rules. -/
theorem scans_lexFrom (offset : Nat) (text : List Char) :
    Scans offset text ((lexFrom offset [] text).map .ok) := by
  by_cases hne : text = []
  · rw [hne]
    exact .finish
  · -- the first stretch of one kind is the longest match, and it is a token unless it is blank
    obtain ⟨run, rest, blank, rfl, hrun, hkind, hend⟩ := exists_stretch hne
    have hlater := scans_lexFrom (offset + byteCount run) rest
    have hlongest : ∀ (other : Rule) (longer : List Char),
        longer <+: run ++ rest → other.Matches longer → longer.length ≤ run.length :=
      fun _ _ => length_le_of_matches hrun hkind hend
    cases blank with
    | true =>
      rw [lexFrom_append_blanks hkind]
      exact .blanks ⟨rfl, ⟨hrun, hkind⟩, hlongest, by simp⟩ hlater
    | false =>
      have hunbroken : ∀ c ∈ run, ¬ isSeparator c := by simpa using hkind
      rw [lexFrom_append_run hrun hunbroken (by simpa using hend), List.map_cons]
      rcases Token.ofRun_cases run with ⟨keyword, hkeyword, hread⟩ | ⟨hword, hread⟩
      · rw [hread]
        exact .keyword ⟨rfl, hkeyword, hlongest, by simp⟩ hlater
      · rw [hread]
        exact .word ⟨rfl, ⟨hrun, hunbroken⟩, hlongest, fun _ => hword⟩ hlater
termination_by text.length
decreasing_by
  subst_vars
  simpa [List.length_pos_iff] using hrun

/-! ### Maximal runs -/

/-- A part of a text that is not empty, has no blanks and could not be longer, with the text before
and after it. -/
structure IsRun (text before run after : List Char) : Prop where
  text_eq : text = before ++ run ++ after
  ne_nil : run ≠ []
  unbroken : ∀ c ∈ run, ¬ isSeparator c
  starts : ∀ c ∈ before.getLast?, isSeparator c
  ends : ∀ c ∈ after.head?, isSeparator c

theorem not_isRun_nil : ¬ IsRun [] before run after := by
  intro hrun
  have hempty := hrun.text_eq
  simp [hrun.ne_nil] at hempty

/-- A blank at the beginning of a text belongs to no run. -/
theorem isRun_cons_iff (hblank : isSeparator c) :
    IsRun (c :: rest) before run after ↔
      ∃ earlier, before = c :: earlier ∧ IsRun rest earlier run after := by
  constructor
  · rintro ⟨htext, hne, hrun, hstart, hend⟩
    cases before with
    | nil =>
      obtain ⟨first, run, rfl⟩ := List.exists_cons_of_ne_nil hne
      obtain ⟨rfl, -⟩ := List.cons.inj htext
      exact absurd hblank (hrun c List.mem_cons_self)
    | cons first earlier =>
      obtain ⟨rfl, hrest⟩ := List.cons.inj htext
      refine ⟨earlier, rfl, hrest, hne, hrun, fun last hlast => hstart last ?_, hend⟩
      rw [List.getLast?_cons, Option.mem_def.mp hlast]
      rfl
  · rintro ⟨earlier, rfl, hrest, hne, hrun, hstart, hend⟩
    refine ⟨congrArg (c :: ·) hrest, hne, hrun, fun last hlast => ?_, hend⟩
    rw [List.getLast?_cons, Option.mem_some_iff] at hlast
    subst hlast
    cases hearlier : earlier.getLast? with
    | none => exact hblank
    | some last => exact hstart last hearlier

/-- If a text begins with a run, then the other runs are those of the rest. -/
theorem isRun_append_iff {first : List Char} (hne : first ≠ [])
    (hfirst : ∀ c ∈ first, ¬ isSeparator c) (hend : ∀ c ∈ rest.head?, isSeparator c) :
    IsRun (first ++ rest) before run after ↔
      before = [] ∧ run = first ∧ after = rest ∨
        ∃ earlier, before = first ++ earlier ∧ IsRun rest earlier run after := by
  constructor
  · intro hrun
    rcases List.eq_nil_or_concat before with rfl | ⟨shorter, last, rfl⟩
    · have htext : first ++ rest = run ++ after := hrun.text_eq
      have hcut := Text.splitRuns_append hfirst hend
      rw [htext, Text.splitRuns_append hrun.unbroken hrun.ends] at hcut
      obtain ⟨rfl, -⟩ := Prod.mk.inj hcut
      exact .inl ⟨rfl, rfl, (List.append_cancel_left htext).symm⟩
    · right
      have hlast : isSeparator last := hrun.starts last (by simp)
      have htext := hrun.text_eq
      rw [List.append_assoc] at htext
      rcases List.append_eq_append_iff.mp htext with ⟨earlier, hbefore, hrest⟩ | ⟨more, hlater, -⟩
      · refine ⟨earlier, hbefore, ?_, hrun.ne_nil, hrun.unbroken, fun c hc => ?_, hrun.ends⟩
        · rw [hrest, List.append_assoc]
        · apply hrun.starts
          rw [hbefore, List.getLast?_append, Option.mem_def.mp hc]
          rfl
      · exact absurd hlast (hfirst last (by simp [hlater]))
  · rintro (⟨rfl, rfl, rfl⟩ | ⟨earlier, rfl, hrun⟩)
    · exact ⟨rfl, hne, hfirst, by simp, hend⟩
    · refine ⟨by rw [hrun.text_eq]; simp, hrun.ne_nil, hrun.unbroken, fun c hc => ?_, hrun.ends⟩
      rw [List.getLast?_append] at hc
      cases hearlier : earlier.getLast? with
      | some last =>
        rw [hearlier] at hc
        exact hrun.starts c (hearlier.trans hc)
      | none =>
        -- the run would follow the first one without a blank
        obtain rfl := List.getLast?_eq_none_iff.mp hearlier
        obtain ⟨start, run, rfl⟩ := List.exists_cons_of_ne_nil hrun.ne_nil
        have hstart : start ∈ rest.head? := by simp [hrun.text_eq]
        exact absurd (hend start hstart) (hrun.unbroken start List.mem_cons_self)

/-- There is a token for each run, which ends where the run ends. -/
theorem mem_lexFrom_iff :
    lexeme ∈ lexFrom offset [] text ↔ ∃ before run after, IsRun text before run after ∧
      lexeme = ⟨Token.ofRun run, offset + byteCount (before ++ run)⟩ := by
  have hseparated := Text.separated_runs isSeparator text
  generalize Text.runs isSeparator text = runs at hseparated
  induction hseparated generalizing offset with
  | finish => simp [lexFrom, not_isRun_nil]
  | @skip c rest _ hblank _ ih =>
    have hcount : ∀ before run, offset + byteCount (c :: before ++ run) =
        offset + byteCount [c] + byteCount (before ++ run) := by
      intro before run
      simp only [List.cons_append, byteCount]
      omega
    rw [← List.singleton_append, lexFrom_append_blanks (by simpa using hblank)]
    refine ih.trans ?_
    simp only [List.singleton_append, isRun_cons_iff hblank]
    constructor
    · rintro ⟨earlier, run, after, hrun, rfl⟩
      exact ⟨c :: earlier, run, after, ⟨earlier, rfl, hrun⟩, by rw [hcount]⟩
    · rintro ⟨_, run, after, ⟨earlier, rfl, hrun⟩, rfl⟩
      exact ⟨earlier, run, after, hrun, by rw [hcount]⟩
  | @run first rest _ hne hfirst hend _ ih =>
    rw [lexFrom_append_run hne hfirst hend, List.mem_cons]
    refine (or_congr_right ih).trans ?_
    simp only [isRun_append_iff hne hfirst hend]
    constructor
    · rintro (rfl | ⟨earlier, run, after, hrun, rfl⟩)
      · exact ⟨[], first, rest, .inl ⟨rfl, rfl, rfl⟩, rfl⟩
      · exact ⟨first ++ earlier, run, after, .inr ⟨earlier, rfl, hrun⟩, by
          rw [List.append_assoc, byteCount_append first, Nat.add_assoc]⟩
    · rintro ⟨_, run, after, ⟨rfl, rfl, rfl⟩ | ⟨earlier, rfl, hrun⟩, rfl⟩
      · exact .inl rfl
      · exact .inr ⟨earlier, run, after, hrun, by
          rw [List.append_assoc, byteCount_append first, Nat.add_assoc]⟩

theorem byteCount_pos (hne : run ≠ []) : 0 < byteCount run := by
  obtain ⟨c, run, rfl⟩ := List.exists_cons_of_ne_nil hne
  exact Nat.add_pos_left c.utf8Size_pos _

theorem lt_stop_of_mem_lexFrom (hmem : lexeme ∈ lexFrom offset [] text) : offset < lexeme.stop := by
  obtain ⟨before, run, after, hrun, rfl⟩ := mem_lexFrom_iff.mp hmem
  exact Nat.lt_add_of_pos_right (byteCount_pos (by simp [hrun.ne_nil]))

theorem pairwise_stop_lexFrom (offset : Nat) (text : List Char) :
    (lexFrom offset [] text).Pairwise (·.stop < ·.stop) := by
  have hseparated := Text.separated_runs isSeparator text
  generalize Text.runs isSeparator text = runs at hseparated
  induction hseparated generalizing offset with
  | finish => exact .nil
  | skip hblank _ ih =>
    rw [← List.singleton_append, lexFrom_append_blanks (by simpa using hblank)]
    exact ih _
  | run hne hrun hend _ ih =>
    rw [lexFrom_append_run hne hrun hend]
    exact .cons (fun _ hmem => lt_stop_of_mem_lexFrom hmem) (ih _)

/-! ### Layouts -/

/-- Tokens with blanks before, between and after them. -/
structure Layout where
  /-- the blanks before the first token -/
  lead : List Char
  /-- the tokens, each with the blanks after it -/
  pieces : List (Token × List Char)
  lead_blank : ∀ c ∈ lead, isSeparator c
  legible : ∀ piece ∈ pieces, piece.1.Legible
  gap_blank : ∀ piece ∈ pieces, ∀ c ∈ piece.2, isSeparator c
  /-- only after the last token there may be none -/
  gap_ne_nil : ∀ piece ∈ pieces.dropLast, piece.2 ≠ []

/-- The tokens without the blanks. -/
def Layout.tokens (layout : Layout) : List Token :=
  layout.pieces.map Prod.fst

/-- The tokens as they are written, each followed by its blanks. -/
def writtenPieces (pieces : List (Token × List Char)) : List Char :=
  pieces.flatMap fun piece => piece.1.text.toList ++ piece.2

/-- The whole text of a layout. -/
def Layout.written (layout : Layout) : List Char :=
  layout.lead ++ writtenPieces layout.pieces

theorem separated_writtenPieces {pieces : List (Token × List Char)}
    (hlegible : ∀ piece ∈ pieces, piece.1.Legible)
    (hblank : ∀ piece ∈ pieces, ∀ c ∈ piece.2, isSeparator c)
    (hgap : ∀ piece ∈ pieces.dropLast, piece.2 ≠ []) :
    Text.Separated isSeparator (writtenPieces pieces)
      (pieces.map fun piece => piece.1.text.toList) := by
  induction pieces with
  | nil => exact .finish
  | cons piece pieces ih =>
    obtain ⟨token, gap⟩ := piece
    obtain ⟨hfirst, hlegible⟩ := List.forall_mem_cons.mp hlegible
    obtain ⟨hfirstBlank, hblank⟩ := List.forall_mem_cons.mp hblank
    have hgaps : pieces ≠ [] → gap ≠ [] ∧ ∀ piece ∈ pieces.dropLast, piece.2 ≠ [] := by
      intro hpieces
      rw [List.dropLast_cons_of_ne_nil hpieces] at hgap
      exact List.forall_mem_cons.mp hgap
    have hlater : Text.Separated isSeparator (writtenPieces pieces)
        (pieces.map fun piece => piece.1.text.toList) := by
      apply ih hlegible hblank
      cases pieces with
      | nil => exact List.forall_mem_nil _
      | cons next pieces => exact (hgaps (List.cons_ne_nil _ _)).2
    have hend : ∀ c ∈ (gap ++ writtenPieces pieces).head?, isSeparator c := by
      cases gap with
      | cons c gap => simpa using hfirstBlank c List.mem_cons_self
      | nil =>
        cases pieces with
        | nil => simp [writtenPieces]
        | cons next pieces => exact absurd rfl (hgaps (List.cons_ne_nil _ _)).1
    obtain ⟨hne, hrun⟩ := hfirst.unbroken_text
    have hseparated := Text.Separated.run hne hrun hend (hlater.append_blanks hfirstBlank)
    rwa [← List.append_assoc] at hseparated

theorem Layout.separated (layout : Layout) :
    Text.Separated isSeparator layout.written
      (layout.pieces.map fun piece => piece.1.text.toList) :=
  (separated_writtenPieces layout.legible layout.gap_blank layout.gap_ne_nil).append_blanks
    layout.lead_blank

/-- A layout is read as its tokens. -/
theorem Layout.map_token_lexFrom (layout : Layout) :
    (lexFrom offset [] layout.written).map Lexeme.token = layout.tokens := by
  rw [Metamath.map_token_lexFrom layout.separated, tokens, List.map_map]
  exact List.map_congr_left fun piece hpiece => (layout.legible piece hpiece).ofRun_text

/-- A layout that starts with a token starts with a character that is not blank. -/
theorem Layout.lead_ne_nil (layout : Layout) (hpieces : layout.pieces ≠ [])
    (hhead : ∀ c ∈ layout.written.head?, isSeparator c) : layout.lead ≠ [] := by
  intro hlead
  obtain ⟨⟨token, gap⟩, pieces, heq⟩ := List.exists_cons_of_ne_nil hpieces
  obtain ⟨hne, hrun⟩ := (layout.legible (token, gap) (by simp [heq])).unbroken_text
  obtain ⟨first, run, htext⟩ := List.exists_cons_of_ne_nil hne
  refine hrun first (by simp [htext]) (hhead first ?_)
  simp [written, writtenPieces, hlead, heq, htext]

/-- Every text is a layout of the tokens that it is cut into. -/
theorem exists_layout (hseparated : Text.Separated isSeparator text runs) :
    ∃ layout : Layout, layout.written = text ∧ layout.tokens = runs.map Token.ofRun := by
  induction hseparated with
  | finish => exact ⟨⟨[], [], by simp, by simp, by simp, by simp⟩, rfl, rfl⟩
  | @skip c rest runs hblank _ ih =>
    obtain ⟨layout, hwritten, htokens⟩ := ih
    have hlead : ∀ blank ∈ c :: layout.lead, isSeparator blank :=
      List.forall_mem_cons.mpr ⟨hblank, layout.lead_blank⟩
    exact ⟨{ layout with lead := c :: layout.lead, lead_blank := hlead },
      congrArg (c :: ·) hwritten, htokens⟩
  | @run run rest runs hne hrun hend _ ih =>
    obtain ⟨layout, rfl, htokens⟩ := ih
    refine ⟨⟨[], (Token.ofRun run, layout.lead) :: layout.pieces, List.forall_mem_nil _,
      ?_, ?_, ?_⟩, ?_, ?_⟩
    · exact List.forall_mem_cons.mpr ⟨Token.legible_ofRun hne hrun, layout.legible⟩
    · exact List.forall_mem_cons.mpr ⟨layout.lead_blank, layout.gap_blank⟩
    · by_cases hpieces : layout.pieces = []
      · simp [hpieces]
      · rw [List.dropLast_cons_of_ne_nil hpieces]
        exact List.forall_mem_cons.mpr ⟨layout.lead_ne_nil hpieces hend, layout.gap_ne_nil⟩
    · simp [Layout.written, writtenPieces, Token.text_ofRun]
    · exact congrArg (Token.ofRun run :: ·) htokens

/-- The tokens that a text is cut into are those that the lexical rules find, without a fault. There
is one token for each maximal run, in order; it ends where the run ends, it is written like the run,
and it is a keyword if there is one that is written like this and a word otherwise. A text has the
tokens of any layout that it is the text of, and it is the text of such a layout. -/
theorem lex_finds_tokens (source : String) :
    (∀ items, Scans 0 source.toList items ↔ items = (lex source).map .ok) ∧
    (lex source).Pairwise (·.stop < ·.stop) ∧
    (∀ lexeme, lexeme ∈ lex source ↔ ∃ before run after, IsRun source.toList before run after ∧
      lexeme.token.text = String.ofList run ∧ lexeme.token.IsReadFrom run ∧
      lexeme.stop = (String.ofList (before ++ run)).utf8ByteSize) ∧
    ∀ tokens, (lex source).map Lexeme.token = tokens ↔
      ∃ layout : Layout, layout.written = source.toList ∧ layout.tokens = tokens := by
  refine ⟨fun items => ⟨Scans.eq_lexFrom, ?_⟩, pairwise_stop_lexFrom 0 _, fun lexeme => ?_,
    fun tokens => ⟨?_, ?_⟩⟩
  · rintro rfl
    exact scans_lexFrom 0 _
  · refine mem_lexFrom_iff.trans ?_
    simp only [utf8ByteSize_eq_byteCount, String.toList_ofList, Nat.zero_add]
    constructor
    · rintro ⟨before, run, after, hrun, rfl⟩
      exact ⟨before, run, after, hrun, Token.text_ofRun run, Token.isReadFrom_iff.mpr rfl, rfl⟩
    · rintro ⟨before, run, after, hrun, -, hread, hstop⟩
      refine ⟨before, run, after, hrun, ?_⟩
      rw [← Token.isReadFrom_iff.mp hread, ← hstop]
  · rintro rfl
    obtain ⟨layout, hwritten, htokens⟩ := exists_layout (Text.separated_runs isSeparator _)
    exact ⟨layout, hwritten, htokens.trans (map_token_lexFrom (Text.separated_runs _ _)).symm⟩
  · rintro ⟨layout, hwritten, rfl⟩
    rw [lex, ← hwritten, layout.map_token_lexFrom]

/-- Four tokens, two of which are words that begin like keywords. -/
def mixedLayout : Layout where
  lead := ['\t']
  pieces := [(.word "$cx", [' ', '\x0c']), (.word "ä", ['\r', '\n']), (.keyword .terminator, [' ']),
    (.word "$", [])]
  lead_blank := by simp [isSeparator]
  legible := by decide
  gap_blank := by simp [isSeparator]
  gap_ne_nil := by simp

theorem lex_finds_tokens_mixed :
    (lex "\t$cx \x0cä\r\n$. $").map Lexeme.token =
      [.word "$cx", .word "ä", .keyword .terminator, .word "$"] ∧
    ⟨.word "ä", 8⟩ ∈ lex "\t$cx \x0cä\r\n$. $" := by
  obtain ⟨-, -, hruns, hlayouts⟩ := lex_finds_tokens "\t$cx \x0cä\r\n$. $"
  refine ⟨(hlayouts _).mpr ⟨mixedLayout, by decide, rfl⟩, (hruns _).mpr ?_⟩
  refine ⟨"\t$cx \x0c".toList, ['ä'], "\r\n$. $".toList, ?_, rfl, ?_, by decide⟩
  · exact ⟨by decide, by simp, by simp [isSeparator], by simp [isSeparator], by simp [isSeparator]⟩
  · exact Token.isReadFrom_iff.mpr rfl

end Metamath
