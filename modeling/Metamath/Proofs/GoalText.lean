import Metamath.Goal
import Metamath.Proofs.Words

/-!
# Goals as texts

A goal is printed flat: its premises follow one another, and nothing but the turnstile that each of
them starts with tells where one ends and the next one begins. So a list of premises can be read
back exactly if every premise has its one turnstile in front. The brackets are ordinary words, too.
The first closing bracket ends the premises, hence no premise may hold one; a conclusion may hold
whatever it likes.

Printing and reading are inverse to each other on the goals that meet these conditions, and no other
goals can be read.
-/

namespace Metamath

/-- The statement starts with a turnstile and holds no other one. -/
def IsPremise (statement : Statement) : Prop :=
  statement.head? = some "|-" ∧ "|-" ∉ statement.tail

instance (statement : Statement) : Decidable (IsPremise statement) :=
  inferInstanceAs (Decidable (_ ∧ _))

section

variable {statement initial words rest : List Symbol} {premises : List Statement}

theorem isPremise_iff : IsPremise statement ↔ ∃ rest, statement = "|-" :: rest ∧ "|-" ∉ rest := by
  cases statement with
  | nil => simp [IsPremise]
  | cons first rest => simp [IsPremise]

theorem IsPremise.ne_nil (hpremise : IsPremise statement) : statement ≠ [] := by
  rintro rfl
  cases hpremise.1

/-! ### Cutting before turnstiles -/

theorem cutTurnstiles_turnstile (rest : List Symbol) :
    cutTurnstiles ("|-" :: rest) =
      ([], ("|-" :: (cutTurnstiles rest).1) :: (cutTurnstiles rest).2) :=
  rfl

theorem cutTurnstiles_word {word : Symbol} (hword : word ≠ "|-") (rest : List Symbol) :
    cutTurnstiles (word :: rest) = (word :: (cutTurnstiles rest).1, (cutTurnstiles rest).2) := by
  simp only [cutTurnstiles, if_neg hword]

theorem cutTurnstiles_append (hinitial : "|-" ∉ initial) (rest : List Symbol) :
    cutTurnstiles (initial ++ rest) =
      (initial ++ (cutTurnstiles rest).1, (cutTurnstiles rest).2) := by
  induction initial with
  | nil => rfl
  | cons word initial ih =>
    rw [List.mem_cons, not_or] at hinitial
    rw [List.cons_append, cutTurnstiles_word (Ne.symm hinitial.1), ih hinitial.2]
    rfl

theorem cutTurnstiles_flatten (hpremises : ∀ premise ∈ premises, IsPremise premise) :
    cutTurnstiles premises.flatten = ([], premises) := by
  induction premises with
  | nil => rfl
  | cons premise premises ih =>
    obtain ⟨hpremise, hlater⟩ := List.forall_mem_cons.mp hpremises
    obtain ⟨rest, rfl, hrest⟩ := isPremise_iff.mp hpremise
    rw [List.flatten_cons, List.cons_append, cutTurnstiles_turnstile, cutTurnstiles_append hrest,
      ih hlater, List.append_nil]

theorem cutTurnstiles_sound (words : List Symbol) :
    words = (cutTurnstiles words).1 ++ (cutTurnstiles words).2.flatten ∧
      "|-" ∉ (cutTurnstiles words).1 ∧
      ∀ premise ∈ (cutTurnstiles words).2, IsPremise premise := by
  induction words with
  | nil => exact ⟨rfl, List.not_mem_nil, List.forall_mem_nil _⟩
  | cons word words ih =>
    obtain ⟨happend, hinitial, hpremises⟩ := ih
    by_cases hword : word = "|-"
    · subst hword
      rw [cutTurnstiles_turnstile]
      refine ⟨congrArg ("|-" :: ·) happend, List.not_mem_nil, ?_⟩
      exact List.forall_mem_cons.mpr ⟨isPremise_iff.mpr ⟨_, rfl, hinitial⟩, hpremises⟩
    · rw [cutTurnstiles_word hword]
      refine ⟨congrArg (word :: ·) happend, ?_, hpremises⟩
      rw [List.mem_cons, not_or]
      exact ⟨Ne.symm hword, hinitial⟩

/-- Premises that each have their one turnstile in front can be recovered from what they make
together. -/
theorem cutTurnstiles_eq_iff :
    cutTurnstiles words = ([], premises) ↔
      words = premises.flatten ∧ ∀ premise ∈ premises, IsPremise premise := by
  constructor
  · intro hcut
    obtain ⟨happend, -, hpremises⟩ := cutTurnstiles_sound words
    rw [hcut] at happend hpremises
    exact ⟨happend, hpremises⟩
  · rintro ⟨rfl, hpremises⟩
    exact cutTurnstiles_flatten hpremises

theorem flatten_injOn_isPremise {others : List Statement}
    (hpremises : ∀ premise ∈ premises, IsPremise premise)
    (hothers : ∀ premise ∈ others, IsPremise premise) :
    premises.flatten = others.flatten ↔ premises = others := by
  constructor
  · intro hflatten
    have hcut := cutTurnstiles_flatten hpremises
    rw [hflatten, cutTurnstiles_flatten hothers] at hcut
    exact (congrArg Prod.snd hcut).symm
  · exact congrArg List.flatten

theorem premises?_eq_some_iff :
    premises? words = some (premises, rest) ↔
      words = "[[" :: (premises.flatten ++ "]]" :: rest) ∧ "]]" ∉ premises.flatten ∧
        ∀ premise ∈ premises, IsPremise premise := by
  constructor
  · intro hread
    rw [premises?.eq_def] at hread
    split at hread
    · split at hread
      · cases hread
      · next inside after hcut =>
        split at hread
        · next found hpremises =>
          cases hread
          obtain ⟨happend, hinside⟩ := cutAt?_eq_some_iff.mp hcut
          obtain ⟨rfl, hfound⟩ := cutTurnstiles_eq_iff.mp hpremises
          exact ⟨congrArg ("[[" :: ·) happend, hinside, hfound⟩
        · cases hread
    · cases hread
  · rintro ⟨rfl, hinside, hpremises⟩
    simp only [premises?, cutAt?_append hinside, cutTurnstiles_flatten hpremises]

end

/-! ### Printing -/

/-- The words of a printed goal. -/
def Goal.words (goal : Goal) : List Symbol :=
  "[[" :: (goal.premises.flatten ++ "]]" :: goal.conclusion)

theorem join_append_intercalate {hypotheses : List Statement} {rest : List Symbol}
    (hhypotheses : ∀ hypothesis ∈ hypotheses, hypothesis ≠ []) (hrest : rest ≠ []) :
    String.join (hypotheses.map fun hypothesis => " " ++ Statement.text hypothesis) ++
        (" " ++ String.intercalate " " rest) =
      " " ++ String.intercalate " " (hypotheses.flatten ++ rest) := by
  induction hypotheses with
  | nil => rfl
  | cons hypothesis hypotheses ih =>
    obtain ⟨hhypothesis, hlater⟩ := List.forall_mem_cons.mp hhypotheses
    have happend : hypotheses.flatten ++ rest ≠ [] := List.append_ne_nil_of_right_ne_nil _ hrest
    calc String.join ((hypothesis :: hypotheses).map fun hypothesis =>
            " " ++ Statement.text hypothesis) ++ (" " ++ String.intercalate " " rest)
        = " " ++ Statement.text hypothesis ++
            (String.join (hypotheses.map fun hypothesis => " " ++ Statement.text hypothesis) ++
              (" " ++ String.intercalate " " rest)) := by
          rw [List.map_cons, String.join_cons, String.append_assoc]
      _ = " " ++ (String.intercalate " " hypothesis ++ " " ++
            String.intercalate " " (hypotheses.flatten ++ rest)) := by
          rw [ih hlater, Statement.text, String.append_assoc, String.append_assoc]
      _ = " " ++ String.intercalate " " ((hypothesis :: hypotheses).flatten ++ rest) := by
          rw [← String.intercalate_append_of_ne_nil hhypothesis happend, List.flatten_cons,
            List.append_assoc]

/-- A goal is printed word by word, with single spaces between the words. -/
theorem Goal.text_eq_intercalate {goal : Goal}
    (hpremises : ∀ premise ∈ goal.premises, premise ≠ []) (hconclusion : goal.conclusion ≠ []) :
    goal.text = String.intercalate " " goal.words := by
  have hrest : "]]" :: goal.conclusion ≠ [] := List.cons_ne_nil _ _
  have hwords : goal.premises.flatten ++ "]]" :: goal.conclusion ≠ [] :=
    List.append_ne_nil_of_right_ne_nil _ hrest
  calc goal.text
      = "[[" ++ (String.join (goal.premises.map fun premise => " " ++ Statement.text premise) ++
          (" " ++ String.intercalate " " ("]]" :: goal.conclusion))) := by
        rw [String.intercalate_cons_of_ne_nil hconclusion, Goal.text, sequentText]
        simp only [Statement.text, String.append_assoc]
        rfl
    _ = String.intercalate " " goal.words := by
        rw [join_append_intercalate hpremises hrest, Goal.words,
          String.intercalate_cons_of_ne_nil hwords, String.append_assoc]

/-! ### Reading -/

namespace Goal

/-- Premises that can be told apart, and a conclusion that can be seen. -/
structure Delimited (goal : Goal) : Prop where
  premises : ∀ premise ∈ goal.premises, IsPremise premise ∧ "]]" ∉ premise
  conclusion : goal.conclusion ≠ []

/-- A delimited goal whose symbols are words. -/
structure Legible (goal : Goal) : Prop extends goal.Delimited where
  symbols : ∀ statement ∈ goal.conclusion :: goal.premises, ∀ symbol ∈ statement,
    Text.IsWord symbol

variable {goal : Goal}

theorem delimited_iff :
    goal.Delimited ↔ "]]" ∉ goal.premises.flatten ∧
      (∀ premise ∈ goal.premises, IsPremise premise) ∧ goal.conclusion ≠ [] := by
  simp only [List.mem_flatten, not_exists, not_and]
  constructor
  · intro hdelimited
    exact ⟨fun premise hpremise => (hdelimited.premises premise hpremise).2,
      fun premise hpremise => (hdelimited.premises premise hpremise).1, hdelimited.conclusion⟩
  · rintro ⟨hclosed, hpremises, hconclusion⟩
    exact ⟨fun premise hpremise => ⟨hpremises premise hpremise, hclosed premise hpremise⟩,
      hconclusion⟩

theorem ofWords?_eq_some_iff {words : List Symbol} :
    ofWords? words = some goal ↔ words = goal.words ∧ goal.Delimited := by
  obtain ⟨premises, conclusion⟩ := goal
  rw [delimited_iff]
  constructor
  · intro hread
    rw [ofWords?] at hread
    split at hread
    · next found first rest hfound =>
      cases hread
      obtain ⟨hwords, hclosed, hpremises⟩ := premises?_eq_some_iff.mp hfound
      exact ⟨hwords, hclosed, hpremises, List.cons_ne_nil first rest⟩
    · cases hread
  · rintro ⟨hwords, hclosed, hpremises, hconclusion⟩
    obtain ⟨first, rest, rfl⟩ := List.exists_cons_of_ne_nil hconclusion
    rw [ofWords?, premises?_eq_some_iff.mpr ⟨hwords, hclosed, hpremises⟩]

theorem parse_eq_ok_iff {text : String} :
    parse text = .ok goal ↔ Text.words text = goal.words ∧ goal.Delimited := by
  rw [← ofWords?_eq_some_iff, parse]
  cases ofWords? (Text.words text) with
  | none => simp
  | some found => simp

theorem Delimited.text_eq (hdelimited : goal.Delimited) :
    goal.text = String.intercalate " " goal.words :=
  text_eq_intercalate (fun premise hpremise => (hdelimited.premises premise hpremise).1.ne_nil)
    hdelimited.conclusion

theorem mem_words_iff {word : Symbol} :
    word ∈ goal.words ↔ word = "[[" ∨ word = "]]" ∨
      ∃ statement ∈ goal.conclusion :: goal.premises, word ∈ statement := by
  simp only [words, List.mem_cons, List.mem_append, List.mem_flatten, exists_eq_or_imp]
  exact or_congr_right (or_comm.trans or_assoc)

theorem Legible.isWord (hlegible : goal.Legible) : ∀ word ∈ goal.words, Text.IsWord word := by
  intro word hword
  rcases mem_words_iff.mp hword with rfl | rfl | ⟨statement, hstatement, hsymbol⟩
  · decide
  · decide
  · exact hlegible.symbols statement hstatement word hsymbol

theorem Legible.parse_text (hlegible : goal.Legible) : parse goal.text = .ok goal := by
  refine parse_eq_ok_iff.mpr ⟨?_, hlegible.toDelimited⟩
  rw [hlegible.text_eq, Text.words_intercalate hlegible.isWord]

theorem legible_of_parse {text : String} (hparse : parse text = .ok goal) : goal.Legible := by
  obtain ⟨hwords, hdelimited⟩ := parse_eq_ok_iff.mp hparse
  refine ⟨hdelimited, fun statement hstatement symbol hsymbol => ?_⟩
  apply Text.isWord_of_mem_words
  rw [hwords]
  exact mem_words_iff.mpr (.inr (.inr ⟨statement, hstatement, hsymbol⟩))

/-- A goal of words, with its premises told apart by their turnstiles and free of closing brackets,
and with a conclusion that is not empty, is read back from its text. Conversely, only such goals are
ever read, and the text of a goal that was read has the words it was read from, with single spaces
between them. So to print what was read and to read it again changes nothing. -/
theorem parse_text_inverse :
    (∀ goal : Goal, goal.Legible → parse goal.text = .ok goal) ∧
      ∀ (text : String) (goal : Goal), parse text = .ok goal →
        goal.text = String.intercalate " " (Text.words text) ∧ goal.Legible ∧
          parse goal.text = .ok goal := by
  refine ⟨fun goal hlegible => hlegible.parse_text, fun text goal hparse => ?_⟩
  have hlegible := legible_of_parse hparse
  refine ⟨?_, hlegible, hlegible.parse_text⟩
  rw [hlegible.text_eq, (parse_eq_ok_iff.mp hparse).1]

/-- A premise that is a mere turnstile, a premise with an opening bracket, and a conclusion that
starts with the bracket that closes premises. -/
def bracketed : Goal :=
  ⟨[["|-"], ["|-", "[[", "ph"]], ["]]", "|-", "[["]⟩

theorem parse_text_inverse_bracketed :
    bracketed.Legible ∧ bracketed.text = "[[ |- |- [[ ph ]] ]] |- [[" ∧
      parse "[[ |- |- [[ ph ]] ]] |- [[" = .ok bracketed ∧
      parse " [[\n|-  |- [[ ph\t]] ]] |- [[ " = .ok bracketed ∧
      parse bracketed.text = .ok bracketed := by
  have htext : bracketed.text = "[[ |- |- [[ ph ]] ]] |- [[" := by decide +kernel
  have hspaced : parse " [[\n|-  |- [[ ph\t]] ]] |- [[ " = .ok bracketed := by decide +kernel
  obtain ⟨-, hlegible, hparse⟩ := parse_text_inverse.2 _ bracketed hspaced
  exact ⟨hlegible, htext, htext ▸ parse_text_inverse.1 bracketed hlegible, hspaced, hparse⟩

end Goal

end Metamath
