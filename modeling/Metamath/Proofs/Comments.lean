import Mathlib.Data.List.Infix
import Metamath.Token.Comment

/-!
# Flat comments

Comments are removed by following the tokens one after another and remembering only whether the
last ones were inside of a comment. What is accepted can be said without following anything: the
tokens are a sequence of pieces, each of which is a token outside of comments or a whole comment
whose text holds no delimiter. Exactly then no fault is found, and what is left are the pieces that
are single tokens.

In any other list of tokens there is a first comment that is not such a piece. It is reported once,
after all tokens before it. Its rest is not skipped: what comes behind the token that gave the fault
away is read as if the comment had ended there.
-/

namespace Metamath

/-- A token that must not occur inside of a comment: the opening delimiter, or a word that one of
the two delimiters occurs in. -/
def Token.Offends : Token → Prop
  | .keyword k => k = .commentOpen
  | .word w => ['$', '('] <:+: w.toList ∨ ['$', ')'] <:+: w.toList

/-- A token that neither ends a comment nor must not occur in one. -/
def Token.IsCommentText (token : Token) : Prop :=
  token ≠ .keyword .commentClose ∧ ¬ token.Offends

/-- A token outside of comments, or a comment. -/
inductive Piece where
  | token (lexeme : Lexeme) (outside : lexeme.token ≠ .keyword .commentOpen)
  | comment (opening : Lexeme) (text : List Lexeme) (closing : Lexeme)
      (opens : opening.token = .keyword .commentOpen)
      (flat : ∀ lexeme ∈ text, lexeme.token.IsCommentText)
      (closes : closing.token = .keyword .commentClose)

/-- The tokens that a piece consists of. -/
def Piece.lexemes : Piece → List Lexeme
  | token lexeme _ => [lexeme]
  | comment opening text closing _ _ _ => opening :: (text ++ [closing])

/-- What is left of a piece without comments. -/
def Piece.plain : Piece → List Lexeme
  | token lexeme _ => [lexeme]
  | comment _ _ _ _ _ _ => []

/-- The tokens are a sequence of pieces, so all comments among them are flat. -/
def IsFlat (lexemes : List Lexeme) : Prop :=
  ∃ pieces : List Piece, lexemes = pieces.flatMap Piece.lexemes

/-- A token that is handed on as it is. -/
def Lexeme.plain (lexeme : Lexeme) : PlainLexeme :=
  ⟨.ok lexeme.token, lexeme.stop⟩

/-- The first comment that is not flat comes after the given pieces and has the given fault: it goes
on to the end of the tokens, or a token occurs in it that must not. In the second case the tokens
behind that one are left. -/
inductive FirstFault (length : Nat) (pieces : List Piece) :
    List Lexeme → PlainLexeme → List Lexeme → Prop where
  | unclosed {opening : Lexeme} {text : List Lexeme}
      (opens : opening.token = .keyword .commentOpen)
      (flat : ∀ lexeme ∈ text, lexeme.token.IsCommentText) :
      FirstFault length pieces (pieces.flatMap Piece.lexemes ++ opening :: text)
        ⟨.error .unclosed, length⟩ []
  | nested {opening : Lexeme} {text : List Lexeme} {offending : Lexeme} {rest : List Lexeme}
      (opens : opening.token = .keyword .commentOpen)
      (flat : ∀ lexeme ∈ text, lexeme.token.IsCommentText) (offends : offending.token.Offends) :
      FirstFault length pieces
        (pieces.flatMap Piece.lexemes ++ opening :: (text ++ offending :: rest))
        ⟨.error (.nested offending.token.text), offending.stop⟩ rest

/-! ### Delimiters in words -/

/-- A text that starts with a dollar sign starts with the delimiter of this second character, if it
is the next one. -/
theorem prefix_dollar_iff {second c : Char} {text : List Char} :
    ['$', second] <+: c :: text ↔ c = '$' ∧ text.head? = some second := by
  rw [List.cons_prefix_cons, eq_comm]
  apply and_congr_right
  intro _
  cases text with
  | nil => simp
  | cons next text => simp [List.cons_prefix_cons, eq_comm]

theorem holdsDelimiter_iff (text : List Char) :
    holdsDelimiter text ↔ ['$', '('] <:+: text ∨ ['$', ')'] <:+: text := by
  induction text with
  | nil => simp [holdsDelimiter]
  | cons c text ih =>
    rw [List.infix_cons_iff, List.infix_cons_iff, prefix_dollar_iff, prefix_dollar_iff]
    simp only [holdsDelimiter, Bool.or_eq_true, Bool.and_eq_true, beq_iff_eq, ih]
    tauto

theorem Token.nestsComment_iff_offends (token : Token) : token.nestsComment ↔ token.Offends := by
  cases token with
  | keyword k => exact beq_iff_eq (a := k)
  | word w => exact holdsDelimiter_iff w.toList

instance : DecidablePred Token.Offends := fun token =>
  decidable_of_iff token.nestsComment token.nestsComment_iff_offends

instance : DecidablePred Token.IsCommentText := fun token =>
  inferInstanceAs (Decidable (token ≠ .keyword .commentClose ∧ ¬ token.Offends))

theorem Token.Offends.ne_commentClose {token : Token} (hoffends : token.Offends) :
    token ≠ .keyword .commentClose := by
  rintro rfl
  cases hoffends

/-! ### Following the tokens -/

variable {length : Nat} {lexemes rest : List Lexeme}

theorem uncommentFrom_text {text : List Lexeme}
    (hflat : ∀ lexeme ∈ text, lexeme.token.IsCommentText) :
    uncommentFrom length true (text ++ rest) = uncommentFrom length true rest := by
  induction text with
  | nil => rfl
  | cons lexeme text ih =>
    obtain ⟨⟨hclose, hoffends⟩, htext⟩ := List.forall_mem_cons.mp hflat
    rw [← Token.nestsComment_iff_offends] at hoffends
    rw [List.cons_append, uncommentFrom, if_neg hclose, if_neg hoffends, ih htext]

theorem uncomment_opening {opening : Lexeme} (hopens : opening.token = .keyword .commentOpen) :
    uncomment length (opening :: rest) = uncommentFrom length true rest := by
  rw [uncomment, uncommentFrom, if_pos hopens]

theorem uncomment_piece (piece : Piece) :
    uncomment length (piece.lexemes ++ rest) =
      piece.plain.map Lexeme.plain ++ uncomment length rest := by
  cases piece with
  | token lexeme houtside =>
    rw [Piece.lexemes, List.singleton_append, uncomment, uncommentFrom, if_neg houtside]
    rfl
  | comment opening text closing hopens hflat hcloses =>
    rw [Piece.lexemes, List.cons_append, List.append_assoc, List.singleton_append,
      uncomment_opening hopens, uncommentFrom_text hflat, uncommentFrom, if_pos hcloses]
    rfl

/-- Pieces can be read one after another. -/
theorem uncomment_pieces (pieces : List Piece) :
    uncomment length (pieces.flatMap Piece.lexemes ++ rest) =
      (pieces.flatMap Piece.plain).map Lexeme.plain ++ uncomment length rest := by
  induction pieces with
  | nil => rfl
  | cons piece pieces ih =>
    rw [List.flatMap_cons, List.append_assoc, uncomment_piece, ih, List.flatMap_cons,
      List.map_append, List.append_assoc]

theorem uncomment_eq_of_pieces (pieces : List Piece) :
    uncomment length (pieces.flatMap Piece.lexemes) =
      (pieces.flatMap Piece.plain).map Lexeme.plain := by
  rw [← List.append_nil (pieces.flatMap Piece.lexemes), uncomment_pieces]
  exact List.append_nil _

theorem FirstFault.uncomment_eq {pieces : List Piece} {fault : PlainLexeme}
    (hfault : FirstFault length pieces lexemes fault rest) :
    uncomment length lexemes =
      (pieces.flatMap Piece.plain).map Lexeme.plain ++ fault :: uncomment length rest := by
  cases hfault with
  | @unclosed opening text hopens hflat =>
    rw [uncomment_pieces, uncomment_opening hopens, ← List.append_nil text,
      uncommentFrom_text hflat]
    rfl
  | nested hopens hflat hoffends =>
    have hclose := hoffends.ne_commentClose
    rw [uncomment_pieces, uncomment_opening hopens, uncommentFrom_text hflat, uncommentFrom,
      if_neg hclose, if_pos ((Token.nestsComment_iff_offends _).mpr hoffends)]
    rfl

/-! ### Finding the first fault -/

/-- After the text of a comment comes its end, or the end of the tokens, or a token that must not
occur there. -/
theorem exists_commentText (lexemes : List Lexeme) :
    ∃ text, (∀ lexeme ∈ text, lexeme.token.IsCommentText) ∧
      (lexemes = text ∨ ∃ last rest, lexemes = text ++ last :: rest ∧
        (last.token = .keyword .commentClose ∨ last.token.Offends)) := by
  induction lexemes with
  | nil => exact ⟨[], List.forall_mem_nil _, .inl rfl⟩
  | cons lexeme lexemes ih =>
    by_cases htext : lexeme.token.IsCommentText
    · obtain ⟨text, hflat, hend⟩ := ih
      refine ⟨lexeme :: text, List.forall_mem_cons.mpr ⟨htext, hflat⟩, ?_⟩
      rcases hend with rfl | ⟨last, rest, rfl, hlast⟩
      · exact .inl rfl
      · exact .inr ⟨last, rest, rfl, hlast⟩
    · rw [Token.IsCommentText, not_and_or, not_not, not_not] at htext
      exact ⟨[], List.forall_mem_nil _, .inr ⟨lexeme, lexemes, rfl, htext⟩⟩

theorem IsFlat.cons (piece : Piece) (hflat : IsFlat rest) : IsFlat (piece.lexemes ++ rest) := by
  obtain ⟨pieces, rfl⟩ := hflat
  exact ⟨piece :: pieces, rfl⟩

theorem FirstFault.cons {pieces : List Piece} {fault : PlainLexeme} (piece : Piece)
    (hfault : FirstFault length pieces lexemes fault rest) :
    FirstFault length (piece :: pieces) (piece.lexemes ++ lexemes) fault rest := by
  cases hfault with
  | unclosed hopens hflat =>
    rw [← List.append_assoc, ← List.flatMap_cons]
    exact .unclosed hopens hflat
  | nested hopens hflat hoffends =>
    rw [← List.append_assoc, ← List.flatMap_cons]
    exact .nested hopens hflat hoffends

theorem isFlat_or_exists_firstFault (length : Nat) (lexemes : List Lexeme) :
    IsFlat lexemes ∨ ∃ pieces fault rest, FirstFault length pieces lexemes fault rest := by
  -- pieces are split off at the front, and a comment can be longer than one token
  induction hsize : lexemes.length using Nat.strong_induction_on generalizing lexemes with
  | _ size ih =>
    have hpiece : ∀ (piece : Piece) (after : List Lexeme), lexemes = piece.lexemes ++ after →
        after.length < size →
        IsFlat lexemes ∨ ∃ pieces fault rest, FirstFault length pieces lexemes fault rest := by
      rintro piece after rfl hless
      rcases ih after.length hless after rfl with hflat | ⟨pieces, fault, rest, hfault⟩
      · exact .inl (hflat.cons piece)
      · exact .inr ⟨piece :: pieces, fault, rest, hfault.cons piece⟩
    cases lexemes with
    | nil => exact .inl ⟨[], rfl⟩
    | cons first following =>
      rw [List.length_cons] at hsize
      by_cases hopens : first.token = .keyword .commentOpen
      · obtain ⟨text, hflat, rfl | ⟨last, after, rfl, hlast⟩⟩ := exists_commentText following
        · exact .inr ⟨[], _, [], .unclosed hopens hflat⟩
        · rcases hlast with hcloses | hoffends
          · refine hpiece (.comment first text last hopens hflat hcloses) after ?_ ?_
            · simp [Piece.lexemes]
            · rw [List.length_append, List.length_cons] at hsize
              omega
          · exact .inr ⟨[], _, after, .nested hopens hflat hoffends⟩
      · exact hpiece (.token first hopens) following rfl (by omega)

/-- A fault is found in a place where it was not possible to go on with pieces. -/
theorem forall_ok_iff_isFlat :
    (∀ item ∈ uncomment length lexemes, ∃ token, item.content = .ok token) ↔ IsFlat lexemes := by
  constructor
  · intro hok
    apply (isFlat_or_exists_firstFault length lexemes).resolve_right
    rintro ⟨pieces, fault, rest, hfault⟩
    rw [hfault.uncomment_eq] at hok
    obtain ⟨token, htoken⟩ := hok fault (List.mem_append_right _ List.mem_cons_self)
    cases hfault <;> cases htoken
  · rintro ⟨pieces, rfl⟩ item hitem
    rw [uncomment_eq_of_pieces] at hitem
    obtain ⟨lexeme, -, rfl⟩ := List.mem_map.mp hitem
    exact ⟨lexeme.token, rfl⟩

/-- At most one item is yielded for each token, and one for a comment that is open already. -/
theorem length_uncommentFrom_le (inComment : Bool) (lexemes : List Lexeme) :
    (uncommentFrom length inComment lexemes).length ≤ lexemes.length + inComment.toNat := by
  fun_induction uncommentFrom length inComment lexemes with
  | case1 => exact Nat.le_refl _
  | case2 => exact Nat.le_refl _
  | case3 lexeme rest hopens ih => exact ih
  | case4 lexeme rest hopens ih => exact Nat.succ_le_succ ih
  | case5 lexeme rest hcloses ih => exact Nat.le_succ_of_le (Nat.le_succ_of_le ih)
  | case6 lexeme rest hcloses hnests ih => exact Nat.succ_le_succ (Nat.le_succ_of_le ih)
  | case7 lexeme rest hcloses hnests ih => exact Nat.le_succ_of_le ih

/-- No fault is found in a list of tokens if and only if it is a sequence of tokens outside of
comments and comments whose text holds no delimiter; then these tokens are left, in order. Otherwise
there is a first comment that is not of this kind. It is reported after exactly the tokens outside
of comments before it: as unclosed if its text reaches the end, else by the first token that must
not occur in it. What follows is what the tokens behind that one are on their own, and all comes to
an end after at most as many items as there are tokens. -/
theorem uncomment_removes_flat_comments (length : Nat) (lexemes : List Lexeme) :
    ((∀ item ∈ uncomment length lexemes, ∃ token, item.content = .ok token) ↔ IsFlat lexemes) ∧
      (∀ pieces : List Piece, lexemes = pieces.flatMap Piece.lexemes →
        uncomment length lexemes = (pieces.flatMap Piece.plain).map Lexeme.plain) ∧
      (¬ IsFlat lexemes →
        ∃ pieces fault rest, FirstFault length pieces lexemes fault rest) ∧
      (∀ pieces fault rest, FirstFault length pieces lexemes fault rest →
        uncomment length lexemes =
          (pieces.flatMap Piece.plain).map Lexeme.plain ++ fault :: uncomment length rest) ∧
      (uncomment length lexemes).length ≤ lexemes.length := by
  refine ⟨forall_ok_iff_isFlat, ?_, (isFlat_or_exists_firstFault length lexemes).resolve_left, ?_,
    length_uncommentFrom_le false lexemes⟩
  · rintro pieces rfl
    rw [uncomment_eq_of_pieces]
  · intro pieces fault rest hfault
    exact hfault.uncomment_eq

/-- A comment, a token, and a comment whose end is stuck to its text. -/
def stuckComments : List Lexeme :=
  lex "$( a $) b $( c$) d $)"

theorem uncomment_removes_flat_comments_stuck : ∃ pieces : List Piece,
    FirstFault 21 pieces stuckComments ⟨.error (.nested "c$)"), 16⟩
      [⟨.word "d", 18⟩, ⟨.keyword .commentClose, 21⟩] ∧
    ¬ IsFlat stuckComments ∧
    uncomment 21 stuckComments =
      [⟨.ok (.word "b"), 9⟩, ⟨.error (.nested "c$)"), 16⟩, ⟨.ok (.word "d"), 18⟩,
        ⟨.ok (.keyword .commentClose), 21⟩] := by
  obtain ⟨hflat, -, -, hfault, -⟩ := uncomment_removes_flat_comments 21 stuckComments
  let pieces : List Piece :=
    [.comment ⟨.keyword .commentOpen, 2⟩ [⟨.word "a", 4⟩] ⟨.keyword .commentClose, 7⟩ rfl
      (by decide) rfl, .token ⟨.word "b", 9⟩ (by decide)]
  have hfirst : FirstFault 21 pieces stuckComments ⟨.error (.nested "c$)"), 16⟩
      [⟨.word "d", 18⟩, ⟨.keyword .commentClose, 21⟩] := by
    have hlex : stuckComments = pieces.flatMap Piece.lexemes ++ ⟨.keyword .commentOpen, 12⟩ ::
        ([] ++ ⟨.word "c$)", 16⟩ :: [⟨.word "d", 18⟩, ⟨.keyword .commentClose, 21⟩]) := by
      decide +kernel
    rw [hlex]
    exact .nested rfl (List.forall_mem_nil _) (by decide +kernel)
  have huncomment := hfault pieces _ _ hfirst
  refine ⟨pieces, hfirst, fun h => ?_, huncomment⟩
  obtain ⟨token, htoken⟩ := hflat.mpr h _ (huncomment ▸ List.mem_append_right _ List.mem_cons_self)
  cases htoken

end Metamath
