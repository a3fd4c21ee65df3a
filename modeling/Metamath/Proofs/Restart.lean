import Mathlib.Logic.Function.Iterate
import Metamath.Proofs.Lexing

/-!
# Reading on from a byte offset

A reader that interrupts one source for another one need not keep a place in the text. It is enough
to keep the number of bytes up to the last token that was read: the place is found again by counting
them. For this the number has to lie between two characters, and the place found must be the one
that was left, whatever stands before the next token: blanks, comments, or nothing up to the end of
the source.

The offsets that are kept are those where tokens and faults end. Each of them is the number of bytes
of a part of the source that consists of whole characters, and from there the other tokens follow at
the same offsets as before. So a `Bookmark`, which knows nothing but the source and an offset,
yields the same items as reading without interruption, before and after a fault, up to the end.
-/

namespace Metamath

variable {source : String}

/-! ### Offsets and places -/

theorem byteCount_append (first second : List Char) :
    byteCount (first ++ second) = byteCount first + byteCount second := by
  induction first with
  | nil => exact (Nat.zero_add _).symm
  | cons c first ih => rw [List.cons_append, byteCount, byteCount, ih, Nat.add_assoc]

theorem utf8ByteSize_eq_byteCount (text : String) : text.utf8ByteSize = byteCount text.toList := by
  have hlist : ∀ characters : List Char,
      (String.ofList characters).utf8ByteSize = byteCount characters := by
    intro characters
    induction characters with
    | nil => rfl
    | cons c characters ih =>
      rw [String.ofList_cons, String.utf8ByteSize_append, ih, byteCount]
      simp
  rw [← hlist, String.ofList_toList]

/-- The text left after some bytes is what comes behind a part of just these bytes. -/
theorem dropBytes_eq_some_iff {count : Nat} {text rest : List Char} :
    dropBytes count text = some rest ↔
      ∃ before, text = before ++ rest ∧ byteCount before = count := by
  fun_induction dropBytes count text with
  | case1 text =>
    constructor
    · intro hdrop
      cases hdrop
      exact ⟨[], rfl, rfl⟩
    · rintro ⟨before, rfl, hcount⟩
      cases before with
      | nil => rfl
      | cons c before =>
        have hpos := c.utf8Size_pos
        rw [byteCount] at hcount
        omega
  | case2 count =>
    refine iff_of_false (by simp) ?_
    rintro ⟨before, hbefore, hcount⟩
    obtain ⟨rfl, -⟩ := List.append_eq_nil_iff.mp hbefore.symm
    cases hcount
  | case3 count c text hsize ih =>
    rw [ih]
    constructor
    · rintro ⟨before, rfl, hcount⟩
      refine ⟨c :: before, rfl, ?_⟩
      rw [byteCount, hcount, Nat.add_sub_of_le hsize]
    · rintro ⟨before, hbefore, hcount⟩
      cases before with
      | nil => cases hcount
      | cons first before =>
        obtain ⟨rfl, rfl⟩ := List.cons.inj hbefore
        exact ⟨before, rfl, Nat.eq_sub_of_add_eq' hcount⟩
  | case4 count c text hsize =>
    refine iff_of_false (by simp) ?_
    rintro ⟨before, hbefore, hcount⟩
    cases before with
    | nil => cases hcount
    | cons first before =>
      obtain ⟨rfl, rfl⟩ := List.cons.inj hbefore
      rw [byteCount] at hcount
      omega

namespace Cursor

/-- The place lies in the source: its text comes behind a part that takes as many bytes as the
offset says. -/
def LiesIn (cursor : Cursor) (source : String) : Prop :=
  ∃ before, source.toList = before ++ cursor.rest ∧ byteCount before = cursor.offset

variable {cursor next : Cursor} {token : Token} {content : Except CommentFault Token}

theorem at?_eq_some_iff {offset : Nat} :
    at? source offset = some cursor ↔ cursor.offset = offset ∧ cursor.LiesIn source := by
  rw [at?, Option.map_eq_some_iff]
  constructor
  · rintro ⟨rest, hrest, rfl⟩
    exact ⟨rfl, dropBytes_eq_some_iff.mp hrest⟩
  · rintro ⟨rfl, hlies⟩
    exact ⟨cursor.rest, dropBytes_eq_some_iff.mpr hlies, rfl⟩

/-- A place in a source can be found again by its offset. -/
theorem LiesIn.at?_eq (hlies : cursor.LiesIn source) : at? source cursor.offset = some cursor :=
  at?_eq_some_iff.mpr ⟨rfl, hlies⟩

/-- The offset of a place in a source does not lie inside of a character. -/
theorem LiesIn.isValid (hlies : cursor.LiesIn source) :
    String.Pos.Raw.IsValid source ⟨cursor.offset⟩ := by
  obtain ⟨before, hsource, hcount⟩ := hlies
  rw [String.Pos.Raw.isValid_iff_exists_append]
  refine ⟨.ofList before, .ofList cursor.rest, ?_, ?_⟩
  · rw [← String.ofList_append, ← hsource, String.ofList_toList]
  · rw [← hcount, String.rawEndPos, utf8ByteSize_eq_byteCount, String.toList_ofList]

theorem liesIn_start (source : String) : (start source).LiesIn source :=
  ⟨[], rfl, rfl⟩

theorem LiesIn.skip {skipped rest : List Char} (hlies : cursor.LiesIn source)
    (hrest : cursor.rest = skipped ++ rest) :
    LiesIn ⟨rest, cursor.offset + byteCount skipped⟩ source := by
  obtain ⟨before, hsource, hcount⟩ := hlies
  refine ⟨before ++ skipped, ?_, ?_⟩
  · rw [hsource, hrest, List.append_assoc]
  · rw [byteCount_append, hcount]

theorem LiesIn.finish (hlies : cursor.LiesIn source) : cursor.finish.LiesIn source :=
  hlies.skip (List.append_nil _).symm

theorem LiesIn.token? (hlies : cursor.LiesIn source) (hread : cursor.token? = some (token, next)) :
    next.LiesIn source := by
  rw [Cursor.token?] at hread
  split at hread
  · cases hread
  · next c text hrest =>
    cases hread
    rw [Nat.add_assoc, ← byteCount_append]
    apply hlies.skip
    rw [List.append_assoc, List.cons_append, List.takeWhile_append_dropWhile, ← hrest,
      List.takeWhile_append_dropWhile]

theorem LiesIn.scan {inComment : Bool} (hlies : cursor.LiesIn source)
    (hread : cursor.scan inComment = some (content, next)) : next.LiesIn source := by
  fun_induction Cursor.scan inComment cursor with
  | case1 cursor hnone =>
    cases hread
    exact hlies.finish
  | case2 => cases hread
  | case3 cursor following hfirst ih => exact ih (hlies.token? hfirst) hread
  | case4 cursor token following hfirst hclose hnests =>
    cases hread
    exact hlies.token? hfirst
  | case5 cursor token following hfirst hclose hnests ih => exact ih (hlies.token? hfirst) hread
  | case6 inComment cursor following hout hfirst ih => exact ih (hlies.token? hfirst) hread
  | case7 inComment cursor token following hfirst hout hopen =>
    cases hread
    exact hlies.token? hfirst

/-! ### Streams of items -/

/-- If a source is read item by item, and each item ends at the place where reading goes on, then
the items behind some item are those that are read from the place where it ends. -/
theorem exists_at?_of_items_eq {Item : Type} {items : Cursor → List Item} {stop : Item → Nat}
    (hread : ∀ cursor : Cursor, cursor.LiesIn source → items cursor = [] ∨
      ∃ item next, items cursor = item :: items next ∧ stop item = next.offset ∧
        next.LiesIn source)
    (hlies : cursor.LiesIn source) {before after : List Item} {item : Item}
    (hitems : items cursor = before ++ item :: after) :
    String.Pos.Raw.IsValid source ⟨stop item⟩ ∧
      ∃ next, at? source (stop item) = some next ∧ items next = after := by
  induction before generalizing cursor with
  | nil =>
    rcases hread cursor hlies with hnil | ⟨first, next, hfirst, hstop, hnext⟩
    · rw [hnil] at hitems
      cases hitems
    · obtain ⟨rfl, rfl⟩ := List.cons.inj (hfirst.symm.trans hitems)
      rw [hstop]
      exact ⟨hnext.isValid, next, hnext.at?_eq, rfl⟩
  | cons earlier before ih =>
    rcases hread cursor hlies with hnil | ⟨first, next, hfirst, -, hnext⟩
    · rw [hnil] at hitems
      cases hitems
    · exact ih hnext (List.cons.inj (hfirst.symm.trans hitems)).2

theorem LiesIn.lexemes_cases (hlies : cursor.LiesIn source) :
    cursor.lexemes = [] ∨ ∃ (lexeme : Lexeme) (next : Cursor),
      cursor.lexemes = lexeme :: next.lexemes ∧ lexeme.stop = next.offset ∧
        next.LiesIn source := by
  cases hread : cursor.token? with
  | none => exact .inl (lexemes_of_token?_eq_none hread)
  | some found =>
    obtain ⟨token, next⟩ := found
    exact .inr ⟨_, next, (lexemes_of_token?_eq_some hread).1, rfl, hlies.token? hread⟩

theorem LiesIn.plainLexemes_cases (hlies : cursor.LiesIn source) :
    cursor.plainLexemes = [] ∨ ∃ (item : PlainLexeme) (next : Cursor),
      cursor.plainLexemes = item :: next.plainLexemes ∧ item.stop = next.offset ∧
        next.LiesIn source := by
  cases hread : cursor.next? with
  | none => exact .inl (plainLexemes_of_next?_eq_none hread)
  | some found =>
    obtain ⟨content, next⟩ := found
    exact .inr ⟨_, next, plainLexemes_of_next?_eq_some hread, rfl, hlies.scan hread⟩

/-! ### Keeping the place -/

/-- Read one item outside of comments and keep the place after it. If there is none, the place stays
the same. -/
def read (cursor : Cursor) : Option PlainLexeme × Cursor :=
  match cursor.next? with
  | none => (none, cursor)
  | some (content, next) => (some ⟨content, next.offset⟩, next)

/-- The place after some items. -/
def after (cursor : Cursor) (count : Nat) : Cursor :=
  (fun cursor => cursor.read.2)^[count] cursor

theorem plainLexemes_read (cursor : Cursor) :
    cursor.read.1 = cursor.plainLexemes.head? ∧
      cursor.read.2.plainLexemes = cursor.plainLexemes.tail := by
  rw [read]
  cases hread : cursor.next? with
  | none =>
    rw [plainLexemes_of_next?_eq_none hread]
    exact ⟨rfl, rfl⟩
  | some found =>
    rw [plainLexemes_of_next?_eq_some hread]
    exact ⟨rfl, rfl⟩

theorem plainLexemes_after (cursor : Cursor) (count : Nat) :
    (cursor.after count).plainLexemes = cursor.plainLexemes.drop count := by
  induction count with
  | zero => rfl
  | succ count ih =>
    rw [after, Function.iterate_succ_apply', ← after, (plainLexemes_read _).2, ih, List.tail_drop]

theorem LiesIn.read (hlies : cursor.LiesIn source) : cursor.read.2.LiesIn source := by
  rw [Cursor.read]
  cases hread : cursor.next? with
  | none => exact hlies
  | some found => exact hlies.scan hread

theorem LiesIn.after (hlies : cursor.LiesIn source) (count : Nat) :
    (cursor.after count).LiesIn source := by
  induction count with
  | zero => exact hlies
  | succ count ih =>
    rw [Cursor.after, Function.iterate_succ_apply']
    exact ih.read

end Cursor

/-! ### Keeping an offset -/

/-- A source and the byte offset up to which it was read. -/
structure Bookmark where
  source : String
  offset : Nat
  deriving DecidableEq, Repr

namespace Bookmark

/-- The bookmark of a source that was not read yet. -/
def start (source : String) : Bookmark :=
  ⟨source, 0⟩

/-- Find the place at the offset, read one item outside of comments, and keep the offset after
it. -/
def read (bookmark : Bookmark) : Option PlainLexeme × Bookmark :=
  match Cursor.at? bookmark.source bookmark.offset with
  | none => (none, bookmark)
  | some cursor => (cursor.read.1, { bookmark with offset := cursor.read.2.offset })

/-- The bookmark after some items. -/
def after (bookmark : Bookmark) (count : Nat) : Bookmark :=
  (fun bookmark => bookmark.read.2)^[count] bookmark

theorem read_of_liesIn {cursor : Cursor} (hlies : cursor.LiesIn source) :
    read ⟨source, cursor.offset⟩ = (cursor.read.1, ⟨source, cursor.read.2.offset⟩) := by
  rw [read, hlies.at?_eq]

/-- A bookmark is always at the place that a reader has come to who kept it. -/
theorem after_start (source : String) (count : Nat) :
    (start source).after count = ⟨source, ((Cursor.start source).after count).offset⟩ := by
  induction count with
  | zero => rfl
  | succ count ih =>
    have hlies := (Cursor.liesIn_start source).after count
    rw [after, Function.iterate_succ_apply', ← after, ih, read_of_liesIn hlies, Cursor.after,
      Cursor.after, Function.iterate_succ_apply']

/-- A bookmark, which keeps only an offset, finds again each time the place that a reader has come
to who kept it. It yields item after item what the source consists of outside of comments, with
faults, and nothing after that. More generally, each token ends between two characters of the
source, and so does each item outside of comments; reading from there, with comments or without
them, yields exactly the rest, at the same offsets. -/
theorem restart_loses_nothing (source : String) :
    (∀ count, Cursor.at? source ((start source).after count).offset =
        some ((Cursor.start source).after count) ∧
      ((start source).after count).read.1 =
        (uncomment (byteCount source.toList) (lex source))[count]?) ∧
    (∀ before lexeme after, lex source = before ++ lexeme :: after →
      String.Pos.Raw.IsValid source ⟨lexeme.stop⟩ ∧
        ∃ cursor, Cursor.at? source lexeme.stop = some cursor ∧ cursor.lexemes = after) ∧
    (∀ before item after,
      uncomment (byteCount source.toList) (lex source) = before ++ item :: after →
      String.Pos.Raw.IsValid source ⟨item.stop⟩ ∧
        ∃ cursor, Cursor.at? source item.stop = some cursor ∧ cursor.plainLexemes = after) := by
  have hplain : uncomment (byteCount source.toList) (lex source) =
      (Cursor.start source).plainLexemes := by
    rw [Cursor.plainLexemes, Cursor.finish, Cursor.start, Nat.zero_add]
    rfl
  have hstart := Cursor.liesIn_start source
  rw [hplain]
  refine ⟨fun count => ?_, fun before lexeme after hlexemes => ?_,
    fun before item after hitems => ?_⟩
  · have hlies := hstart.after count
    rw [after_start, read_of_liesIn hlies, (Cursor.plainLexemes_read _).1,
      Cursor.plainLexemes_after, List.head?_drop]
    exact ⟨hlies.at?_eq, rfl⟩
  · exact Cursor.exists_at?_of_items_eq (fun _ => Cursor.LiesIn.lexemes_cases) hstart hlexemes
  · exact Cursor.exists_at?_of_items_eq (fun _ => Cursor.LiesIn.plainLexemes_cases) hstart hitems

/-- A source with characters of two bytes, inside and outside of a comment. -/
def umlauts : String :=
  "ä $( ö $) ü "

/-- After the first item a bookmark is two bytes behind the start, and the next item is that behind
the comment. Inside of the comment reading goes on with what is left of it. -/
theorem restart_loses_nothing_umlauts :
    ((start umlauts).after 1).offset = 2 ∧
      ((start umlauts).after 1).read.1.map PlainLexeme.stop = some 14 ∧
      String.Pos.Raw.IsValid umlauts ⟨5⟩ ∧
      ∃ cursor, Cursor.at? umlauts 5 = some cursor ∧
        cursor.lexemes = [⟨.word "ö", 8⟩, ⟨.keyword .commentClose, 11⟩, ⟨.word "ü", 14⟩] := by
  obtain ⟨hitems, hlexemes, -⟩ := restart_loses_nothing umlauts
  have hlex : lex umlauts = [⟨.word "ä", 2⟩] ++ ⟨.keyword .commentOpen, 5⟩ ::
      [⟨.word "ö", 8⟩, ⟨.keyword .commentClose, 11⟩, ⟨.word "ü", 14⟩] := by
    decide +kernel
  refine ⟨by decide +kernel, ?_, hlexemes _ _ _ hlex⟩
  rw [(hitems 1).2]
  decide +kernel

end Bookmark

end Metamath
