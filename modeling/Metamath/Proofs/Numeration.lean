import Mathlib.Data.List.Basic
import Mathlib.Data.List.Induction
import Mathlib.Data.Nat.Digits.Defs
import Metamath.Proofs.Code
import Metamath.Proofs.Step

/-!
# The numerals of compressed proofs

The digits of a numeral are not those of a positional system: leading digits count one to five and
there is no zero among them, so no number has two numerals and none needs a mark in front. Here
numerals are a type of their own, with the letters that write them and the number they stand for,
and both are compared with what reading makes of a text.

A reader keeps of the leading digits no more than the number they began, and that only up to the
largest number of an instruction. It is first shown that nothing is lost by this: reading is
described by rules that keep the digits themselves, one rule for each kind of letter, and what the
instructions of a text are is then said by induction on the rules.
-/

namespace Metamath.Proof

/-! ### Numerals -/

/-- A number as it is written: digits to base five, the least of which counts one, and then a digit
to base twenty, the least of which counts zero. -/
structure Numeral where
  leading : List (Fin 5)
  last : Fin 20
  deriving DecidableEq, Repr

namespace Numeral

/-- A letter `U` to `Y`. -/
def leadingLetter (digit : Fin 5) : Char :=
  Char.ofNat ('U'.toNat + digit)

/-- A letter `A` to `T`. -/
def lastLetter (digit : Fin 20) : Char :=
  Char.ofNat ('A'.toNat + digit)

def letters (numeral : Numeral) : List Char :=
  numeral.leading.map leadingLetter ++ [lastLetter numeral.last]

/-- The number that leading digits stand for, the last digit being the least significant one. -/
def leadingValue (digits : List (Fin 5)) : Nat :=
  Nat.ofDigits 5 (digits.reverse.map fun digit => digit.val + 1)

/-- The exact number, however large it is. -/
def value (numeral : Numeral) : Nat :=
  leadingValue numeral.leading * 20 + numeral.last

@[simp]
theorem leadingValue_nil : leadingValue [] = 0 := rfl

@[simp]
theorem leadingValue_concat (digits : List (Fin 5)) (digit : Fin 5) :
    leadingValue (digits ++ [digit]) = leadingValue digits * 5 + (digit + 1) := by
  rw [leadingValue, leadingValue, List.reverse_concat, List.map_cons, Nat.ofDigits_cons]
  omega

theorem leadingLetter_injective : Function.Injective leadingLetter := by
  intro first second
  revert first second
  decide

theorem lastLetter_injective : Function.Injective lastLetter := by
  intro first second
  revert first second
  decide

/-- The letters that write a number as leading digits are those of its digits. -/
theorem leadingLetters_leadingValue (digits : List (Fin 5)) :
    Code.leadingLetters (leadingValue digits) = digits.map leadingLetter := by
  induction digits using List.reverseRecOn with
  | nil =>
    rw [leadingValue_nil, Code.leadingLetters, if_pos rfl]
    rfl
  | append_singleton digits digit ih =>
    have hquotient : (leadingValue digits * 5 + (digit.val + 1) - 1) / 5 = leadingValue digits := by
      omega
    have hremainder : (leadingValue digits * 5 + (digit.val + 1) - 1) % 5 = digit := by
      omega
    rw [leadingValue_concat, Code.leadingLetters, if_neg (by omega), hquotient, hremainder, ih,
      List.map_append]
    rfl

theorem leadingValue_injective : Function.Injective leadingValue := by
  intro first second hequal
  have hletters : first.map leadingLetter = second.map leadingLetter := by
    rw [← leadingLetters_leadingValue, ← leadingLetters_leadingValue, hequal]
  exact List.map_injective_iff.mpr leadingLetter_injective hletters

theorem leadingValue_surjective : Function.Surjective leadingValue := by
  intro number
  induction number using Nat.strong_induction_on with
  | _ number ih =>
    by_cases hzero : number = 0
    · exact ⟨[], hzero.symm⟩
    · obtain ⟨digits, hdigits⟩ := ih ((number - 1) / 5) (by omega)
      refine ⟨digits ++ [⟨(number - 1) % 5, Nat.mod_lt _ (by omega)⟩], ?_⟩
      rw [leadingValue_concat, hdigits]
      show (number - 1) / 5 * 5 + ((number - 1) % 5 + 1) = number
      omega

/-- Every number has exactly one numeral. -/
theorem value_bijective : Function.Bijective value := by
  constructor
  · intro first second hequal
    obtain ⟨leading, last⟩ := first
    obtain ⟨otherLeading, otherLast⟩ := second
    simp only [value] at hequal
    have hleading : leading = otherLeading := leadingValue_injective (by omega)
    have hlast : last = otherLast := Fin.ext (by omega)
    rw [hleading, hlast]
  · intro number
    obtain ⟨digits, hdigits⟩ := leadingValue_surjective (number / 20)
    refine ⟨⟨digits, ⟨number % 20, Nat.mod_lt _ (by omega)⟩⟩, ?_⟩
    show leadingValue digits * 20 + number % 20 = number
    omega

/-- An instruction is written as the numeral of its number. -/
theorem encode_value (numeral : Numeral) :
    Code.encode (.index numeral.value) = numeral.letters := by
  have hquotient : numeral.value / 20 = leadingValue numeral.leading := by
    rw [value]
    omega
  have hremainder : numeral.value % 20 = numeral.last := by
    rw [value]
    omega
  rw [Code.encode, hquotient, hremainder, leadingLetters_leadingValue]
  rfl

end Numeral

/-! ### Letters -/

namespace Letter

open Numeral

/-- The character is one of the letters that continue a number. -/
def IsLeading (c : Char) : Prop :=
  'U' ≤ c ∧ c ≤ 'Y'

instance (c : Char) : Decidable (IsLeading c) :=
  inferInstanceAs (Decidable ('U' ≤ c ∧ c ≤ 'Y'))

theorem isLeading_leadingLetter (digit : Fin 5) : IsLeading (leadingLetter digit) := by
  revert digit
  decide

theorem not_isLeading_lastLetter (digit : Fin 20) : ¬ IsLeading (lastLetter digit) := by
  revert digit
  decide

theorem leadingLetter_ne_save (digit : Fin 5) : leadingLetter digit ≠ 'Z' := by
  revert digit
  decide

theorem lastLetter_ne_save (digit : Fin 20) : lastLetter digit ≠ 'Z' := by
  revert digit
  decide

theorem between_leadingLetter (digit : Fin 5) :
    'A' ≤ leadingLetter digit ∧ leadingLetter digit ≤ 'Z' := by
  revert digit
  decide

theorem between_lastLetter (digit : Fin 20) :
    'A' ≤ lastLetter digit ∧ lastLetter digit ≤ 'Z' := by
  revert digit
  decide

/-- A character is a digit of one of the two kinds, the letter `Z`, or none of the letters. -/
theorem cases_ofChar? (c : Char) :
    (∃ digit, c = leadingLetter digit) ∨ (∃ digit, c = lastLetter digit) ∨ c = 'Z' ∨
      ¬ ('A' ≤ c ∧ c ≤ 'Z') ∧ ofChar? c = none := by
  have hA : 'A'.toNat = 65 := rfl
  have hT : 'T'.toNat = 84 := rfl
  have hU : 'U'.toNat = 85 := rfl
  have hY : 'Y'.toNat = 89 := rfl
  have hZ : 'Z'.toNat = 90 := rfl
  have hle : ∀ first second : Char, first ≤ second ↔ first.toNat ≤ second.toNat :=
    fun _ _ => Iff.rfl
  by_cases hlast : 'A' ≤ c ∧ c ≤ 'T'
  · rw [hle, hle] at hlast
    refine .inr (.inl ⟨⟨c.toNat - 'A'.toNat, by omega⟩, ?_⟩)
    rw [lastLetter, Nat.add_sub_cancel' hlast.1, Char.ofNat_toNat]
  · by_cases hleading : 'U' ≤ c ∧ c ≤ 'Y'
    · rw [hle, hle] at hleading
      refine .inl ⟨⟨c.toNat - 'U'.toNat, by omega⟩, ?_⟩
      rw [leadingLetter, Nat.add_sub_cancel' hleading.1, Char.ofNat_toNat]
    · by_cases hsave : c = 'Z'
      · exact .inr (.inr (.inl hsave))
      · refine .inr (.inr (.inr ⟨?_, by simp [ofChar?, hlast, hleading, hsave]⟩))
        have hother : c.toNat ≠ 'Z'.toNat := fun hequal => hsave (Char.toNat_inj.mp hequal)
        rw [hle, hle] at hlast hleading ⊢
        omega

end Letter

namespace Numeral

open Letter

/-- The letters of a numeral end where its digits do, so what follows cannot be taken for a part of
it. -/
theorem letters_append_inj {first second : Numeral} {rest others : List Char}
    (hequal : first.letters ++ rest = second.letters ++ others) :
    first = second ∧ rest = others := by
  have hleading : ∀ (numeral : Numeral) (behind : List Char),
      (numeral.letters ++ behind).takeWhile (fun c => IsLeading c) =
        numeral.leading.map leadingLetter := by
    intro numeral behind
    rw [letters, List.append_assoc,
      List.takeWhile_append_of_pos (by simp [isLeading_leadingLetter]),
      List.singleton_append,
      List.takeWhile_cons_of_neg (by simpa using not_isLeading_lastLetter numeral.last),
      List.append_nil]
  obtain ⟨leading, last⟩ := first
  obtain ⟨otherLeading, otherLast⟩ := second
  have hletters : leading.map leadingLetter = otherLeading.map leadingLetter := by
    rw [← hleading ⟨leading, last⟩ rest, hequal, hleading]
  obtain rfl := List.map_injective_iff.mpr leadingLetter_injective hletters
  simp only [letters, List.append_assoc, List.append_cancel_left_eq, List.singleton_append,
    List.cons.injEq] at hequal
  rw [lastLetter_injective hequal.1]
  exact ⟨rfl, hequal.2⟩

theorem flatMap_letters_injective :
    Function.Injective fun numerals : List Numeral => numerals.flatMap letters := by
  intro first second hequal
  induction first generalizing second with
  | nil =>
    cases second with
    | nil => rfl
    | cons numeral rest => simp [letters] at hequal
  | cons numeral rest ih =>
    cases second with
    | nil => simp [letters] at hequal
    | cons other others =>
      simp only [List.flatMap_cons] at hequal
      obtain ⟨rfl, hrest⟩ := letters_append_inj hequal
      rw [ih hrest]

end Numeral

namespace Code

open Numeral Letter

/-! ### Rules of reading -/

/-- Saturating early does no harm, because digits only make a number larger. -/
theorem saturate_saturate_mul_add (number digit : Nat) {base : Nat} (hbase : 0 < base) :
    saturate (saturate number * base + digit) = saturate (number * base + digit) := by
  rcases Nat.le_total number maxNumber with hsmall | hlarge
  · rw [saturate_of_le hsmall]
  · have hsaturated : saturate number = maxNumber := min_eq_right hlarge
    have hself : maxNumber ≤ maxNumber * base := Nat.le_mul_of_pos_right maxNumber hbase
    have hgrown : maxNumber * base ≤ number * base := Nat.mul_le_mul_right base hlarge
    rw [hsaturated, saturate, saturate, min_eq_right (by omega), min_eq_right (by omega)]

/-- What a text spells that stands behind the given leading digits: its numerals, of which the first
one has these digits in front, and its instructions. A numeral gives its instruction where it ends,
so an instruction to save that stands inside of a numeral comes before. -/
inductive Spells : List (Fin 5) → List Char → List Numeral → List Code → Prop where
  | nil : Spells [] [] [] []
  | leading {digits : List (Fin 5)} {digit : Fin 5} {rest : List Char} {numerals : List Numeral}
      {codes : List Code} (hrest : Spells (digits ++ [digit]) rest numerals codes) :
      Spells digits (leadingLetter digit :: rest) numerals codes
  | last {digits : List (Fin 5)} {digit : Fin 20} {rest : List Char} {numerals : List Numeral}
      {codes : List Code} (hrest : Spells [] rest numerals codes) :
      Spells digits (lastLetter digit :: rest) (⟨digits, digit⟩ :: numerals)
        (index (saturate (value ⟨digits, digit⟩)) :: codes)
  | save {digits : List (Fin 5)} {rest : List Char} {numerals : List Numeral} {codes : List Code}
      (hrest : Spells digits rest numerals codes) :
      Spells digits ('Z' :: rest) numerals (save :: codes)

/-- Read instructions behind the given leading digits. -/
def decodeBehind (digits : List (Fin 5)) (text : List Char) : Except Error (List Code) :=
  decodeFrom (saturate (leadingValue digits)) (!digits.isEmpty) text

theorem decodeBehind_leading (digits : List (Fin 5)) (digit : Fin 5) (rest : List Char) :
    decodeBehind digits (leadingLetter digit :: rest) = decodeBehind (digits ++ [digit]) rest := by
  have hpending : (!(digits ++ [digit]).isEmpty) = true := by
    cases digits <;> rfl
  rw [decodeBehind, decodeBehind, decodeFrom, leadingLetter, ofChar?_continued digit.isLt,
    leadingValue_concat, hpending]
  simp only [saturate_saturate_mul_add _ _ (show 0 < 5 by omega)]

theorem decodeBehind_last (digits : List (Fin 5)) (digit : Fin 20) (rest : List Char) :
    decodeBehind digits (lastLetter digit :: rest) =
      (decodeBehind [] rest).map (index (saturate (value ⟨digits, digit⟩)) :: ·) := by
  rw [decodeBehind, decodeFrom, lastLetter, ofChar?_last digit.isLt]
  simp only [saturate_saturate_mul_add _ _ (show 0 < 20 by omega)]
  rfl

theorem decodeBehind_save (digits : List (Fin 5)) (rest : List Char) :
    decodeBehind digits ('Z' :: rest) = (decodeBehind digits rest).map (save :: ·) :=
  rfl

theorem decodeBehind_eq_ok_iff {digits : List (Fin 5)} {text : List Char} {codes : List Code} :
    decodeBehind digits text = .ok codes ↔ ∃ numerals, Spells digits text numerals codes := by
  constructor
  · intro hdecode
    induction text generalizing digits codes with
    | nil =>
      cases digits with
      | nil =>
        cases hdecode
        exact ⟨[], .nil⟩
      | cons digit rest => cases hdecode
    | cons c rest ih =>
      rcases cases_ofChar? c with ⟨digit, rfl⟩ | ⟨digit, rfl⟩ | rfl | ⟨-, hother⟩
      · rw [decodeBehind_leading] at hdecode
        obtain ⟨numerals, hrest⟩ := ih hdecode
        exact ⟨numerals, .leading hrest⟩
      · rw [decodeBehind_last] at hdecode
        obtain ⟨others, hothers, rfl⟩ := map_eq_ok_iff.mp hdecode
        obtain ⟨numerals, hrest⟩ := ih hothers
        exact ⟨_, .last hrest⟩
      · rw [decodeBehind_save] at hdecode
        obtain ⟨others, hothers, rfl⟩ := map_eq_ok_iff.mp hdecode
        obtain ⟨numerals, hrest⟩ := ih hothers
        exact ⟨numerals, .save hrest⟩
      · rw [decodeBehind, decodeFrom, hother] at hdecode
        cases hdecode
  · rintro ⟨numerals, hspells⟩
    induction hspells with
    | nil => rfl
    | leading _ ih => rw [decodeBehind_leading, ih]
    | last _ ih =>
      rw [decodeBehind_last, ih]
      rfl
    | save _ ih =>
      rw [decodeBehind_save, ih]
      rfl

/-! ### What the rules say -/

/-- The whole text, with the leading digits in front of it. -/
def written (digits : List (Fin 5)) (text : List Char) : List Char :=
  digits.map leadingLetter ++ text

theorem written_leading (digits : List (Fin 5)) (digit : Fin 5) (rest : List Char) :
    written digits (leadingLetter digit :: rest) = written (digits ++ [digit]) rest := by
  simp [written]

theorem written_last (digits : List (Fin 5)) (digit : Fin 20) (rest : List Char) :
    written digits (lastLetter digit :: rest) = letters ⟨digits, digit⟩ ++ rest := by
  simp [written, letters]

/-- The digits of a text, without the letter `Z`. -/
def digitsOf (text : List Char) : List Char :=
  text.filter (· ≠ 'Z')

theorem digitsOf_written (digits : List (Fin 5)) (text : List Char) :
    digitsOf (written digits text) = digits.map leadingLetter ++ digitsOf text := by
  have hkept : (digits.map leadingLetter).filter (· ≠ 'Z') = digits.map leadingLetter := by
    simp [leadingLetter_ne_save]
  rw [digitsOf, written, List.filter_append, hkept]
  rfl

theorem digitsOf_last (digit : Fin 20) (rest : List Char) :
    digitsOf (lastLetter digit :: rest) = lastLetter digit :: digitsOf rest :=
  List.filter_cons_of_pos (by simpa using lastLetter_ne_save digit)

/-- The number of an instruction that uses one. -/
def number? : Code → Option Nat
  | index number => some number
  | save => none

/-- The text does not break off inside of a number. -/
def Finished (text : List Char) : Prop :=
  ∀ c, (digitsOf text).getLast? = some c → ¬ IsLeading c

/-- No instruction to save stands right behind a letter that continues a number. -/
def Unbroken (text : List Char) : Prop :=
  ∀ before after c, text = before ++ c :: 'Z' :: after → ¬ IsLeading c

theorem Unbroken.of_append {first second : List Char} (hunbroken : Unbroken (first ++ second)) :
    Unbroken second := by
  rintro before after c rfl
  exact hunbroken (first ++ before) after c (List.append_assoc _ _ _).symm

namespace Spells

variable {digits : List (Fin 5)} {text : List Char} {numerals : List Numeral} {codes : List Code}

/-- The digits of a text are those of its numerals, one numeral after the other. -/
theorem digitsOf_eq (hspells : Spells digits text numerals codes) :
    digitsOf (written digits text) = numerals.flatMap letters := by
  induction hspells with
  | nil => rfl
  | leading _ ih => rw [written_leading, ih]
  | last _ ih =>
    have hrest := ih
    rw [digitsOf_written] at hrest ⊢
    rw [digitsOf_last, List.flatMap_cons, ← hrest]
    simp [letters]
  | save _ ih =>
    rw [digitsOf_written] at ih ⊢
    exact ih

theorem numbers_eq (hspells : Spells digits text numerals codes) :
    codes.filterMap number? = numerals.map fun numeral => min numeral.value maxNumber := by
  induction hspells with
  | nil => rfl
  | leading _ ih => exact ih
  | last _ ih =>
    rw [List.filterMap_cons, number?, List.map_cons, ih]
    rfl
  | save _ ih =>
    rw [List.filterMap_cons, number?]
    exact ih

/-- Every letter that does not continue a number is an instruction. -/
theorem order_eq (hspells : Spells digits text numerals codes) :
    codes.map (fun code => decide (code = .save)) =
      (text.filter fun c => ¬ IsLeading c).map fun c => decide (c = 'Z') := by
  induction hspells with
  | nil => rfl
  | @leading _ digit _ _ _ _ ih =>
    rw [ih, List.filter_cons_of_neg (by simpa using isLeading_leadingLetter digit)]
  | @last _ digit _ _ _ _ ih =>
    rw [List.filter_cons_of_pos (by simpa using not_isLeading_lastLetter digit), List.map_cons,
      List.map_cons, ih]
    simp [lastLetter_ne_save digit]
  | save _ ih =>
    rw [List.filter_cons_of_pos (by decide), List.map_cons, List.map_cons, ih]
    rfl

theorem finished (hspells : Spells digits text numerals codes) :
    Finished (written digits text) := by
  intro c hlast
  rw [hspells.digitsOf_eq] at hlast
  cases numerals using List.reverseRecOn with
  | nil => cases hlast
  | append_singleton others numeral =>
    rw [List.flatMap_append, List.flatMap_singleton, letters, ← List.append_assoc,
      List.getLast?_concat, Option.some.injEq] at hlast
    rw [← hlast]
    exact not_isLeading_lastLetter numeral.last

theorem between (hspells : Spells digits text numerals codes) : ∀ c ∈ text, 'A' ≤ c ∧ c ≤ 'Z' := by
  induction hspells with
  | nil => exact List.forall_mem_nil _
  | @leading _ digit _ _ _ _ ih => exact List.forall_mem_cons.mpr ⟨between_leadingLetter digit, ih⟩
  | @last _ digit _ _ _ _ ih => exact List.forall_mem_cons.mpr ⟨between_lastLetter digit, ih⟩
  | save _ ih => exact List.forall_mem_cons.mpr ⟨by decide, ih⟩

/-- Writing the instructions of a text gives the text, if its numerals are whole and none of them
exceeds what an instruction can carry. -/
theorem flatMap_encode (hspells : Spells digits text numerals codes)
    (hunbroken : Unbroken (written digits text))
    (hbound : ∀ numeral ∈ numerals, numeral.value ≤ maxNumber) :
    codes.flatMap encode = written digits text := by
  induction hspells with
  | nil => rfl
  | leading _ ih =>
    rw [written_leading] at hunbroken ⊢
    exact ih hunbroken hbound
  | last _ ih =>
    obtain ⟨hfirst, hbound⟩ := List.forall_mem_cons.mp hbound
    rw [written_last] at hunbroken ⊢
    rw [List.flatMap_cons, saturate_of_le hfirst, encode_value, ih hunbroken.of_append hbound]
    rfl
  | @save digits rest _ _ _ ih =>
    -- leading digits right in front of the letter `Z` would belong to a numeral that it breaks
    cases digits using List.reverseRecOn with
    | nil =>
      have hrest : Unbroken rest :=
        Unbroken.of_append (show Unbroken (['Z'] ++ rest) from hunbroken)
      rw [List.flatMap_cons, ih hrest hbound]
      rfl
    | append_singleton earlier digit =>
      refine absurd (isLeading_leadingLetter digit)
        (hunbroken (earlier.map leadingLetter) rest _ ?_)
      simp [written]

end Spells

/-- A text of letters spells something unless it breaks off inside of a number. -/
theorem exists_spells {digits : List (Fin 5)} {text : List Char}
    (hbetween : ∀ c ∈ text, 'A' ≤ c ∧ c ≤ 'Z') (hfinished : Finished (written digits text)) :
    ∃ numerals codes, Spells digits text numerals codes := by
  induction text generalizing digits with
  | nil =>
    cases digits using List.reverseRecOn with
    | nil => exact ⟨[], [], .nil⟩
    | append_singleton earlier digit =>
      refine absurd (isLeading_leadingLetter digit) (hfinished _ ?_)
      rw [digitsOf_written, List.map_append]
      simp [digitsOf]
  | cons c rest ih =>
    obtain ⟨hletter, hletters⟩ := List.forall_mem_cons.mp hbetween
    rcases cases_ofChar? c with ⟨digit, rfl⟩ | ⟨digit, rfl⟩ | rfl | ⟨hother, -⟩
    · rw [written_leading] at hfinished
      obtain ⟨numerals, codes, hrest⟩ := ih hletters hfinished
      exact ⟨numerals, codes, .leading hrest⟩
    · have hbehind : Finished (written [] rest) := by
        intro c hlast
        apply hfinished
        have hrest : (digitsOf rest).getLast? = some c := hlast
        rw [digitsOf_written, digitsOf_last, List.getLast?_append, List.getLast?_cons, hrest]
        rfl
      obtain ⟨numerals, codes, hrest⟩ := ih hletters hbehind
      exact ⟨_, _, .last hrest⟩
    · have hbehind : Finished (written digits rest) := by
        intro c hlast
        apply hfinished
        rw [digitsOf_written] at hlast ⊢
        exact hlast
      obtain ⟨numerals, codes, hrest⟩ := ih hletters hbehind
      exact ⟨numerals, _, .save hrest⟩
    · exact absurd hletter hother

/-- Every number has exactly one numeral, and its letters write the instruction with this number.
Instructions that are written one after another are read back from any words that the letters are
divided into. Conversely, words can be read exactly if they consist of the letters `A` to `Z` and do
not break off inside of a number; then their digits are those of a single list of numerals, the
numbers of the instructions are the values of these numerals, up to the largest number of an
instruction, and the instructions to save stand between them as the letters `Z` stand between the
letters that end a numeral. Unless a `Z` breaks a numeral or a value is too large, writing the
instructions gives the letters again. -/
theorem decode_bijective_numeration :
    Function.Bijective Numeral.value ∧
      (∀ numeral : Numeral, encode (index numeral.value) = numeral.letters) ∧
      (∀ (codes : List Code) (digits : List String),
        (∀ number, index number ∈ codes → number ≤ maxNumber) →
        digits.flatMap String.toList = codes.flatMap encode → decode digits = .ok codes) ∧
      ∀ digits : List String,
        ((∃ codes, decode digits = .ok codes) ↔
          (∀ c ∈ digits.flatMap String.toList, 'A' ≤ c ∧ c ≤ 'Z') ∧
            Finished (digits.flatMap String.toList)) ∧
        ∀ codes, decode digits = .ok codes → ∃ numerals : List Numeral,
          (∀ others : List Numeral,
            digitsOf (digits.flatMap String.toList) = others.flatMap letters ↔ others = numerals) ∧
          (codes.filterMap number? = numerals.map fun numeral => min numeral.value maxNumber) ∧
          (codes.map (fun code => decide (code = save)) =
            ((digits.flatMap String.toList).filter fun c => ¬ IsLeading c).map
              fun c => decide (c = 'Z')) ∧
          (Unbroken (digits.flatMap String.toList) →
            (∀ numeral ∈ numerals, numeral.value ≤ maxNumber) →
            codes.flatMap encode = digits.flatMap String.toList) := by
  refine ⟨value_bijective, encode_value, fun codes digits => decode_of_flatMap_encode,
    fun digits => ⟨?_, fun codes hdecode => ?_⟩⟩
  · constructor
    · rintro ⟨codes, hdecode⟩
      obtain ⟨numerals, hspells⟩ :=
        decodeBehind_eq_ok_iff.mp (show decodeBehind [] _ = _ from hdecode)
      exact ⟨hspells.between, hspells.finished⟩
    · rintro ⟨hbetween, hfinished⟩
      obtain ⟨numerals, codes, hspells⟩ :=
        exists_spells hbetween (show Finished (written [] _) from hfinished)
      exact ⟨codes, decodeBehind_eq_ok_iff.mpr ⟨numerals, hspells⟩⟩
  · obtain ⟨numerals, hspells⟩ :=
      decodeBehind_eq_ok_iff.mp (show decodeBehind [] _ = _ from hdecode)
    refine ⟨numerals, fun others => ?_, hspells.numbers_eq, hspells.order_eq,
      hspells.flatMap_encode⟩
    have hdigits : digitsOf (digits.flatMap String.toList) = numerals.flatMap letters :=
      hspells.digitsOf_eq
    rw [hdigits]
    exact ⟨fun hequal => flatMap_letters_injective hequal.symm, fun hequal => by rw [hequal]⟩

/-- A numeral that is divided between two words, and one that is broken by the letter `Z`. The
digits of the broken one keep their value, but writing it gives other letters. -/
theorem decode_bijective_numeration_broken :
    decode ["Y", "TUZ", "UA"] = .ok [index 119, save, index 120] ∧
      Finished ['Y', 'T', 'U', 'Z', 'U', 'A'] ∧
      (∀ others : List Numeral, ['Y', 'T', 'U', 'U', 'A'] = others.flatMap letters ↔
        others = [⟨[4], 19⟩, ⟨[0, 0], 0⟩]) ∧
      [index 119, save, index 120].flatMap encode = ['Y', 'T', 'Z', 'U', 'U', 'A'] := by
  obtain ⟨-, -, -, hreads⟩ := decode_bijective_numeration
  have hdecode : decode ["Y", "TUZ", "UA"] = .ok [index 119, save, index 120] := rfl
  obtain ⟨hsucceeds, hcodes⟩ := hreads ["Y", "TUZ", "UA"]
  obtain ⟨numerals, hnumerals, -, -, -⟩ := hcodes _ hdecode
  have hequal : [⟨[4], 19⟩, ⟨[0, 0], 0⟩] = numerals := (hnumerals _).mp rfl
  refine ⟨hdecode, (hsucceeds.mp ⟨_, hdecode⟩).2, ?_, ?_⟩
  · rw [hequal]
    exact hnumerals
  · simp [encode, leadingLetters]

end Code

end Metamath.Proof
