import Mathlib.Tactic.IntervalCases
import Metamath.Proof.Code

/-!
# Letters and numbers of compressed proofs

Writing an instruction and reading the letters gives the instruction back, as long as its number
is one that an instruction can carry. Instructions need no separators: the letter that ends a
number also ends the instruction, so a sequence of them can be written without gaps, and then be
cut into words at any places.
-/

namespace Metamath.Proof

theorem Letter.ofChar?_last {digit : Nat} (hdigit : digit < 20) :
    Letter.ofChar? (Char.ofNat ('A'.toNat + digit)) = some (.last digit) := by
  interval_cases digit <;> rfl

theorem Letter.ofChar?_continued {digit : Nat} (hdigit : digit < 5) :
    Letter.ofChar? (Char.ofNat ('U'.toNat + digit)) = some (.continued (digit + 1)) := by
  interval_cases digit <;> rfl

namespace Code

theorem saturate_of_le {number : Nat} (hbound : number ≤ maxNumber) : saturate number = number :=
  min_eq_left hbound

/-- The leading letters of a number are read as this number, whatever follows them. -/
theorem decodeFrom_leadingLetters {number : Nat} (hbound : number ≤ maxNumber)
    (rest : List Char) :
    decodeFrom 0 false (leadingLetters number ++ rest) =
      decodeFrom number (decide (0 < number)) rest := by
  induction number using Nat.strong_induction_on generalizing rest with
  | _ number ih =>
    by_cases hzero : number = 0
    · subst hzero
      rw [leadingLetters, if_pos rfl]
      rfl
    · -- the last letter counts `(number - 1) % 5 + 1`, the letters before it write the quotient
      have hsmaller : (number - 1) / 5 < number := by omega
      have hvalue : (number - 1) / 5 * 5 + ((number - 1) % 5 + 1) = number := by omega
      rw [leadingLetters, if_neg hzero, List.append_assoc, ih _ hsmaller (by omega),
        List.singleton_append, decodeFrom, Letter.ofChar?_continued (Nat.mod_lt _ (by omega))]
      simp only [hvalue, saturate_of_le hbound, Nat.pos_of_ne_zero hzero, decide_true]

/-- The letters of an instruction are read as this instruction, whatever follows them. -/
theorem decodeFrom_encode (code : Code) (hbound : ∀ number, code = index number →
    number ≤ maxNumber) (rest : List Char) :
    decodeFrom 0 false (code.encode ++ rest) = (decodeFrom 0 false rest).map (code :: ·) := by
  cases code with
  | save => rfl
  | index number =>
    have hnumber : number ≤ maxNumber := hbound number rfl
    have hvalue : number / 20 * 20 + number % 20 = number := by omega
    rw [encode, List.append_assoc, decodeFrom_leadingLetters (by omega), List.singleton_append,
      decodeFrom, Letter.ofChar?_last (Nat.mod_lt _ (by omega))]
    simp only [hvalue, saturate_of_le hnumber]

/-- Words whose letters write instructions one after another are read as these instructions. -/
theorem decode_of_flatMap_encode {codes : List Code} {digits : List String}
    (hbound : ∀ number, index number ∈ codes → number ≤ maxNumber)
    (hdigits : digits.flatMap String.toList = codes.flatMap encode) :
    decode digits = .ok codes := by
  rw [decode, hdigits]
  clear hdigits
  induction codes with
  | nil => rfl
  | cons code rest ih =>
    have hfirst : ∀ number, code = index number → number ≤ maxNumber :=
      fun number hcode => hbound number (by rw [hcode]; exact List.mem_cons_self)
    have hrest : ∀ number, index number ∈ rest → number ≤ maxNumber :=
      fun number hmem => hbound number (List.mem_cons_of_mem _ hmem)
    rw [List.flatMap_cons, decodeFrom_encode code hfirst, ih hrest]
    rfl

end Code

end Metamath.Proof
