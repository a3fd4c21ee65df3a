import Metamath.Proof.Error

/-!
# The letters of compressed proofs

A compressed proof writes its steps as numbers without separators. The letters `A` to `T` end a
number and count 0 to 19; the letters `U` to `Y` continue one and count 1 to 5. So a number is a
bijective numeral to base five followed by one digit to base twenty. The letter `Z` is no digit: it
asks to save the statement on top of the stack, and it does not disturb a number it stands in.

Numbers are bounded by the largest one of 64 bits and stay there when their digits exceed it.
-/

namespace Metamath.Proof

/-- An instruction of a compressed proof. -/
inductive Code where
  /-- use the step or the saved statement with this number -/
  | index (number : Nat)
  /-- save the statement on top of the stack -/
  | save
  deriving DecidableEq, Repr, Inhabited

/-- The role of a letter of a compressed proof. -/
inductive Letter where
  /-- ends a number -/
  | last (digit : Nat)
  /-- continues a number -/
  | continued (digit : Nat)
  | save
  deriving DecidableEq, Repr

/-- The role of a character, if it is one of the letters `A` to `Z`. -/
def Letter.ofChar? (c : Char) : Option Letter :=
  if 'A' ≤ c ∧ c ≤ 'T' then some (.last (c.toNat - 'A'.toNat))
  else if 'U' ≤ c ∧ c ≤ 'Y' then some (.continued (c.toNat - 'U'.toNat + 1))
  else if c = 'Z' then some .save
  else none

namespace Code

/-- The largest number that an instruction can carry. -/
def maxNumber : Nat := 0xFFFFFFFFFFFFFFFF

/-- The nearest number that an instruction can carry. -/
def saturate (number : Nat) : Nat := min number maxNumber

/-- Read instructions, where `value` is the number that the digits before them began and `pending`
tells whether there are such digits. -/
def decodeFrom (value : Nat) (pending : Bool) : List Char → Except Error (List Code)
  | [] => if pending then .error .danglingDigits else .ok []
  | c :: rest =>
    match Letter.ofChar? c with
    | some (.last digit) =>
      (decodeFrom 0 false rest).map (index (saturate (value * 20 + digit)) :: ·)
    | some (.continued digit) => decodeFrom (saturate (value * 5 + digit)) true rest
    | some .save => (decodeFrom value pending rest).map (save :: ·)
    | none => .error (.invalidChar c)

/-- Read the instructions of a compressed proof. How its letters are divided into words does not
matter. -/
def decode (digits : List String) : Except Error (List Code) :=
  decodeFrom 0 false (digits.flatMap String.toList)

/-- The letters `U` to `Y` that write a number, none for zero. -/
def leadingLetters (number : Nat) : List Char :=
  if number = 0 then []
  else leadingLetters ((number - 1) / 5) ++ [Char.ofNat ('U'.toNat + (number - 1) % 5)]
termination_by number
decreasing_by omega

/-- The letters that write an instruction. -/
def encode : Code → List Char
  | index number =>
    leadingLetters (number / 20) ++ [Char.ofNat ('A'.toNat + number % 20)]
  | save => ['Z']

end Code

end Metamath.Proof
