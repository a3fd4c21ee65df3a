/-!
# Numbers of JSON

A number is kept as it is written: sign, digits before and after the point, and exponent. Two things
are asked of it. The first is whether it is a natural number of 64 bits, which needs a text without
sign, fraction and exponent. The second is whether it can be represented at all: a number that is
too large for a binary floating point number of 64 bits is refused even where its value does not
matter.
-/

namespace Metamath.Json

/-- A number as it is written. -/
structure Number where
  negative : Bool
  /-- the digits before the point -/
  integer : List Char
  /-- the digits after the point, if there is one -/
  fraction : Option (List Char)
  /-- the sign (true if negative) and the digits of the exponent, if there is one -/
  exponent : Option (Bool × List Char)
  deriving DecidableEq, Repr

namespace Number

def value (digits : List Char) : Nat :=
  digits.foldl (fun n c => n * 10 + (c.toNat - '0'.toNat)) 0

def spanDigits (text : List Char) : List Char × List Char :=
  (text.takeWhile Char.isDigit, text.dropWhile Char.isDigit)

/-- Read an exponent that makes up a whole text; a number without exponent has an empty one. -/
def exponentOf? (text : List Char) : Option (Option (Bool × List Char)) :=
  match text with
  | [] => some none
  | mark :: rest =>
    if mark = 'e' ∨ mark = 'E' then
      let (negative, digits) :=
        match rest with
        | '+' :: digits => (false, digits)
        | '-' :: digits => (true, digits)
        | digits => (false, digits)
      if !digits.isEmpty && digits.all Char.isDigit then some (some (negative, digits)) else none
    else none

/-- Read a number that makes up a whole text. There are no superfluous leading zeros, and at least
one digit stands on each side of a point. -/
def ofChars? (text : List Char) : Option Number :=
  let (negative, text) :=
    match text with
    | '-' :: rest => (true, rest)
    | _ => (false, text)
  let (integer, text) := spanDigits text
  if integer.isEmpty || (integer.head? == some '0' && integer.length > 1) then none
  else
    match text with
    | '.' :: rest =>
      let (fraction, text) := spanDigits rest
      if fraction.isEmpty then none
      else (exponentOf? text).map fun exponent => ⟨negative, integer, some fraction, exponent⟩
    | _ => (exponentOf? text).map fun exponent => ⟨negative, integer, none, exponent⟩

/-- The natural number of 64 bits that is written, if it is one. -/
def natural? (number : Number) : Option Nat :=
  if number.negative || number.fraction.isSome || number.exponent.isSome then none
  else if value number.integer < UInt64.size then some (value number.integer)
  else none

/-- As many digits of a number as 64 bits can hold, and how many digits are left over. -/
def significand (start : Nat) : List Char → Nat × Nat
  | [] => (start, 0)
  | c :: rest =>
    let next := start * 10 + (c.toNat - '0'.toNat)
    if next < UInt64.size then significand next rest else (start, rest.length + 1)

/-- Whether a number can be represented in floating point: its first digits, as many as 64 bits can
hold, times a power of ten, must not overflow. -/
def isRepresentable (number : Number) : Bool :=
  let (leading, dropped) := significand 0 number.integer
  let fraction := number.fraction.getD []
  let (digits, ignored) := significand leading fraction
  let shift : Int := dropped - (fraction.length - ignored : Nat)
  let written : Int :=
    match number.exponent with
    | none => 0
    | some (negative, digits) => if negative then -value digits else value digits
  let exponent := shift + written
  if digits = 0 ∨ exponent < 0 then true
  else if exponent > 308 then false
  else !(Float.ofNat digits * Float.ofScientific 1 false exponent.toNat).isInf

end Number

end Metamath.Json
