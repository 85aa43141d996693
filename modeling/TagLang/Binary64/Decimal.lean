import TagLang.Binary64.Basic
import TagLang.Text.Numeral

/-!
# Decimal numbers

A decimal number `±digits · 10 ^ exponent`, how its text is read, and the binary64 number nearest to
it. Rounding is exact: the quotient of two naturals goes to the nearest multiple of the unit in the
last place, a half to the even one, and what is too large becomes infinity.
-/

namespace TagLang

structure Decimal where
  negative : Bool
  digits : Nat
  exponent : Int
  deriving DecidableEq, Repr, Inhabited

/-- A quotient rounded to the nearest natural, a half to the even one. -/
def roundDiv (num den : Nat) : Nat :=
  let quotient := num / den
  let twice := 2 * (num % den)
  if twice < den then quotient
  else if den < twice then quotient + 1
  else if quotient % 2 = 0 then quotient
  else quotient + 1

namespace Binary64

/-- The power of two at or below `num / den`: the `e` with `2 ^ e ≤ num / den < 2 ^ (e + 1)`. -/
def binaryExponent (num den : Nat) : Int :=
  let e : Int := (num.log2 : Int) - den.log2
  if num * Nat.pow 2 (-e).toNat < den * Nat.pow 2 e.toNat then e - 1 else e

/-- The magnitude nearest to `num / den`. The unit in the last place is `2 ^ unit`; since magnitudes
of neighbouring binades follow each other, a significand rounded up to the next power of two needs
no correction. -/
def nearestMagnitude (num den : Nat) : Nat :=
  let unit : Int := max (-1074) (binaryExponent num den - 52)
  let significand := roundDiv (num * Nat.pow 2 (-unit).toNat) (den * Nat.pow 2 unit.toNat)
  min infinity ((unit + 1074).toNat * exponentUnit + significand)

/-- The least natural number that is too large for the format. It lies half way between the largest
finite number and `2 ^ 1024`, and the half goes to the even side, which is infinity. -/
def integerBound : Nat :=
  (Nat.pow 2 54 - 1) * Nat.pow 2 970

end Binary64

namespace Decimal

/-- The `size` with `10 ^ (size - 1) ≤ digits · 10 ^ exponent < 10 ^ size`, if `digits` is not
zero. -/
def size (d : Decimal) : Int :=
  ((Nat.toDigits 10 d.digits).length : Int) + d.exponent

/-- The nearest binary64 number. Numbers of a size beyond the range of the format are told by their
size alone: below `10 ^ -324` all round to zero, from `10 ^ 309` on all to infinity. -/
def toBinary64 (d : Decimal) : Binary64 :=
  if d.digits = 0 ∨ d.size < -323 then .ofMagnitude d.negative 0
  else if 309 < d.size then .ofMagnitude d.negative Binary64.infinity
  else .ofMagnitude d.negative
    (Binary64.nearestMagnitude (d.digits * Nat.pow 10 d.exponent.toNat)
      (Nat.pow 10 (-d.exponent).toNat))

/-- The same number without zeros at the end of its digits. -/
def trim (d : Decimal) : Decimal :=
  if 0 < d.digits ∧ d.digits % 10 = 0 then
    trim ⟨d.negative, d.digits / 10, d.exponent + 1⟩
  else d
termination_by d.digits

/-! ## Text -/

/-- What may follow the digits of a decimal numeral: nothing, or `e` or `E`, an optional sign and at
least one digit. -/
def exponentOf? : List Char → Option Int
  | [] => some 0
  | c :: rest =>
    if c = 'e' ∨ c = 'E' then
      let (negative, digits) := Text.splitSign rest
      (Text.digitsValue? 10 digits).map (Text.signed negative)
    else none

/-- The digits behind a decimal point, and what follows them. -/
def splitFraction : List Char → List Char × List Char
  | '.' :: rest => (rest.takeWhile Char.isDigit, rest.dropWhile Char.isDigit)
  | rest => ([], rest)

/-- Reads a decimal numeral: an optional sign, digits with an optional point before, between or
behind them, and an optional exponent. -/
def ofText? (text : List Char) : Option Decimal :=
  let (negative, unsigned) := Text.splitSign text
  let whole := unsigned.takeWhile Char.isDigit
  let (fraction, rest) := splitFraction (unsigned.dropWhile Char.isDigit)
  if whole.isEmpty && fraction.isEmpty then none
  else (exponentOf? rest).map fun exponent =>
    ⟨negative, Nat.ofDigitChars 10 (whole ++ fraction) 0, exponent - fraction.length⟩

end Decimal

end TagLang
