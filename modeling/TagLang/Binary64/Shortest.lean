import TagLang.Binary64.Decimal

/-!
# Shortest decimals

The decimal with the fewest digits that reads back as a given binary64 number, and of those the one
nearest to it. The search is the definition: for one digit, then two, and so on, the number's two
neighbours on that decimal grid are read back.
-/

namespace TagLang.Binary64

/-- Which of two equally near decimals to write. -/
inductive Tie where
  | toEven
  | awayFromZero
  deriving DecidableEq, Repr, Inhabited

/-- The `k` with `10 ^ (k - 1) ≤ num / den < 10 ^ k`, for a positive quotient. -/
def decimalSize (num den : Nat) : Int :=
  if den ≤ num then (Nat.toDigits 10 (num / den)).length
  else 1 - ((Nat.toDigits 10 ((den + num - 1) / num - 1)).length : Int)

/-- The multiple of `10 ^ grid` nearest to `x` among its two neighbours that read back as `x`. -/
def onGrid? (tie : Tie) (x : Binary64) (grid : Int) : Option Decimal :=
  let num := x.numerator * Nat.pow 10 (-grid).toNat
  let den := x.denominator * Nat.pow 10 grid.toNat
  let below : Decimal := ⟨x.negative, num / den, grid⟩
  let above : Decimal := ⟨x.negative, num / den + 1, grid⟩
  let upper :=
    if 2 * (num % den) = den then
      match tie with
      | .toEven => (num / den) % 2 = 1
      | .awayFromZero => true
    else decide (den < 2 * (num % den))
  match decide (below.toBinary64 = x), decide (above.toBinary64 = x) with
  | true, true => some (if upper then above else below)
  | true, false => some below
  | false, true => some above
  | false, false => none

/-- All digits of a finite number. -/
def exact (x : Binary64) : Decimal :=
  if 0 ≤ x.exponent then ⟨x.negative, x.numerator, 0⟩
  else ⟨x.negative, x.significand * Nat.pow 5 (-x.exponent).toNat, x.exponent⟩

/-- The shortest decimal that reads back as a finite number other than zero. Seventeen digits always
suffice. -/
def shortest (tie : Tie) (x : Binary64) : Decimal :=
  let size := decimalSize x.numerator x.denominator
  (((List.range 17).findSome? fun n : Nat => onGrid? tie x (size - 1 - n)).getD (exact x)).trim

end TagLang.Binary64
