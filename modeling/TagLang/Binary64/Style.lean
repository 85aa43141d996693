import TagLang.Binary64.Shortest

/-!
# Number styles

How the digits of a finite binary64 number become text. Two formats write such numbers, and they
differ in the decisions that a `Style` holds.
-/

namespace TagLang.Binary64

/-- Positional notation is used for the scientific exponents from `plainFrom` to below `plainBelow`,
always with a digit behind the point; other numbers have an exponent, and no point behind a single
digit. -/
structure Style where
  tie : Tie
  plainFrom : Int
  plainBelow : Int
  /-- Whether an exponent that is not negative gets a plus sign. -/
  plusSign : Bool
  deriving DecidableEq, Repr, Inhabited

/-- Digits in positional notation, `exponent` being the power of ten of the last one. -/
def plainText (digits : List Char) (exponent : Int) : List Char :=
  let point : Int := digits.length + exponent
  if 0 ≤ exponent then digits ++ List.replicate exponent.toNat '0' ++ ['.', '0']
  else if 0 < point then digits.take point.toNat ++ '.' :: digits.drop point.toNat
  else '0' :: '.' :: (List.replicate (-point).toNat '0' ++ digits)

/-- Digits in scientific notation, `exponent` being the power of ten of the first one. -/
def scientificText (plusSign : Bool) (digits : List Char) (exponent : Int) : List Char :=
  let mantissa :=
    match digits with
    | first :: second :: more => first :: '.' :: second :: more
    | short => short
  let sign := if plusSign ∧ 0 ≤ exponent then ['+'] else []
  mantissa ++ 'e' :: sign ++ (Text.intText exponent).toList

/-- The text of a finite number. -/
def text (style : Style) (x : Binary64) : String :=
  let sign := if x.negative then ['-'] else []
  let unsigned :=
    if x.magnitude = 0 then ['0', '.', '0']
    else
      let d := x.shortest style.tie
      let digits := Nat.toDigits 10 d.digits
      let leading : Int := d.exponent + digits.length - 1
      if style.plainFrom ≤ leading ∧ leading < style.plainBelow then plainText digits d.exponent
      else scientificText style.plusSign digits leading
  String.ofList (sign ++ unsigned)

end TagLang.Binary64
