import TagLang.Binary64.Decimal
import TagLang.Node.Basic

/-!
# Literals

What an identifier stands for. Every text is exactly one of an integer, a float, a complex number, a
keyword or a symbol, tried in this order; an integer may be too large to become a node.
-/

namespace TagLang

/-- What an identifier stands for. -/
inductive Literal where
  | integer (value : Int) (base : Base)
  | float (value : Binary64)
  | complex (re im : Binary64)
  | keyword (name : String)
  | symbol (name : String)
  deriving DecidableEq, Repr, Inhabited

/-- The base that a numeral announces, and its digits. -/
def Base.split : List Char → Base × List Char
  | '0' :: 'b' :: digits => (.binary, digits)
  | '0' :: 'B' :: digits => (.binary, digits)
  | '0' :: 'o' :: digits => (.octal, digits)
  | '0' :: 'O' :: digits => (.octal, digits)
  | '0' :: 'x' :: digits => (.hexadecimal, digits)
  | '0' :: 'X' :: digits => (.hexadecimal, digits)
  | digits => (.decimal, digits)

namespace Literal

/-- An integer: an optional sign, an optional base, and at least one digit of the base. -/
def integer? (text : List Char) : Option Literal :=
  let (negative, unsigned) := Text.splitSign text
  let (base, digits) := Base.split unsigned
  (Text.digitsValue? base.radix digits).map fun n => .integer (Text.signed negative n) base

/-- The float that a decimal numeral writes. -/
def decimal? (text : List Char) : Option Binary64 :=
  (Decimal.ofText? text).map Decimal.toBinary64

/-- Splits a sum at its last sign that is neither at its start nor part of an exponent. The text is
given backwards, what has been passed of it forwards. -/
def splitSum (passed : List Char) : List Char → Option (List Char × List Char)
  | c :: d :: rest =>
    if (c = '+' ∨ c = '-') ∧ d ≠ 'e' ∧ d ≠ 'E' then some ((d :: rest).reverse, c :: passed)
    else splitSum (c :: passed) (d :: rest)
  | _ => none

/-- A complex number: an imaginary part, or a sum of a real and an imaginary part; the imaginary
unit `j` or `J` stands at the end. -/
def complex? (text : List Char) : Option Literal :=
  match text.reverse with
  | [] => none
  | c :: reversed =>
    if c = 'j' ∨ c = 'J' then
      match decimal? reversed.reverse with
      | some im => some (.complex .zero im)
      | none => do
        let (re, im) ← splitSum [] reversed
        return .complex (← decimal? re) (← decimal? im)
    else none

/-- A keyword: a colon and a name. -/
def keyword? : List Char → Option Literal
  | ':' :: c :: name => some (.keyword (String.ofList (c :: name)))
  | _ => none

/-- What a text stands for. -/
def classify (text : String) : Literal :=
  let chars := text.toList
  (integer? chars <|> (decimal? chars).map Literal.float <|> complex? chars <|> keyword? chars).getD
    (.symbol text)

/-- The node of a literal; there is none for an integer that does not fit into 64 bits. -/
def node? : Literal → Option Node
  | .integer n base => (Text.int64? n).map fun value => .integer value base
  | .float x => some (.float x)
  | .complex re im => some (.complex re im)
  | .keyword name => some (.keyword name)
  | .symbol name => some (.symbol name)

end Literal

/-- The node that an identifier stands for; an integer that does not fit into 64 bits has none. -/
def Node.ofIdentifier? (text : String) : Option Node := (Literal.classify text).node?

end TagLang
