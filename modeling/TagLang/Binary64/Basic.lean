/-!
# Binary64 words

A floating-point number of the IEEE 754 format binary64, kept as its 64 bits. Nothing computes with
these numbers, so they are read, compared and written, all in exact integer arithmetic: the fields
of a word are taken with quotients and remainders, and a finite word stands for
`±significand · 2 ^ exponent`.
-/

namespace TagLang

structure Binary64 where
  bits : UInt64
  deriving DecidableEq, Repr, Inhabited

namespace Binary64

/-- The word of the sign bit alone, `2 ^ 63`. -/
abbrev signUnit : Nat := 0x8000000000000000

/-- One unit of the exponent field, `2 ^ 52`; below it is the fraction field. -/
abbrev exponentUnit : Nat := 0x10000000000000

/-- The word without its sign. Magnitudes are ordered like the numbers that they stand for. -/
def magnitude (x : Binary64) : Nat := x.bits.toNat % signUnit

def negative (x : Binary64) : Bool := decide (signUnit ≤ x.bits.toNat)

/-- The magnitude of infinity; those below it are finite, those above it are no numbers. -/
def infinity : Nat := 0x7FF * exponentUnit

def isFinite (x : Binary64) : Bool := decide (x.magnitude < infinity)

def isNaN (x : Binary64) : Bool := decide (infinity < x.magnitude)

/-- The word with a given sign and magnitude. -/
def ofMagnitude (negative : Bool) (magnitude : Nat) : Binary64 :=
  ⟨UInt64.ofNat ((if negative then signUnit else 0) + magnitude)⟩

/-- Positive zero. -/
def zero : Binary64 := ofMagnitude false 0

/-- The exponent field, with the one of subnormal numbers counted as one: both name the same
power of two. -/
def scale (x : Binary64) : Nat := max 1 (x.magnitude / exponentUnit)

/-- The integer `m` in `m · 2 ^ q`: the fraction field, and the leading one of a normal number. -/
def significand (x : Binary64) : Nat :=
  if x.magnitude < exponentUnit then x.magnitude else exponentUnit + x.magnitude % exponentUnit

/-- The power `q` in `m · 2 ^ q`. -/
def exponent (x : Binary64) : Int := (x.scale : Int) - 1075

/-- The absolute value of a finite word is `numerator / denominator`. -/
def numerator (x : Binary64) : Nat := x.significand * Nat.pow 2 x.exponent.toNat

def denominator (x : Binary64) : Nat := Nat.pow 2 (-x.exponent).toNat

end Binary64

end TagLang
