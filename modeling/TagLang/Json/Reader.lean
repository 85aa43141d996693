import TagLang.Binary64.Decimal
import TagLang.Json.Basic

/-!
# Reading JSON text

A JSON text is cut into lexemes, and the lexemes drive a machine whose state is the value or key
that has to come next, under the arrays and objects that are still open. `Json.parse?` is `none` for
a text that is no JSON document, that escapes half a surrogate pair, or that holds a number too
large for binary64. `Json.parseWithin?` also refuses documents that are nested too deeply.
-/

namespace TagLang.Json

inductive Lexeme where
  | leftBracket
  | rightBracket
  | leftBrace
  | rightBrace
  | comma
  | colon
  /-- A string, a number or one of the three words. -/
  | scalar (value : Json)
  deriving Inhabited

/-! ## Scalars -/

/-- Four hexadecimal digits. -/
def unit? (a b c d : Char) : Option Nat :=
  Text.digitsValue? 16 [a, b, c, d]

/-- The character that a backslash and this letter stand for. -/
def escaped? : Char → Option Char
  | '"' => some '"'
  | '\\' => some '\\'
  | '/' => some '/'
  | 'b' => some '\x08'
  | 'f' => some '\x0c'
  | 'n' => some '\n'
  | 'r' => some '\r'
  | 't' => some '\t'
  | _ => none

def isHighSurrogate (n : Nat) : Bool := 0xD800 ≤ n && n < 0xDC00

def isLowSurrogate (n : Nat) : Bool := 0xDC00 ≤ n && n < 0xE000

/-- Reads a string behind its opening quote: the text, behind what was already read, newest first,
and what follows the closing quote. -/
def readString (done : List Char) : List Char → Option (String × List Char)
  | '"' :: rest => some (String.ofList done.reverse, rest)
  | '\\' :: 'u' :: a :: b :: c :: d :: rest =>
    match unit? a b c d with
    | none => none
    | some unit =>
      if isHighSurrogate unit then
        match rest with
        | '\\' :: 'u' :: e :: f :: g :: h :: rest =>
          match unit? e f g h with
          | none => none
          | some low =>
            if isLowSurrogate low then
              readString
                (Char.ofNat (0x10000 + (unit - 0xD800) * 0x400 + (low - 0xDC00)) :: done) rest
            else none
        | _ => none
      else if isLowSurrogate unit then none
      else readString (Char.ofNat unit :: done) rest
  | '\\' :: c :: rest =>
    match escaped? c with
    | some d => readString (d :: done) rest
    | none => none
  | c :: rest => if c.toNat < 0x20 then none else readString (c :: done) rest
  | [] => none

/-- The characters of which numbers are made. -/
def isNumberChar (c : Char) : Bool :=
  c.isDigit || c == '-' || c == '+' || c == '.' || c == 'e' || c == 'E'

/-- Whether a decimal point has a digit behind it. -/
def goodFraction : List Char → Bool
  | '.' :: c :: _ => c.isDigit
  | ['.'] => false
  | _ => true

/-- Reads a number that is not too large for binary64. Without fraction and exponent it is an
integer, only that a negative zero is not one. -/
def numeral? (text : List Char) : Option Json :=
  let (negative, unsigned) :=
    match text with
    | '-' :: rest => (true, rest)
    | _ => (false, text)
  let whole := unsigned.takeWhile Char.isDigit
  let rest := unsigned.dropWhile Char.isDigit
  if whole.isEmpty || (whole.head? == some '0' && 1 < whole.length) || !goodFraction rest then none
  else if rest.isEmpty then
    let n := Nat.ofDigitChars 10 whole 0
    if negative && n == 0 then some (.float (.ofMagnitude true 0))
    else if n < Binary64.integerBound then some (.int (Text.signed negative n))
    else none
  else
    match Decimal.ofText? text with
    | none => none
    | some decimal =>
      let x := decimal.toBinary64
      if x.isFinite then some (.float x) else none

/-- The three words. -/
def word? (text : List Char) : Option Json :=
  if text = ['n', 'u', 'l', 'l'] then some .null
  else if text = ['t', 'r', 'u', 'e'] then some (.bool true)
  else if text = ['f', 'a', 'l', 's', 'e'] then some (.bool false)
  else none

/-! ## Lexemes -/

def isSpace (c : Char) : Bool :=
  c == ' ' || c == '\t' || c == '\n' || c == '\r'

/-- The lexeme that starts with a character, and what follows it. -/
def lexeme? (c : Char) (rest : List Char) : Option (Lexeme × List Char) :=
  match c with
  | '[' => some (.leftBracket, rest)
  | ']' => some (.rightBracket, rest)
  | '\x7b' => some (.leftBrace, rest)
  | '\x7d' => some (.rightBrace, rest)
  | ',' => some (.comma, rest)
  | ':' => some (.colon, rest)
  | '"' => (readString [] rest).map fun (text, rest) => (.scalar (.str text), rest)
  | _ =>
    if c.isDigit || c == '-' then
      (numeral? (c :: rest.takeWhile isNumberChar)).map fun value =>
        (.scalar value, rest.dropWhile isNumberChar)
    else
      (word? (c :: rest.takeWhile Char.isAlpha)).map fun value =>
        (.scalar value, rest.dropWhile Char.isAlpha)

theorem length_of_readString {done text : List Char} {s : String} {rest : List Char}
    (h : readString done text = some (s, rest)) : rest.length ≤ text.length := by
  fun_induction readString done text <;> simp_all <;> grind

theorem length_of_lexeme? {c : Char} {text rest : List Char} {l : Lexeme}
    (h : lexeme? c text = some (l, rest)) : rest.length ≤ text.length := by
  unfold lexeme? at h
  split at h
  case h_7 =>
    obtain ⟨⟨s, r⟩, hr, he⟩ := Option.map_eq_some_iff.1 h
    cases he
    exact length_of_readString hr
  case h_8 =>
    split at h <;>
    · obtain ⟨_, _, he⟩ := Option.map_eq_some_iff.1 h
      cases he
      exact (List.dropWhile_suffix _).length_le
  all_goals cases h; exact Nat.le_refl _

/-- The lexemes of a text, behind those already found, newest first. -/
def lexemesFrom (done : List Lexeme) : List Char → Option (List Lexeme)
  | [] => some done.reverse
  | c :: rest =>
    if isSpace c then lexemesFrom done rest
    else
      match _h : lexeme? c rest with
      | none => none
      | some (l, rest) => lexemesFrom (l :: done) rest
termination_by text => text.length
decreasing_by
  · simp
  · have := length_of_lexeme? _h
    simp only [List.length_cons]
    omega

/-! ## Values -/

/-- An array or object that is not closed yet, with what it holds so far, newest first; an object is
at the value of `key`. -/
inductive Open where
  | array (done : List Json)
  | object (done : List (String × Json)) (key : String)
  deriving Inhabited

/-- What has been read, and so what may come next. -/
inductive State where
  /-- A value has to follow. -/
  | needValue (stack : List Open)
  /-- An array was opened: its first value or its end has to follow. -/
  | needItem (stack : List Open)
  /-- A key has to follow or, if `first`, the end of the object. -/
  | needKey (first : Bool) (done : List (String × Json)) (stack : List Open)
  /-- A key was read: a colon has to follow. -/
  | needColon (done : List (String × Json)) (key : String) (stack : List Open)
  /-- A value is complete. -/
  | complete (value : Json) (stack : List Open)
  deriving Inhabited

namespace State

/-- Takes the first lexeme of a value. -/
def startValue (stack : List Open) : Lexeme → Option State
  | .scalar value => some (.complete value stack)
  | .leftBracket => some (.needItem stack)
  | .leftBrace => some (.needKey true [] stack)
  | _ => none

def step : State → Lexeme → Option State
  | .needValue stack, l => startValue stack l
  | .needItem stack, .rightBracket => some (.complete (.arr []) stack)
  | .needItem stack, l => startValue (.array [] :: stack) l
  | .needKey _ done stack, .scalar (.str key) => some (.needColon done key stack)
  | .needKey true _ stack, .rightBrace => some (.complete (.obj []) stack)
  | .needKey .., _ => none
  | .needColon done key stack, .colon => some (.needValue (.object done key :: stack))
  | .needColon .., _ => none
  | .complete value (.array done :: stack), .comma =>
    some (.needValue (.array (value :: done) :: stack))
  | .complete value (.array done :: stack), .rightBracket =>
    some (.complete (.arr (value :: done).reverse) stack)
  | .complete value (.object done key :: stack), .comma =>
    some (.needKey false ((key, value) :: done) stack)
  | .complete value (.object done key :: stack), .rightBrace =>
    some (.complete (.obj ((key, value) :: done).reverse) stack)
  | .complete .., _ => none

/-- The value of a text that ends here. -/
def finish? : State → Option Json
  | .complete value [] => some value
  | _ => none

end State

/-- Reads a JSON document. -/
def parse? (text : String) : Option Json := do
  let lexemes ← lexemesFrom [] text.toList
  let state ← lexemes.foldlM State.step (.needValue [])
  state.finish?

/-! ## Nesting -/

mutual

/-- Whether at most `bound` arrays and objects stand inside one another. -/
def nestsWithin (bound : Nat) : Json → Bool
  | .arr items =>
    match bound with
    | 0 => false
    | bound + 1 => itemsNestWithin bound items
  | .obj fields =>
    match bound with
    | 0 => false
    | bound + 1 => fieldsNestWithin bound fields
  | _ => true

def itemsNestWithin (bound : Nat) : List Json → Bool
  | [] => true
  | json :: rest => nestsWithin bound json && itemsNestWithin bound rest

def fieldsNestWithin (bound : Nat) : List (String × Json) → Bool
  | [] => true
  | (_, json) :: rest => nestsWithin bound json && fieldsNestWithin bound rest

end

/-- How deeply a document may be nested. -/
def maxNesting : Nat := 127

/-- Reads a JSON document that is nested no deeper than `bound`. -/
def parseWithin? (bound : Nat) (text : String) : Option Json :=
  (parse? text).filter (nestsWithin bound)

end TagLang.Json
