import TagLang.Fields
import TagLang.Text.Numeral

/-!
# Configuration text

A line-based format for settings, a part of TOML: comments, `[table]` headers, and lines `key =
value` with truth values, integers and one-line strings. Keys and headers may be dotted, with a
bounded number of parts. No key is set twice and no table is opened twice.
-/

namespace TagLang

/-- How a table came up. -/
inductive TableOrigin where
  /-- By a header of its own, or as the whole document. -/
  | header
  /-- By the header of a table inside it. -/
  | implied
  /-- By a dotted key. -/
  | dotted
  deriving DecidableEq, Repr, Inhabited

inductive Toml where
  | bool (value : Bool)
  | int (value : Int64)
  | str (value : String)
  | table (origin : TableOrigin) (fields : List (String × Toml))
  deriving Inhabited

namespace Toml

/-! ## Words of a line -/

inductive Lexeme where
  | leftBracket
  | rightBracket
  | dot
  | equals
  /-- A run of letters, digits, `_`, `-` and `+`. -/
  | word (text : List Char)
  | string (value : String)
  deriving DecidableEq, Repr, Inhabited

/-- The characters of keys without quotes. -/
def isKeyChar (c : Char) : Bool :=
  c.isAlphanum || c == '_' || c == '-'

def isWordChar (c : Char) : Bool :=
  isKeyChar c || c == '+'

/-- Control characters other than a tab stand neither in strings nor in comments. -/
def isTextChar (c : Char) : Bool :=
  c == '\t' || (decide (0x20 ≤ c.toNat) && c.toNat != 0x7F)

/-- The character that a backslash and this letter stand for. -/
def escaped? : Char → Option Char
  | 'b' => some '\x08'
  | 't' => some '\t'
  | 'n' => some '\n'
  | 'f' => some '\x0c'
  | 'r' => some '\r'
  | '"' => some '"'
  | '\\' => some '\\'
  | _ => none

/-- The character with a code point in hexadecimal digits; surrogates are no characters. -/
def codePoint? (digits : List Char) : Option Char := do
  let n ← Text.digitsValue? 16 digits
  if n.isValidChar then return Char.ofNat n else none

/-- Reads a string with escapes behind its opening quote: the text, behind what was already read,
newest first, and what follows the closing quote. -/
def readString (done : List Char) : List Char → Option (String × List Char)
  | '"' :: rest => some (String.ofList done.reverse, rest)
  | '\\' :: 'u' :: a :: b :: c :: d :: rest =>
    match codePoint? [a, b, c, d] with
    | some x => readString (x :: done) rest
    | none => none
  | '\\' :: 'U' :: a :: b :: c :: d :: e :: f :: g :: h :: rest =>
    match codePoint? [a, b, c, d, e, f, g, h] with
    | some x => readString (x :: done) rest
    | none => none
  | '\\' :: c :: rest =>
    match escaped? c with
    | some x => readString (x :: done) rest
    | none => none
  | c :: rest => if isTextChar c then readString (c :: done) rest else none
  | [] => none

/-- Reads a string without escapes behind its opening apostrophe. -/
def readLiteral (text : List Char) : Option (String × List Char) :=
  let body := text.takeWhile (· ≠ '\x27')
  match text.dropWhile (· ≠ '\x27') with
  | _ :: rest => if body.all isTextChar then some (String.ofList body, rest) else none
  | [] => none

/-- The lexeme that starts with a character, and what follows it. -/
def lexeme? (c : Char) (rest : List Char) : Option (Lexeme × List Char) :=
  match c with
  | '[' => some (.leftBracket, rest)
  | ']' => some (.rightBracket, rest)
  | '.' => some (.dot, rest)
  | '=' => some (.equals, rest)
  | '"' => (readString [] rest).map fun (text, rest) => (.string text, rest)
  | '\x27' => (readLiteral rest).map fun (text, rest) => (.string text, rest)
  | c =>
    if isWordChar c then some (.word (c :: rest.takeWhile isWordChar), rest.dropWhile isWordChar)
    else none

theorem length_of_readString {done text : List Char} {s : String} {rest : List Char}
    (h : readString done text = some (s, rest)) : rest.length ≤ text.length := by
  fun_induction readString done text <;> simp_all <;> grind

theorem length_of_readLiteral {text : List Char} {s : String} {rest : List Char}
    (h : readLiteral text = some (s, rest)) : rest.length ≤ text.length := by
  unfold readLiteral at h
  have hle := (List.dropWhile_suffix (l := text) (fun c => decide (c ≠ '\x27'))).length_le
  dsimp only at h
  split at h
  · next hs =>
    rw [hs, List.length_cons] at hle
    split at h
    · cases h; omega
    · cases h
  · cases h

theorem length_of_lexeme? {c : Char} {text rest : List Char} {l : Lexeme}
    (h : lexeme? c text = some (l, rest)) : rest.length ≤ text.length := by
  unfold lexeme? at h
  split at h
  case h_5 =>
    obtain ⟨_, hr, he⟩ := Option.map_eq_some_iff.1 h
    cases he
    exact length_of_readString hr
  case h_6 =>
    obtain ⟨_, hr, he⟩ := Option.map_eq_some_iff.1 h
    cases he
    exact length_of_readLiteral hr
  case h_7 =>
    split at h
    · cases h; exact (List.dropWhile_suffix _).length_le
    · cases h
  all_goals cases h; exact Nat.le_refl _

/-- The lexemes of a line up to its end or a comment, behind those already found, newest first. -/
def lexemesFrom (done : List Lexeme) : List Char → Option (List Lexeme)
  | [] => some done.reverse
  | c :: rest =>
    if c = ' ' ∨ c = '\t' then lexemesFrom done rest
    else if c = '#' then if rest.all isTextChar then some done.reverse else none
    else
      match _h : lexeme? c rest with
      | none => none
      | some (l, rest) => lexemesFrom (l :: done) rest
termination_by text => text.length
decreasing_by
  · simp
  · have := length_of_lexeme? _h
    simp only [List.length_cons]
    omega

/-! ## Keys and values -/

/-- One part of a key. -/
def keyPart? : Lexeme → Option String
  | .word text => if text.all isKeyChar then some (String.ofList text) else none
  | .string value => some value
  | _ => none

/-- The parts of a dotted key and what follows them. -/
def keyParts? : List Lexeme → Option (List String × List Lexeme)
  | part :: .dot :: rest => do
    let name ← keyPart? part
    let (names, rest) ← keyParts? rest
    return (name :: names, rest)
  | part :: rest => do return ([← keyPart? part], rest)
  | [] => none

/-- How many parts a dotted key may have. -/
def maxKeyParts : Nat := 79

/-- A dotted key and what follows it. The bound is on each key by itself: a key in a table may have
as many parts as the header of the table. -/
def key? (lexemes : List Lexeme) : Option (List String × List Lexeme) :=
  (keyParts? lexemes).filter fun (names, _) => names.length ≤ maxKeyParts

/-- The number that groups of digits write, with single underscores between them. -/
def digitGroups? (base : Nat) (digits : List Char) : Option Nat :=
  if (digits.splitOn '_').any List.isEmpty then none
  else Text.digitsValue? base (digits.filter (· ≠ '_'))

/-- A number in base ten has no zero in front of other digits. -/
def decimalDigits? (digits : List Char) : Option Nat :=
  if digits.head? = some '0' ∧ digits ≠ ['0'] then none else digitGroups? 10 digits

/-- An integer: in base ten with an optional sign, in other bases without. -/
def integer? : List Char → Option Int
  | '0' :: 'x' :: digits => (digitGroups? 16 digits).map Int.ofNat
  | '0' :: 'o' :: digits => (digitGroups? 8 digits).map Int.ofNat
  | '0' :: 'b' :: digits => (digitGroups? 2 digits).map Int.ofNat
  | text =>
    let (negative, digits) := Text.splitSign text
    (decimalDigits? digits).map (Text.signed negative)

/-- A truth value, an integer of 64 bits or a string. -/
def value? : Lexeme → Option Toml
  | .string value => some (.str value)
  | .word text =>
    if text = ['t', 'r', 'u', 'e'] then some (.bool true)
    else if text = ['f', 'a', 'l', 's', 'e'] then some (.bool false)
    else do return .int (← Text.int64? (← integer? text))
  | _ => none

/-! ## Tables -/

/-- Changes the table at a path. A table that is missing on the way is made with the origin `made`;
one that is there must have an origin that may be `entered`. -/
def atPath (made : TableOrigin) (entered : TableOrigin → Bool)
    (change : TableOrigin → List (String × Toml) → Option Toml) : List String → Toml → Option Toml
  | [], .table origin fields => change origin fields
  | name :: path, .table origin fields => do
    let inner ←
      match fields.lookup name with
      | none => some (.table made [])
      | some (.table innerOrigin inner) =>
        if entered innerOrigin then some (.table innerOrigin inner) else none
      | some _ => none
    return .table origin (Fields.insert fields name (← atPath made entered change path inner))
  | _, _ => none

/-- Opens the table of a header. It may be there already if only tables inside it were opened. -/
def openTable (path : List String) (name : String) (document : Toml) : Option Toml :=
  document |> atPath .implied (fun _ => true) (fun origin fields =>
    match fields.lookup name with
    | none => some (.table origin (Fields.insert fields name (.table .header [])))
    | some (.table .implied inner) =>
      some (.table origin (Fields.insert fields name (.table .header inner)))
    | some _ => none) path

/-- Sets a dotted key in a table. Dotted keys make tables of their own and do not add to tables with
a header. -/
def setKey (path : List String) (name : String) (value : Toml) (table : Toml) : Option Toml :=
  table |> atPath .dotted (· ≠ .header) (fun origin fields =>
    if (!path.isEmpty && origin != .dotted) || (fields.lookup name).isSome then none
    else some (.table origin (Fields.insert fields name value))) path

/-! ## Documents -/

/-- A document so far, and the path of the table that is open. -/
structure Reading where
  document : Toml
  current : List String
  deriving Inhabited

/-- The last part of a path, and the parts before it. -/
def splitLast (path : List String) : Option (List String × String) :=
  path.getLast?.map fun last => (path.dropLast, last)

/-- Takes a line. -/
def Reading.line (r : Reading) (text : List Char) : Option Reading := do
  match ← lexemesFrom [] text with
  | [] => return r
  | .leftBracket :: rest =>
    match ← key? rest with
    | (path, [.rightBracket]) =>
      let (outer, name) ← splitLast path
      return ⟨← openTable outer name r.document, path⟩
    | _ => none
  | lexemes =>
    match ← key? lexemes with
    | (path, [.equals, lexeme]) =>
      let (outer, name) ← splitLast path
      let value ← value? lexeme
      let set (origin : TableOrigin) (fields : List (String × Toml)) : Option Toml :=
        setKey outer name value (.table origin fields)
      return { r with document := ← atPath .implied (fun _ => true) set r.current r.document }
    | _ => none

/-- The lines of a text. A line ends with a line feed, or a carriage return and a line feed. -/
def lines (text : List Char) : List (List Char) :=
  match (text.splitOn '\n').reverse with
  | [] => []
  | last :: others =>
    (last :: others.map fun line =>
      if line.getLast? = some '\r' then line.dropLast else line).reverse

/-- Reads a document; a byte order mark in front of it is skipped. -/
def parse? (text : String) : Option Toml := do
  let chars :=
    match text.toList with
    | '\ufeff' :: rest => rest
    | chars => chars
  let r ← (lines chars).foldlM Reading.line ⟨.table .header [], []⟩
  return r.document

end Toml

end TagLang
