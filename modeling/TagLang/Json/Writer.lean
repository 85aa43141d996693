import TagLang.Binary64.Style
import TagLang.Json.Basic
import TagLang.Text.Numeral

/-!
# JSON text

Two ways to write a JSON value: without any space, and indented by two spaces a level. A number that
is not finite has no JSON form and is written as `null`.
-/

namespace TagLang.Json

/-- Positional notation from `0.00001` to below `10 ^ 16`, a plus sign on large exponents, and the
even digit of two equally near ones. -/
def numberStyle : Binary64.Style := ⟨.toEven, -5, 16, true⟩

def floatText (x : Binary64) : String :=
  if x.isFinite then x.text numberStyle else "null"

/-- A control character without an escape of its own. -/
def unicodeEscape (c : Char) : List Char :=
  ['\\', 'u', '0', '0', Nat.digitChar (c.toNat / 16), Nat.digitChar (c.toNat % 16)]

/-- A character as it is written inside a string: quote, backslash and the characters below U+0020
are escaped. -/
def encodeChar : Char → List Char
  | '"' => ['\\', '"']
  | '\\' => ['\\', '\\']
  | '\n' => ['\\', 'n']
  | '\r' => ['\\', 'r']
  | '\t' => ['\\', 't']
  | '\x08' => ['\\', 'b']
  | '\x0c' => ['\\', 'f']
  | c => if c.toNat < 0x20 then unicodeEscape c else [c]

def quote (text : String) : String :=
  "\"" ++ String.ofList (text.toList.flatMap encodeChar) ++ "\""

mutual

/-- The text of a value without any space. -/
def compact : Json → String
  | .null => "null"
  | .bool true => "true"
  | .bool false => "false"
  | .int n => Text.intText n
  | .float x => floatText x
  | .str s => quote s
  | .arr items => "[" ++ ",".intercalate (compactItems items) ++ "]"
  | .obj fields => "\x7b" ++ ",".intercalate (compactFields fields) ++ "\x7d"

def compactItems : List Json → List String
  | [] => []
  | json :: rest => compact json :: compactItems rest

def compactFields : List (String × Json) → List String
  | [] => []
  | (name, json) :: rest => (quote name ++ ":" ++ compact json) :: compactFields rest

end

/-- The start of a line at a depth: two spaces a level. -/
def indent (depth : Nat) : String :=
  String.ofList (List.replicate (2 * depth) ' ')

/-- A bracketed list of lines; one without lines is just the brackets. -/
def block (left right : String) (depth : Nat) (lines : List String) : String :=
  if lines.isEmpty then left ++ right
  else
    left ++ "\n" ++ ",\n".intercalate (lines.map (indent (depth + 1) ++ ·)) ++ "\n"
      ++ indent depth ++ right

mutual

/-- The text of a value with one item or field a line; the value itself stands at a depth. -/
def indented (depth : Nat) : Json → String
  | .arr items => block "[" "]" depth (indentedItems (depth + 1) items)
  | .obj fields => block "\x7b" "\x7d" depth (indentedFields (depth + 1) fields)
  | .null => "null"
  | .bool true => "true"
  | .bool false => "false"
  | .int n => Text.intText n
  | .float x => floatText x
  | .str s => quote s

def indentedItems (depth : Nat) : List Json → List String
  | [] => []
  | json :: rest => indented depth json :: indentedItems depth rest

def indentedFields (depth : Nat) : List (String × Json) → List String
  | [] => []
  | (name, json) :: rest =>
    (quote name ++ ": " ++ indented depth json) :: indentedFields depth rest

end

/-- The indented text of a whole document. -/
def pretty (json : Json) : String :=
  json.indented 0

end TagLang.Json
