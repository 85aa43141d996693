/-!
# Quoted strings

The inside of a string in double quotes. Reading knows seven escapes; writing uses the six of them
that are needed to keep the text on one line and to end it at the right quote.
-/

namespace TagLang.Text.Quoted

/-- The character that a backslash and this letter stand for. -/
def escaped? : Char → Option Char
  | 'n' => some '\n'
  | 't' => some '\t'
  | 'r' => some '\r'
  | '0' => some '\x00'
  | '\\' => some '\\'
  | '"' => some '"'
  | '\x27' => some '\x27'
  | _ => none

/-- Reads the characters between the quotes, behind those already read, newest first. An unknown
escape is refused with the character after its backslash. -/
def decodeFrom (done : List Char) : List Char → Except Char (List Char)
  | [] => .ok done.reverse
  | '\\' :: c :: rest =>
    match escaped? c with
    | some d => decodeFrom (d :: done) rest
    | none => .error c
  | c :: rest => decodeFrom (c :: done) rest

/-- Replaces every escape by what it stands for, or returns the first one that is unknown. -/
def decode (text : List Char) : Except Char (List Char) :=
  decodeFrom [] text

/-- A character as it is written between quotes. -/
def encodeChar : Char → List Char
  | '\\' => ['\\', '\\']
  | '"' => ['\\', '"']
  | '\n' => ['\\', 'n']
  | '\r' => ['\\', 'r']
  | '\t' => ['\\', 't']
  | '\x00' => ['\\', '0']
  | c => [c]

def encode (text : List Char) : List Char :=
  text.flatMap encodeChar

/-- The text in double quotes. -/
def quote (text : String) : String :=
  "\"" ++ String.ofList (encode text.toList) ++ "\""

end TagLang.Text.Quoted
