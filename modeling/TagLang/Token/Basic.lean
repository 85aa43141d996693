import TagLang.Position

/-!
# Tokens

The words of the tag syntax: the delimiters of tags and lists, strings and identifiers. A token
keeps its text as it is written, the bytes that it covers and where it starts.
-/

namespace TagLang

namespace Token

inductive Kind where
  /-- The start of a closing tag, `</`. -/
  | closeOpen
  /-- The end of a tag without children, `/>`. -/
  | selfClose
  /-- The start of a tag, `<`. -/
  | tagOpen
  /-- The end of a tag, `>`. -/
  | tagClose
  /-- The start of a list, `[`. -/
  | listOpen
  /-- The end of a list, `]`. -/
  | listClose
  /-- The sign between an attribute and its value, `=`. -/
  | equals
  /-- A string, with its escapes replaced. -/
  | string (value : String)
  | identifier
  /-- A comment. Comments are skipped, so no text has such a token; a reader of tokens refuses
  it. -/
  | comment
  deriving DecidableEq, Repr, Inhabited

end Token

structure Token where
  kind : Token.Kind
  text : String
  /-- The byte offset at which the token starts. -/
  start : Nat
  /-- The byte offset behind the token. -/
  stop : Nat
  position : Position
  deriving DecidableEq, Repr, Inhabited

namespace Token

/-- What a message calls a token of this kind and text. -/
def Kind.describe (text : String) : Kind → String
  | .closeOpen => "`</`"
  | .selfClose => "`/>`"
  | .tagOpen => "`<`"
  | .tagClose => "`>`"
  | .listOpen => "`[`"
  | .listClose => "`]`"
  | .equals => "`=`"
  | .string _ => "string `" ++ text ++ "`"
  | .identifier => "identifier `" ++ text ++ "`"
  | .comment => "comment"

def describe (t : Token) : String :=
  t.kind.describe t.text

end Token

/-! ## Lexical errors -/

/-- Why a text cannot be cut into tokens. -/
inductive LexCause where
  | unrecognizedCharacter
  | unterminatedString
  | unterminatedComment
  /-- A backslash before a character that has no meaning there. -/
  | invalidEscape (character : Char)
  deriving DecidableEq, Repr, Inhabited

/-- A cause, and the place where the offending token would start. -/
structure LexError where
  cause : LexCause
  location : Location
  deriving DecidableEq, Repr, Inhabited

def LexCause.message : LexCause → String
  | .unrecognizedCharacter => "unrecognized character"
  | .unterminatedString => "unterminated string literal"
  | .unterminatedComment => "unterminated comment"
  | .invalidEscape c => "invalid escape sequence `\\" ++ c.toString ++ "`"

def LexError.message (e : LexError) : String :=
  e.location.position.text ++ ": " ++ e.cause.message

end TagLang
