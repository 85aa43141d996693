import TagLang.Token.Basic

/-!
# Syntax errors

Why a list of tokens, or the text behind it, is no list of nodes.
-/

namespace TagLang

/-- What would have been right instead. -/
inductive Expected where
  | term
  | tagName
  | attributeValue
  | tagEnd
  | closingTag
  | closingName
  | closingEnd
  | listEnd
  deriving DecidableEq, Repr, Inhabited

def Expected.text : Expected → String
  | .term => "a term"
  | .tagName => "a tag name"
  | .attributeValue => "`=` after attribute name"
  | .tagEnd => "`>` or `/>`"
  | .closingTag => "a closing tag"
  | .closingName => "a closing tag name"
  | .closingEnd => "`>`"
  | .listEnd => "`]`"

/-- Elements and lists may stand inside each other up to this depth. -/
def maxDepth : Nat := 256

inductive ParseError where
  | lex (error : LexError)
  | unexpectedToken (token : Token) (expected : Expected)
  | unexpectedEnd (expected : Expected)
  /-- A closing tag that does not have the name of its element. -/
  | mismatchedTag (opening closing : String) (position : Position)
  /-- An integer that does not fit into 64 bits. -/
  | integerOutOfRange (text : String) (position : Position)
  | nestingTooDeep (position : Position)
  deriving DecidableEq, Repr, Inhabited

namespace ParseError

/-- Where the error is; the end of the text has no position. -/
def position? : ParseError → Option Position
  | .lex e => some e.location.position
  | .unexpectedToken t _ => some t.position
  | .unexpectedEnd _ => none
  | .mismatchedTag _ _ p => some p
  | .integerOutOfRange _ p => some p
  | .nestingTooDeep p => some p

def message : ParseError → String
  | .lex e => "lex error: " ++ e.message
  | .unexpectedToken t expected =>
    t.position.text ++ ": unexpected " ++ t.describe ++ ", expected " ++ expected.text
  | .unexpectedEnd expected => "unexpected end of input, expected " ++ expected.text
  | .mismatchedTag opening closing p =>
    p.text ++ ": closing tag </" ++ closing ++ "> does not match <" ++ opening ++ ">"
  | .integerOutOfRange text p => p.text ++ ": integer literal `" ++ text ++ "` is out of range"
  | .nestingTooDeep p => p.text ++ ": nesting deeper than " ++ Text.natText maxDepth ++ " levels"

end ParseError

end TagLang
