import TagLang.Text.Numeral

/-!
# Positions in a text

A position is a line and a column, both counted from one; a column is one character, and only a
line feed ends a line. A location adds the byte offset in UTF-8. `Location.after` moves a location
over a run of characters, and everything that reads a text character by character gets its
positions from it.
-/

namespace TagLang

structure Position where
  line : Nat
  column : Nat
  deriving DecidableEq, Repr, Inhabited

namespace Position

/-- Where a text starts. -/
def start : Position := ⟨1, 1⟩

/-- The position after a character. -/
def advance (p : Position) (c : Char) : Position :=
  if c = '\n' then ⟨p.line + 1, 1⟩ else ⟨p.line, p.column + 1⟩

def text (p : Position) : String :=
  Text.natText p.line ++ ":" ++ Text.natText p.column

end Position

/-- A place in a text: the bytes before it, and its line and column. -/
structure Location where
  offset : Nat
  position : Position
  deriving DecidableEq, Repr, Inhabited

namespace Location

def start : Location := ⟨0, Position.start⟩

def advance (l : Location) (c : Char) : Location :=
  ⟨l.offset + c.utf8Size, l.position.advance c⟩

/-- The location behind a run of characters that starts here. -/
def after (l : Location) (text : List Char) : Location :=
  text.foldl advance l

end Location

end TagLang
