import TagLang.Position

/-!
# Line indices

The position of a place in a text can be found from its byte offset alone. A line index holds the
offsets at which the lines start: the line of an offset is found by halving, and its column by
counting the characters from the start of the line on. Lines and columns are numbers of 32 bits.

A lookup that goes out of bounds and a difference that would be negative give `none`.
-/

namespace TagLang

/-- The offsets behind the line feeds of a text that starts at an offset. -/
def lineStartsFrom (offset : Nat) : List Char → List Nat
  | [] => []
  | c :: rest =>
    if c = '\n' then (offset + 1) :: lineStartsFrom (offset + 1) rest
    else lineStartsFrom (offset + c.utf8Size) rest

/-- A text with the offsets at which its lines start. -/
structure LineIndex where
  source : String
  starts : Array Nat
  starts_eq : starts = (0 :: lineStartsFrom 0 source.toList).toArray

namespace LineIndex

def ofSource (source : String) : LineIndex := ⟨source, _, rfl⟩

/-! ## Searching -/

def difference? (a b : Nat) : Option Nat :=
  if b ≤ a then some (a - b) else none

/-- Halves a range of an ascending array, `size` entries from `base` on, until one entry is left:
the last that is not greater than the offset, if there is one. -/
def narrow? (starts : Array Nat) (offset base size : Nat) : Option Nat :=
  if 1 < size then do
    let middle ← starts[base + size / 2]?
    narrow? starts offset (if offset < middle then base else base + size / 2) (size - size / 2)
  else some base
termination_by size

/-- Where an offset is in an ascending array, or where it would have to be put in. -/
def search? (starts : Array Nat) (offset : Nat) : Option (Except Nat Nat) :=
  if starts.isEmpty then some (.error 0)
  else do
    let base ← narrow? starts offset 0 starts.size
    let entry ← starts[base]?
    return if entry = offset then .ok base
      else .error (if entry < offset then base + 1 else base)

/-- The line that an offset is in, counted from zero. -/
def line? (index : LineIndex) (offset : Nat) : Option Nat := do
  match ← search? index.starts offset with
  | .ok line => return line
  | .error next => difference? next 1

/-! ## Positions -/

/-- The part of a text between two offsets, if both are between characters. -/
def between? (source : String) (start stop : Nat) : Option String := do
  let start ← source.pos? ⟨start⟩
  let stop ← source.pos? ⟨stop⟩
  return (← source.slice? start stop).copy

/-- The position in a line and a column that are counted from zero. -/
def positionAt (line column : Nat) : Position :=
  ⟨(line.toUInt32 + 1).toNat, (column.toUInt32 + 1).toNat⟩

/-- The position of an offset. Behind the end of the text it is that of the end, and inside of a
character bytes are counted and not characters. -/
def position? (index : LineIndex) (offset : Nat) : Option Position := do
  let line ← index.line? offset
  let start ← index.starts[line]?
  let stop := min offset index.source.utf8ByteSize
  let bytes ← difference? stop start
  let column := ((between? index.source start stop).map String.length).getD bytes
  return positionAt line column

end LineIndex

end TagLang
