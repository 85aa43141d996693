import TagLang.Binary64.Basic
import TagLang.Fields
import TagLang.Position

/-!
# Syntax nodes

A text in tag syntax is a list of nodes: elements `<name key=value>children</name>`, lists
`[a b c]`, strings, and what identifiers can stand for.
-/

namespace TagLang

/-- The base in which an integer is written. -/
inductive Base where
  | binary
  | octal
  | decimal
  | hexadecimal
  deriving DecidableEq, Repr, Inhabited

namespace Base

def radix : Base → Nat
  | .binary => 2
  | .octal => 8
  | .decimal => 10
  | .hexadecimal => 16

def name : Base → String
  | .binary => "binary"
  | .octal => "octal"
  | .decimal => "decimal"
  | .hexadecimal => "hexadecimal"

def ofName? : String → Option Base
  | "binary" => some .binary
  | "octal" => some .octal
  | "decimal" => some .decimal
  | "hexadecimal" => some .hexadecimal
  | _ => none

end Base

/-- An element whose attribute values and children are of type `α`. -/
structure Element (α : Type) where
  name : String
  attributes : List (String × α)
  children : List α
  /-- Where the opening tag starts. -/
  position : Position
  deriving Repr, Inhabited

inductive Node where
  | element (element : Element Node)
  | symbol (name : String)
  | keyword (name : String)
  | string (value : String)
  | integer (value : Int64) (base : Base)
  | float (value : Binary64)
  | complex (re im : Binary64)
  | list (items : List Node)
  deriving Inhabited

/-- What a message calls a node of this kind. -/
def Node.kindName : Node → String
  | .element _ => "element"
  | .symbol _ => "symbol"
  | .keyword _ => "keyword"
  | .string _ => "string"
  | .integer .. => "integer"
  | .float _ => "float"
  | .complex .. => "complex"
  | .list _ => "list"

/-! ## Building elements -/

namespace Element

variable {α : Type}

/-- An element with nothing but a name, at no particular place. -/
def named (name : String) : Element α := ⟨name, [], [], ⟨0, 0⟩⟩

def locate (e : Element α) (position : Position) : Element α :=
  { e with position := position }

def addChildren (e : Element α) (children : List α) : Element α :=
  { e with children := e.children ++ children }

def addChild (e : Element α) (child : α) : Element α :=
  e.addChildren [child]

/-- Sets an attribute; one that is there already keeps its place. -/
def setAttribute (e : Element α) (name : String) (value : α) : Element α :=
  { e with attributes := Fields.insert e.attributes name value }

end Element

end TagLang
