import TagLang.Compile.Error
import TagLang.Node.Basic
import TagLang.Program.Basic

/-!
# Special forms

The element names with a meaning of their own; every other element is a call. A form says how many
children it takes and whether it takes attributes, and an element is checked against that before any
part of it is compiled.
-/

namespace TagLang

inductive Form where
  /-- Children one after the other. -/
  | sequence
  /-- A test and one or two branches. -/
  | conditional
  /-- A parameter list and a body. -/
  | function
  | operator (op : BinOp)
  deriving DecidableEq, Repr, Inhabited

namespace Form

def ofName? : String → Option Form
  | "do" => some .sequence
  | "if" => some .conditional
  | "fn*" => some .function
  | "add*" => some (.operator .add)
  | "sub*" => some (.operator .sub)
  | "mul*" => some (.operator .mul)
  | "div*" => some (.operator .div)
  | "mod" => some (.operator .mod)
  | "pow" => some (.operator .pow)
  | "lshift" => some (.operator .shiftLeft)
  | "rshift" => some (.operator .shiftRight)
  | "bitor" => some (.operator .bitOr)
  | "bitxor" => some (.operator .bitXor)
  | "bitand" => some (.operator .bitAnd)
  | _ => none

def arity : Form → Arity
  | .sequence => .atLeast 1
  | .conditional => .between 2 3
  | .function => .atLeast 2
  | .operator _ => .exactly 2

/-- Attributes of a function are its keyword parameters; other forms have none. -/
def takesAttributes : Form → Bool
  | .function => true
  | _ => false

/-- What is wrong with an element of this form, apart from its parts. The number of children is
looked at first. -/
def fault? {α : Type} (form : Form) (attributes : List (String × α)) (children : List α) :
    Option CompileCause :=
  if form.arity.accepts children.length then
    if form.takesAttributes then none
    else attributes.head?.map fun field => .unexpectedAttribute field.1
  else some (.argumentCount form.arity children.length)

end Form

/-! ## Parameter lists -/

/-- The symbol in front of the rest parameter. -/
def restMarker : String := "&"

/-- The name of a parameter. -/
def Node.parameter : Node → Except CompileCause String
  | .symbol name => .ok name
  | node => .error (.invalidParameter node.kindName)

/-- The rest parameter, from what stands behind its marker. -/
def Params.restOfNodes : List Node → Except CompileCause String
  | [] => .error .missingRestName
  | node :: more => do
    let name ← node.parameter
    if name = restMarker then throw .missingRestName
    if !more.isEmpty then throw .extraRestName
    return name

/-- The positional parameters and the rest parameter, from the nodes of a parameter list. -/
def Params.ofNodes : List Node → Except CompileCause (Params Expr)
  | [] => .ok {}
  | node :: more => do
    let name ← node.parameter
    if name = restMarker then return { rest := some (← Params.restOfNodes more) }
    let params ← Params.ofNodes more
    return { params with positional := name :: params.positional }

/-- The first name that stands among the names before it. -/
def firstDuplicate? (seen : List String) : List String → Option String
  | [] => none
  | name :: rest => if seen.contains name then some name else firstDuplicate? (name :: seen) rest

end TagLang
