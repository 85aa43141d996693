import TagLang.Json.Basic
import TagLang.Json.Number
import TagLang.Node.Basic

/-!
# JSON form of nodes

A node is an object with one field, named for its kind. Attributes become the fields of an object,
in their order.
-/

namespace TagLang

def Position.toJson (p : Position) : Json :=
  .obj [("line", .int p.line), ("column", .int p.column)]

/-- The fields of a position in their order. -/
def Position.fieldNames : List String := ["line", "column"]

/-- Lines and columns are numbers of 32 bits. -/
def Position.ofJson? (json : Json) : Option Position := do
  let line ← (← json.recordField? fieldNames "line").natBelow? UInt32.size
  let column ← (← json.recordField? fieldNames "column").natBelow? UInt32.size
  return ⟨line, column⟩

/-! ## Writing -/

mutual

def Node.toJson : Node → Json
  | .element e => .obj [("element", Element.toJson e)]
  | .symbol name => .obj [("symbol", .str name)]
  | .keyword name => .obj [("keyword", .str name)]
  | .string value => .obj [("string", .str value)]
  | .integer value base =>
    .obj [("integer", .obj [("value", .int value.toInt), ("base", .str base.name)])]
  | .float x => .obj [("float", .float x)]
  | .complex re im => .obj [("complex", .obj [("re", .float re), ("im", .float im)])]
  | .list items => .obj [("list", .arr (Node.listToJson items))]

def Element.toJson : Element Node → Json
  | ⟨name, attributes, children, position⟩ =>
    .obj [("name", .str name), ("attributes", .obj (Node.fieldsToJson attributes)),
      ("children", .arr (Node.listToJson children)), ("position", position.toJson)]

def Node.listToJson : List Node → List Json
  | [] => []
  | node :: rest => node.toJson :: Node.listToJson rest

def Node.fieldsToJson : List (String × Node) → List (String × Json)
  | [] => []
  | (name, node) :: rest => (name, node.toJson) :: Node.fieldsToJson rest

end

/-! ## Reading -/

/-- The fields of an integer in their order. -/
def Node.integerFieldNames : List String := ["value", "base"]

/-- The fields of an element in their order. -/
def Element.fieldNames : List String := ["name", "attributes", "children", "position"]

mutual

def Node.ofJson? (json : Json) : Option Node :=
  match json.kind? with
  | some "element" => do
    let ⟨content, _⟩ ← json.content? "element"
    let name ← (← content.recordField? Element.fieldNames "name").str?
    let ⟨attributes, _⟩ ← content.recordPart? Element.fieldNames "attributes"
    let ⟨attributes, _⟩ ← attributes.fields?
    let ⟨children, _⟩ ← content.recordPart? Element.fieldNames "children"
    let ⟨children, _⟩ ← children.items?
    let position ← Position.ofJson? (← content.recordField? Element.fieldNames "position")
    return .element
      ⟨name, ← Node.fieldsOfJson? attributes, ← Node.listOfJson? children, position⟩
  | some "symbol" => do return .symbol (← (← json.field? "symbol").str?)
  | some "keyword" => do return .keyword (← (← json.field? "keyword").str?)
  | some "string" => do return .string (← (← json.field? "string").str?)
  | some "integer" => do
    let content ← json.field? "integer"
    let value ← (← content.recordField? Node.integerFieldNames "value").int64?
    let base ← Base.ofName? (← (← content.recordField? Node.integerFieldNames "base").bareKind?)
    return .integer value base
  | some "float" => do return .float (← (← json.field? "float").number?)
  | some "complex" => do
    let content ← json.field? "complex"
    return .complex (← (← content.field? "re").number?) (← (← content.field? "im").number?)
  | some "list" => do
    let ⟨content, _⟩ ← json.content? "list"
    let ⟨items, _⟩ ← content.items?
    return .list (← Node.listOfJson? items)
  | _ => none
termination_by sizeOf json

def Node.listOfJson? : List Json → Option (List Node)
  | [] => some []
  | json :: rest => do return (← Node.ofJson? json) :: (← Node.listOfJson? rest)
termination_by items => sizeOf items

def Node.fieldsOfJson? : List (String × Json) → Option (List (String × Node))
  | [] => some []
  | (name, json) :: rest => do
    return (name, ← Node.ofJson? json) :: (← Node.fieldsOfJson? rest)
termination_by fields => sizeOf fields

end

end TagLang
