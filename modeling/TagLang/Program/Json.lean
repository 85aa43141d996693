import TagLang.Json.Number
import TagLang.Json.Reader
import TagLang.Program.Basic

/-!
# JSON form of programs

Expressions and statements are objects with one field, named for their kind; only the expression
without a value is a bare string. Reading takes the fields of an object in any order and ignores
those it does not know. A text is read from any depth (`Program.ofJsonText?`), or only from as far
down as a reader goes (`Program.ofJsonTextWithin?`).
-/

namespace TagLang

namespace BinOp

def name : BinOp → String
  | .add => "add"
  | .sub => "sub"
  | .mul => "mul"
  | .div => "div"
  | .mod => "mod"
  | .pow => "pow"
  | .shiftLeft => "l_shift"
  | .shiftRight => "r_shift"
  | .bitOr => "bit_or"
  | .bitXor => "bit_xor"
  | .bitAnd => "bit_and"

def ofName? : String → Option BinOp
  | "add" => some .add
  | "sub" => some .sub
  | "mul" => some .mul
  | "div" => some .div
  | "mod" => some .mod
  | "pow" => some .pow
  | "l_shift" => some .shiftLeft
  | "r_shift" => some .shiftRight
  | "bit_or" => some .bitOr
  | "bit_xor" => some .bitXor
  | "bit_and" => some .bitAnd
  | _ => none

end BinOp

/-! ## Writing -/

/-- A parameter list, the keyword parameters being written already. -/
def Params.toJsonWith {α : Type} (params : Params α) (keywords : List Json) : Json :=
  .obj [("positional", .arr (params.positional.map .str)),
    ("rest", (params.rest.map Json.str).getD .null), ("keywords", .arr keywords)]

mutual

def Expr.toJson : Expr → Json
  | .name ident => .obj [("name", .str ident)]
  | .str value => .obj [("str", .str value)]
  | .int value => .obj [("int", .int value.toInt)]
  | .float x => .obj [("float", .float x)]
  | .complex re im => .obj [("complex", .obj [("re", .float re), ("im", .float im)])]
  | .nothing => .str "none"
  | .list items => .obj [("list", .arr (Expr.listToJson items))]
  | .call func args keywords =>
    .obj [("call", .obj [("func", func.toJson), ("args", .arr (Expr.listToJson args)),
      ("keywords", .arr (Expr.keywordsToJson "value" keywords))])]
  | .binOp op left right =>
    .obj [("bin_op", .obj [("op", .str op.name), ("left", left.toJson), ("right", right.toJson)])]
  | .ifExp test yes no =>
    .obj [("if_exp", .obj [("test", test.toJson), ("then", yes.toJson), ("orelse", no.toJson)])]
  | .lambda ⟨positional, rest, keywords⟩ body =>
    let params : Params Expr := ⟨positional, rest, keywords⟩
    .obj [("lambda", .obj [
      ("params", params.toJsonWith (Expr.keywordsToJson "default" keywords)),
      ("body", body.toJson)])]

def Expr.listToJson : List Expr → List Json
  | [] => []
  | e :: rest => e.toJson :: Expr.listToJson rest

/-- Expressions under names; `slot` is what the expression of a name is called. -/
def Expr.keywordsToJson (slot : String) : List (String × Expr) → List Json
  | [] => []
  | (key, e) :: rest =>
    .obj [("name", .str key), (slot, e.toJson)] :: Expr.keywordsToJson slot rest

end

def Params.toJson (params : Params Expr) : Json :=
  params.toJsonWith (Expr.keywordsToJson "default" params.keywords)

mutual

def Stmt.toJson : Stmt → Json
  | .eval value => .obj [("expr", value.toJson)]
  | .assign target value =>
    .obj [("assign", .obj [("target", .str target), ("value", value.toJson)])]
  | .define name params body =>
    .obj [("function_def", .obj [("name", .str name), ("params", params.toJson),
      ("body", .arr (Stmt.listToJson body))])]
  | .branch test yes no =>
    .obj [("if", .obj [("test", test.toJson), ("then", .arr (Stmt.listToJson yes)),
      ("orelse", .arr (Stmt.listToJson no))])]
  | .ret value => .obj [("return", value.toJson)]

def Stmt.listToJson : List Stmt → List Json
  | [] => []
  | s :: rest => s.toJson :: Stmt.listToJson rest

end

def Program.toJson (p : Program) : Json :=
  .obj [("body", .arr (Stmt.listToJson p.body))]

/-! ## Reading -/

/-- The fields of a parameter list in their order. -/
def Params.fieldNames : List String := ["positional", "rest", "keywords"]

/-- The name of a rest parameter; without the field, or with null in it, there is none. -/
def Params.restOfJson? (json : Json) : Option (Option String) :=
  match json.recordField? fieldNames "rest" with
  | none => some none
  | some .null => some none
  | some (.str name) => some (some name)
  | some _ => none

/-- The names of the positional parameters. -/
def Params.positionalOfJson? (json : Json) : Option (List String) :=
  match json.recordField? fieldNames "positional" with
  | some (.arr items) => items.mapM Json.str?
  | _ => none

mutual

def Expr.ofJson? (json : Json) : Option Expr :=
  match json.kind? with
  | none | some "none" => if json.bareKind? = some "none" then some .nothing else none
  | some "name" => do return .name (← (← json.field? "name").str?)
  | some "str" => do return .str (← (← json.field? "str").str?)
  | some "int" => do return .int (← (← json.field? "int").int64?)
  | some "float" => do return .float (← (← json.field? "float").number?)
  | some "complex" => do
    let content ← json.field? "complex"
    return .complex (← (← content.field? "re").number?) (← (← content.field? "im").number?)
  | some "list" => do
    let ⟨content, _⟩ ← json.content? "list"
    let ⟨items, _⟩ ← content.items?
    return .list (← Expr.listOfJson? items)
  | some "call" => do
    let ⟨content, _⟩ ← json.content? "call"
    let ⟨func, _⟩ ← content.part? "func"
    let ⟨args, _⟩ ← content.part? "args"
    let ⟨args, _⟩ ← args.items?
    let ⟨keywords, _⟩ ← content.part? "keywords"
    let ⟨keywords, _⟩ ← keywords.items?
    return .call (← Expr.ofJson? func) (← Expr.listOfJson? args)
      (← Expr.keywordsOfJson? "value" keywords)
  | some "bin_op" => do
    let ⟨content, _⟩ ← json.content? "bin_op"
    let op ← BinOp.ofName? (← (← content.field? "op").bareKind?)
    let ⟨left, _⟩ ← content.part? "left"
    let ⟨right, _⟩ ← content.part? "right"
    return .binOp op (← Expr.ofJson? left) (← Expr.ofJson? right)
  | some "if_exp" => do
    let ⟨content, _⟩ ← json.content? "if_exp"
    let ⟨test, _⟩ ← content.part? "test"
    let ⟨yes, _⟩ ← content.part? "then"
    let ⟨no, _⟩ ← content.part? "orelse"
    return .ifExp (← Expr.ofJson? test) (← Expr.ofJson? yes) (← Expr.ofJson? no)
  | some "lambda" => do
    let ⟨content, _⟩ ← json.content? "lambda"
    let ⟨params, _⟩ ← content.part? "params"
    let ⟨keywords, _⟩ ← params.recordPart? Params.fieldNames "keywords"
    let ⟨keywords, _⟩ ← keywords.items?
    let ⟨body, _⟩ ← content.part? "body"
    return .lambda ⟨← Params.positionalOfJson? params, ← Params.restOfJson? params,
      ← Expr.keywordsOfJson? "default" keywords⟩ (← Expr.ofJson? body)
  | some _ => none
termination_by sizeOf json
decreasing_by all_goals omega

def Expr.listOfJson? : List Json → Option (List Expr)
  | [] => some []
  | json :: rest => do return (← Expr.ofJson? json) :: (← Expr.listOfJson? rest)
termination_by items => sizeOf items
decreasing_by
  all_goals
    simp only [List.cons.sizeOf_spec]
    omega

def Expr.keywordsOfJson? (slot : String) : List Json → Option (List (String × Expr))
  | [] => some []
  | json :: rest => do
    let key ← (← json.recordField? ["name", slot] "name").str?
    let ⟨content, _⟩ ← json.recordPart? ["name", slot] slot
    return (key, ← Expr.ofJson? content) :: (← Expr.keywordsOfJson? slot rest)
termination_by items => sizeOf items
decreasing_by
  all_goals
    simp only [List.cons.sizeOf_spec]
    omega

end

def Params.ofJson? (json : Json) : Option (Params Expr) := do
  let ⟨keywords, _⟩ ← (← json.recordField? fieldNames "keywords").items?
  return ⟨← Params.positionalOfJson? json, ← Params.restOfJson? json,
    ← Expr.keywordsOfJson? "default" keywords⟩

mutual

def Stmt.ofJson? (json : Json) : Option Stmt :=
  match json.kind? with
  | some "expr" => do return .eval (← Expr.ofJson? (← json.field? "expr"))
  | some "return" => do return .ret (← Expr.ofJson? (← json.field? "return"))
  | some "assign" => do
    let content ← json.field? "assign"
    let target ← (← content.field? "target").str?
    return .assign target (← Expr.ofJson? (← content.field? "value"))
  | some "function_def" => do
    let ⟨content, _⟩ ← json.content? "function_def"
    let name ← (← content.field? "name").str?
    let params ← Params.ofJson? (← content.field? "params")
    let ⟨body, _⟩ ← content.part? "body"
    let ⟨body, _⟩ ← body.items?
    return .define name params (← Stmt.listOfJson? body)
  | some "if" => do
    let ⟨content, _⟩ ← json.content? "if"
    let test ← Expr.ofJson? (← content.field? "test")
    let ⟨yes, _⟩ ← content.part? "then"
    let ⟨yes, _⟩ ← yes.items?
    let ⟨no, _⟩ ← content.part? "orelse"
    let ⟨no, _⟩ ← no.items?
    return .branch test (← Stmt.listOfJson? yes) (← Stmt.listOfJson? no)
  | _ => none
termination_by sizeOf json

def Stmt.listOfJson? : List Json → Option (List Stmt)
  | [] => some []
  | json :: rest => do return (← Stmt.ofJson? json) :: (← Stmt.listOfJson? rest)
termination_by items => sizeOf items

end

def Program.ofJson? (json : Json) : Option Program := do
  let ⟨body, _⟩ ← (← json.recordField? ["body"] "body").items?
  return ⟨← Stmt.listOfJson? body⟩

/-- The program that a JSON text is read as. -/
def Program.ofJsonText? (text : String) : Option Program := (Json.parse? text).bind ofJson?

/-- The program that a JSON text is read as if it is nested no deeper than `bound`. -/
def Program.ofJsonTextWithin? (bound : Nat) (text : String) : Option Program :=
  (Json.parseWithin? bound text).bind ofJson?

end TagLang
