import TagLang.Binary64.Style
import TagLang.Program.Basic
import TagLang.Text.Numeral
import TagLang.Text.Quoted

/-!
# Text of programs

A program as indented text. Expressions are written on one line, with brackets around everything
that has parts; a statement is a list of lines, each with the depth of the block that it stands
in.
-/

namespace TagLang

/-- Positional notation from `0.0001` to below `10 ^ 16`, no plus sign on exponents, and the
larger of two equally near numbers. -/
def Expr.numberStyle : Binary64.Style := ⟨.awayFromZero, -4, 16, false⟩

def Expr.floatText (x : Binary64) : String :=
  if x.isFinite then x.text numberStyle
  else if x.isNaN then "float(\"nan\")"
  else if x.negative then "-float(\"inf\")"
  else "float(\"inf\")"

/-- Parts with a comma and a space between them. -/
def commaSeparated (parts : List String) : String :=
  ", ".intercalate parts

/-- The parts of a parameter list, the defaults of the keywords being written already. -/
def Params.parts {α : Type} (params : Params α) (keywords : List String) : List String :=
  params.positional ++ (params.rest.map ("*" ++ ·)).toList ++ keywords

mutual

def Expr.text : Expr → String
  | .name ident => ident
  | .str value => Text.Quoted.quote value
  | .int value => Text.intText value.toInt
  | .float x => Expr.floatText x
  | .complex re im => "complex(" ++ Expr.floatText re ++ ", " ++ Expr.floatText im ++ ")"
  | .nothing => "None"
  | .list items => "[" ++ commaSeparated (Expr.texts items) ++ "]"
  | .call func args keywords =>
    let callee :=
      match func with
      | .name ident => ident
      | _ => "(" ++ func.text ++ ")"
    callee ++ "(" ++ commaSeparated (Expr.texts args ++ Expr.keywordTexts keywords) ++ ")"
  | .binOp op left right => "(" ++ left.text ++ " " ++ op.symbol ++ " " ++ right.text ++ ")"
  | .ifExp test yes no =>
    "(" ++ yes.text ++ " if " ++ test.text ++ " else " ++ no.text ++ ")"
  | .lambda ⟨positional, rest, keywords⟩ body =>
    let params : Params Expr := ⟨positional, rest, keywords⟩
    let head :=
      if params.isEmpty then "lambda"
      else "lambda " ++ commaSeparated (params.parts (Expr.keywordTexts keywords))
    "(" ++ head ++ ": " ++ body.text ++ ")"

def Expr.texts : List Expr → List String
  | [] => []
  | e :: rest => e.text :: Expr.texts rest

def Expr.keywordTexts : List (String × Expr) → List String
  | [] => []
  | (key, e) :: rest => (key ++ "=" ++ e.text) :: Expr.keywordTexts rest

end

def Params.text (params : Params Expr) : String :=
  commaSeparated (params.parts (Expr.keywordTexts params.keywords))

/-! ## Lines -/

/-- A line of text in a block at a depth. -/
structure Line where
  depth : Nat
  text : String
  deriving DecidableEq, Repr, Inhabited

/-- The line with its indentation, four spaces a level, and its end. -/
def Line.render (line : Line) : String :=
  String.ofList (List.replicate (4 * line.depth) ' ') ++ line.text ++ "\n"

/-- A block; one without statements still has a line. -/
def Line.block (depth : Nat) (lines : List Line) : List Line :=
  if lines.isEmpty then [⟨depth, "pass"⟩] else lines

mutual

/-- The lines of a statement at a depth. -/
def Stmt.lines (depth : Nat) : Stmt → List Line
  | .eval value => [⟨depth, value.text⟩]
  | .assign target value => [⟨depth, target ++ " = " ++ value.text⟩]
  | .define name params body =>
    ⟨depth, "def " ++ name ++ "(" ++ params.text ++ "):"⟩ ::
      Line.block (depth + 1) (Stmt.allLines (depth + 1) body)
  | .branch test yes no =>
    ⟨depth, "if " ++ test.text ++ ":"⟩ ::
      (Line.block (depth + 1) (Stmt.allLines (depth + 1) yes) ++
        if no.isEmpty then [] else ⟨depth, "else:"⟩ :: Stmt.allLines (depth + 1) no)
  | .ret value => [⟨depth, "return " ++ value.text⟩]

/-- The lines of statements at a depth, one after the other. -/
def Stmt.allLines (depth : Nat) : List Stmt → List Line
  | [] => []
  | s :: rest => s.lines depth ++ Stmt.allLines depth rest

end

def Line.renderAll (lines : List Line) : String :=
  String.join (lines.map Line.render)

def Stmt.text (s : Stmt) : String :=
  Line.renderAll (s.lines 0)

def Program.text (p : Program) : String :=
  Line.renderAll (Line.block 0 (Stmt.allLines 0 p.body))

end TagLang
