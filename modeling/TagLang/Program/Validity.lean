import TagLang.Program.Basic

/-!
# Validity of programs

What a program must satisfy to be run: a function is left only inside one, no name is empty, and the
parameters of a function differ. `Program.validate` reports the first fault, statement by statement
and from the outside to the inside.
-/

namespace TagLang

inductive ValidationError where
  | returnOutsideFunction
  | emptyIdentifier
  | duplicateParameter (name : String)
  deriving DecidableEq, Repr, Inhabited

def ValidationError.message : ValidationError → String
  | .returnOutsideFunction => "return outside of a function body"
  | .emptyIdentifier => "empty identifier"
  | .duplicateParameter name => "duplicate parameter `" ++ name ++ "`"

/-- Checks a name. -/
def checkName (name : String) : Except ValidationError Unit :=
  if name = "" then .error .emptyIdentifier else .ok ()

/-- Checks the names of a parameter list in order, each against those before it. -/
def checkNames (seen : List String) : List String → Except ValidationError Unit
  | [] => .ok ()
  | name :: rest => do
    checkName name
    if seen.contains name then throw (.duplicateParameter name)
    checkNames (name :: seen) rest

mutual

def Expr.validate : Expr → Except ValidationError Unit
  | .name ident => checkName ident
  | .str _ | .int _ | .float _ | .complex .. | .nothing => .ok ()
  | .list items => Expr.validateAll items
  | .call func args keywords => do
    func.validate
    Expr.validateAll args
    Expr.validateKeywords keywords
  | .binOp _ left right => do
    left.validate
    right.validate
  | .ifExp test yes no => do
    test.validate
    yes.validate
    no.validate
  | .lambda ⟨positional, rest, keywords⟩ body => do
    checkNames [] (Params.names ⟨positional, rest, keywords⟩)
    Expr.validateDefaults keywords
    body.validate

def Expr.validateAll : List Expr → Except ValidationError Unit
  | [] => .ok ()
  | e :: rest => do
    e.validate
    Expr.validateAll rest

/-- The keyword arguments of a call: each name, then its value. -/
def Expr.validateKeywords : List (String × Expr) → Except ValidationError Unit
  | [] => .ok ()
  | (key, e) :: rest => do
    checkName key
    e.validate
    Expr.validateKeywords rest

/-- The defaults of keyword parameters, whose names are checked with the other parameters. -/
def Expr.validateDefaults : List (String × Expr) → Except ValidationError Unit
  | [] => .ok ()
  | (_, e) :: rest => do
    e.validate
    Expr.validateDefaults rest

end

def Params.validate (params : Params Expr) : Except ValidationError Unit := do
  checkNames [] params.names
  Expr.validateDefaults params.keywords

mutual

/-- Checks a statement that stands inside a function or not. -/
def Stmt.validate (inFunction : Bool) : Stmt → Except ValidationError Unit
  | .eval value => value.validate
  | .assign target value => do
    checkName target
    value.validate
  | .define name params body => do
    checkName name
    params.validate
    Stmt.validateAll true body
  | .branch test yes no => do
    test.validate
    Stmt.validateAll inFunction yes
    Stmt.validateAll inFunction no
  | .ret value => do
    if !inFunction then throw .returnOutsideFunction
    value.validate

def Stmt.validateAll (inFunction : Bool) : List Stmt → Except ValidationError Unit
  | [] => .ok ()
  | s :: rest => do
    s.validate inFunction
    Stmt.validateAll inFunction rest

end

def Program.validate (p : Program) : Except ValidationError Unit :=
  Stmt.validateAll false p.body

end TagLang
