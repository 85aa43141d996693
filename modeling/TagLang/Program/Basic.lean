import TagLang.Binary64.Basic

/-!
# Programs

What source text is compiled to: expressions, and statements that are carried out in order. A
program is a list of statements.
-/

namespace TagLang

inductive BinOp where
  | add
  | sub
  | mul
  | div
  | mod
  | pow
  | shiftLeft
  | shiftRight
  | bitOr
  | bitXor
  | bitAnd
  deriving DecidableEq, Repr, Inhabited

def BinOp.symbol : BinOp → String
  | .add => "+"
  | .sub => "-"
  | .mul => "*"
  | .div => "/"
  | .mod => "%"
  | .pow => "**"
  | .shiftLeft => "<<"
  | .shiftRight => ">>"
  | .bitOr => "|"
  | .bitXor => "^"
  | .bitAnd => "&"

/-- The parameters of a function: positional ones, one that takes all further arguments, and keyword
parameters with a default of type `α`. -/
structure Params (α : Type) where
  positional : List String := []
  rest : Option String := none
  keywords : List (String × α) := []
  deriving Repr, Inhabited

namespace Params

variable {α : Type}

/-- All parameter names, in order. -/
def names (params : Params α) : List String :=
  params.positional ++ params.rest.toList ++ params.keywords.map Prod.fst

def isEmpty (params : Params α) : Bool :=
  params.positional.isEmpty && params.rest.isNone && params.keywords.isEmpty

end Params

inductive Expr where
  | name (ident : String)
  | str (value : String)
  | int (value : Int64)
  | float (value : Binary64)
  | complex (re im : Binary64)
  /-- The value of what has none. -/
  | nothing
  | list (items : List Expr)
  | call (func : Expr) (args : List Expr) (keywords : List (String × Expr))
  | binOp (op : BinOp) (left right : Expr)
  | ifExp (test yes no : Expr)
  | lambda (params : Params Expr) (body : Expr)
  deriving Inhabited

namespace Expr

/-- The name that an expression is. -/
def name? : Expr → Option String
  | .name ident => some ident
  | _ => none

/-- A keyword is made by a call at run time. -/
def keyword (text : String) : Expr :=
  .call (.name "Keyword") [.str text] []

/-- Whether an expression calls the function of this name without arguments. -/
def isCallOf (ident : String) : Expr → Bool
  | .call (.name func) [] [] => func == ident
  | _ => false

end Expr

inductive Stmt where
  /-- Evaluates an expression and drops its value. -/
  | eval (value : Expr)
  | assign (target : String) (value : Expr)
  | define (name : String) (params : Params Expr) (body : List Stmt)
  | branch (test : Expr) (yes no : List Stmt)
  /-- Leaves the enclosing function with a value. -/
  | ret (value : Expr)
  deriving Inhabited

/-- The name that a statement gives a value to. -/
def Stmt.definedName? : Stmt → Option String
  | .assign target _ => some target
  | .define name _ _ => some name
  | _ => none

structure Program where
  body : List Stmt := []
  deriving Inhabited

end TagLang
