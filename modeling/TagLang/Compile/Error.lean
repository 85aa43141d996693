import TagLang.Position

/-!
# Compile errors

Why an element cannot be compiled, with the numbers of children that forms accept.
-/

namespace TagLang

/-- How many children a form takes: at least `min`, and at most `max` if there is a limit. -/
structure Arity where
  min : Nat
  max : Option Nat
  deriving DecidableEq, Repr, Inhabited

namespace Arity

def exactly (n : Nat) : Arity := ⟨n, some n⟩

def between (min max : Nat) : Arity := ⟨min, some max⟩

def atLeast (min : Nat) : Arity := ⟨min, none⟩

def accepts (a : Arity) (n : Nat) : Bool :=
  decide (a.min ≤ n) && a.max.all fun max => decide (n ≤ max)

def text (a : Arity) : String :=
  match a.max with
  | none => "at least " ++ Text.natText a.min
  | some max =>
    if max = a.min then Text.natText a.min
    else Text.natText a.min ++ " to " ++ Text.natText max

end Arity

inductive CompileCause where
  | argumentCount (expected : Arity) (got : Nat)
  /-- An attribute on a form that takes none. -/
  | unexpectedAttribute (name : String)
  /-- A parameter list that is a node of another kind. -/
  | paramsNotList (kind : String)
  /-- A parameter that is a node of another kind than a symbol. -/
  | invalidParameter (kind : String)
  | missingRestName
  | extraRestName
  | duplicateParameter (name : String)
  deriving DecidableEq, Repr, Inhabited

def CompileCause.message : CompileCause → String
  | .argumentCount expected got =>
    "invalid argument count: expected " ++ expected.text ++ ", got " ++ Text.natText got
  | .unexpectedAttribute name => "unexpected attribute `" ++ name ++ "`"
  | .paramsNotList kind => "parameter list must be a list literal, got " ++ kind
  | .invalidParameter kind => "parameter must be a symbol, got " ++ kind
  | .missingRestName => "`&` must be followed by a rest parameter name"
  | .extraRestName => "only one rest parameter name may follow `&`"
  | .duplicateParameter name => "duplicate parameter `" ++ name ++ "`"

/-- A cause, and the element that it is found in. -/
structure CompileError where
  position : Position
  tag : String
  cause : CompileCause
  deriving DecidableEq, Repr, Inhabited

def CompileError.message (e : CompileError) : String :=
  e.position.text ++ ": <" ++ e.tag ++ ">: " ++ e.cause.message

end TagLang
