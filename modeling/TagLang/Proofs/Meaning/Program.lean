import TagLang.Compile.Fragment

/-!
# What programs mean

Programs are carried out by a backend that the compiler knows nothing of. `Backend m V` is any such
backend: values are of a type `V`, and what happens while they are computed is told in a monad `m`.
For a machine with states `σ` this is `StateM σ`, or `StateT σ Option` if it can also get stuck. A
backend says what a name, a call, an operator and a test do, and it makes a function of parameters,
defaults and the meaning of a body. How arguments reach a body is its own matter.

Names that the compiler makes up are no matter of the backend: they are bound by statements, in a
`Scope`. A function keeps the scope in which it is defined, and what its body binds is gone when it
is left. Every other name is the backend's.
-/

namespace TagLang

structure Backend (m : Type → Type) [Monad m] (V : Type) where
  string : String → V
  integer : Int64 → V
  float : Binary64 → V
  complex : Binary64 → Binary64 → V
  /-- The value of what has none. -/
  nothing : V
  list : List V → V
  /-- Looks up a name. -/
  read : String → m V
  operate : BinOp → V → V → m V
  /-- Decides a test. -/
  truth : V → m Bool
  /-- Makes a function of its parameters, with the values of their defaults, and its body. -/
  function : Params V → m V → V
  /-- Calls a value with positional and keyword arguments. -/
  call : V → List V → List (String × V) → m V
  /-- Whether a call looks up what it calls before it computes its arguments, or after. -/
  calleeFirst : Bool

/-- The values of names that the compiler has made up, newest first. -/
abbrev Scope (V : Type) := List (String × V)

/-- Where statements lead: on, or out of the function that they stand in. -/
inductive Flow (V : Type) where
  | next (scope : Scope V)
  | returned (value : V)

section

variable {m : Type → Type} [Monad m] {V : Type}

namespace Backend

/-- A call whose parts are still to be computed. -/
def invoke (B : Backend m V) (callee : m V) (args : m (List V))
    (keywords : m (List (String × V))) : m V :=
  if B.calleeFirst then do
    let f ← callee
    let values ← args
    B.call f values (← keywords)
  else do
    let values ← args
    let named ← keywords
    B.call (← callee) values named

/-- A choice between two computations. -/
def choose (B : Backend m V) (test yes no : m V) : m V := do
  if ← B.truth (← test) then yes else no

/-- What a call of a function gives if its statements lead there. -/
def result (B : Backend m V) : Flow V → V
  | .next _ => B.nothing
  | .returned value => value

end Backend

/-! ## Expressions -/

mutual

/-- Computes an expression, from left to right. -/
def Expr.eval (B : Backend m V) (scope : Scope V) : Expr → m V
  | .name ident =>
    match scope.lookup ident with
    | some value => pure value
    | none => B.read ident
  | .str value => pure (B.string value)
  | .int value => pure (B.integer value)
  | .float x => pure (B.float x)
  | .complex re im => pure (B.complex re im)
  | .nothing => pure B.nothing
  | .list items => return B.list (← Expr.evalAll B scope items)
  | .call func args keywords =>
    B.invoke (func.eval B scope) (Expr.evalAll B scope args) (Expr.evalFields B scope keywords)
  | .binOp op left right => do
    let l ← left.eval B scope
    let r ← right.eval B scope
    B.operate op l r
  | .ifExp test yes no => B.choose (test.eval B scope) (yes.eval B scope) (no.eval B scope)
  | .lambda ⟨positional, rest, keywords⟩ body =>
    return B.function ⟨positional, rest, ← Expr.evalFields B scope keywords⟩ (body.eval B scope)

def Expr.evalAll (B : Backend m V) (scope : Scope V) : List Expr → m (List V)
  | [] => pure []
  | e :: rest => return (← e.eval B scope) :: (← Expr.evalAll B scope rest)

def Expr.evalFields (B : Backend m V) (scope : Scope V) :
    List (String × Expr) → m (List (String × V))
  | [] => pure []
  | (key, e) :: rest => return (key, ← e.eval B scope) :: (← Expr.evalFields B scope rest)

end

/-- Computes a named value. -/
def Expr.evalField (B : Backend m V) (scope : Scope V) (field : String × Expr) : m (String × V) :=
  (fun value => (field.1, value)) <$> field.2.eval B scope

theorem Expr.evalFields_cons [LawfulMonad m] (B : Backend m V) (scope : Scope V)
    (field : String × Expr) (fields : List (String × Expr)) :
    Expr.evalFields B scope (field :: fields) = (do
      let value ← Expr.evalField B scope field
      return value :: (← Expr.evalFields B scope fields)) := by
  simp only [Expr.evalFields, Expr.evalField, map_eq_pure_bind, bind_assoc, pure_bind]

/-! ## Statements -/

mutual

def Stmt.run (B : Backend m V) (scope : Scope V) : Stmt → m (Flow V)
  | .eval value => do
    let _ ← value.eval B scope
    return .next scope
  | .assign target value => return .next ((target, ← value.eval B scope) :: scope)
  | .define name params body => do
    let defaults ← Expr.evalFields B scope params.keywords
    let meaning := B.result <$> Stmt.runAll B scope body
    return .next ((name, B.function ⟨params.positional, params.rest, defaults⟩ meaning) :: scope)
  | .branch test yes no => do
    let t ← test.eval B scope
    if ← B.truth t then Stmt.runAll B scope yes else Stmt.runAll B scope no
  | .ret value => return .returned (← value.eval B scope)

/-- Carries out statements until one leaves the function. -/
def Stmt.runAll (B : Backend m V) (scope : Scope V) : List Stmt → m (Flow V)
  | [] => pure (.next scope)
  | s :: rest => do
    match ← s.run B scope with
    | .next scope => Stmt.runAll B scope rest
    | .returned value => pure (.returned value)

end

/-- A function without parameters that is called without arguments carries out its body. This is
asked of bodies that statements spell out and not of every computation: a machine whose states hold
values has more computations than values. -/
def Backend.CallsBodies (B : Backend m V) : Prop :=
  ∀ (scope : Scope V) (body : List Stmt),
    B.call (B.function {} (B.result <$> Stmt.runAll B scope body)) [] [] =
      B.result <$> Stmt.runAll B scope body

/-- Carries out the steps of a fragment and then computes its value. -/
def Fragment.run (B : Backend m V) (scope : Scope V) (f : Fragment Expr) : m V := do
  match ← Stmt.runAll B scope f.steps with
  | .next scope => f.value.eval B scope
  | .returned value => return value

/-! ## Statements one after the other -/

section Lawful

variable [LawfulMonad m] (B : Backend m V) (scope : Scope V)

theorem Stmt.runAll_append (first rest : List Stmt) :
    Stmt.runAll B scope (first ++ rest) = (do
      match ← Stmt.runAll B scope first with
      | .next scope => Stmt.runAll B scope rest
      | .returned value => pure (.returned value)) := by
  induction first generalizing scope with
  | nil => simp only [List.nil_append, Stmt.runAll, pure_bind]
  | cons s first ih =>
    simp only [List.cons_append, Stmt.runAll, bind_assoc]
    congr 1
    funext flow
    cases flow with
    | next scope => exact ih scope
    | returned value => simp only [pure_bind]

theorem Stmt.runAll_singleton (s : Stmt) : Stmt.runAll B scope [s] = s.run B scope := by
  rw [Stmt.runAll]
  conv => rhs; rw [← bind_pure (s.run B scope)]
  congr 1
  funext flow
  cases flow <;> rfl

end Lawful

end

end TagLang
