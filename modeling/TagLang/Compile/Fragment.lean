import TagLang.Program.Basic

/-!
# Fragments

A compiled piece of source: statements to carry out first, and then a value. Fragments are put
together so that the statements of what comes earlier in the source come earlier.
-/

namespace TagLang

structure Fragment (α : Type) where
  steps : List Stmt
  value : α
  deriving Inhabited

namespace Fragment

variable {α β : Type}

/-- A value that needs no preparation. -/
def pure (value : α) : Fragment α := ⟨[], value⟩

def isPure (f : Fragment α) : Bool := f.steps.isEmpty

def map (g : α → β) (f : Fragment α) : Fragment β := ⟨f.steps, g f.value⟩

/-- Hands the value on; the steps of what it is handed to come later. -/
def andThen (f : Fragment α) (g : α → Fragment β) : Fragment β :=
  ⟨f.steps ++ (g f.value).steps, (g f.value).value⟩

/-- Both values, the steps of the left one first. -/
def zip (f : Fragment α) (g : Fragment β) : Fragment (α × β) :=
  f.andThen fun a => g.map fun b => (a, b)

/-- All values, and all steps in order. -/
def collect (fragments : List (Fragment α)) : Fragment (List α) :=
  ⟨fragments.flatMap steps, fragments.map value⟩

/-- The steps, and then the value as a statement. -/
def statements (f : Fragment Expr) : List Stmt :=
  f.steps ++ [.eval f.value]

/-- Carries out one fragment for its effect and goes on with another. -/
def followedBy (f next : Fragment Expr) : Fragment Expr :=
  ⟨f.statements ++ next.steps, next.value⟩

def program (f : Fragment Expr) : Program :=
  ⟨f.statements⟩

end Fragment

end TagLang
