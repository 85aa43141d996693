import TagLang.Compile.Basic
import TagLang.Node.Reader

/-!
# From source text to program

The whole way: text, tokens, nodes, program.
-/

namespace TagLang

inductive SourceError where
  | parse (error : ParseError)
  | compile (error : CompileError)
  deriving DecidableEq, Repr, Inhabited

def SourceError.message : SourceError → String
  | .parse e => "parse error: " ++ e.message
  | .compile e => "compile error: " ++ e.message

/-- Runs a compilation with a fresh supply of names. -/
def CompileM.fresh {α : Type} (x : CompileM α) : Except CompileError α :=
  match x.run {} with
  | .ok a _ => .ok a
  | .error e _ => .error e

/-- The program that a text writes. -/
def Program.ofSource (options : ParseOptions) (source : String) : Except SourceError Program :=
  match Node.parse options source with
  | .error e => .error (.parse e)
  | .ok nodes =>
    match (Program.ofNodes nodes).fresh with
    | .error e => .error (.compile e)
    | .ok program => .ok program

end TagLang
