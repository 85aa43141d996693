import TagLang.Compile.Form
import TagLang.Compile.Fragment
import TagLang.Compile.Names

/-!
# Compiling nodes

A node becomes a fragment. Most nodes are pure; an element with an effect in a place where only an
expression can stand gets a function of its own, defined in the steps before. The parts of an
element are compiled from left to right, and names are drawn from the supply only after all parts
of an element are compiled. A name that was drawn stays drawn if an error follows.
-/

namespace TagLang

/-- Compiling draws names and may fail. -/
abbrev CompileM := EStateM CompileError NameSupply

namespace CompileM

/-- Draws a name for a function. -/
def func : CompileM String := modifyGet NameSupply.func

/-- Draws a name for a variable. -/
def var : CompileM String := modifyGet NameSupply.var

/-- Fails in an element. -/
def fail {α : Type} (position : Position) (tag : String) (cause : CompileCause) : CompileM α :=
  throw ⟨position, tag, cause⟩

end CompileM

namespace Fragment

/-- The steps of a branch, with its value stored in a variable. -/
def assignTo (var : String) (f : Fragment Expr) : List Stmt :=
  f.steps ++ [.assign var f.value]

/-- The body of a function that a fragment is the value of. -/
def functionBody (f : Fragment Expr) : List Stmt :=
  f.steps ++ [.ret f.value]

end Fragment

/-- A conditional of compiled parts. Pure branches make an expression; else the branches go into a
function without parameters, which is called, and the steps of the test stay outside of it. -/
def CompileM.conditional (test yes no : Fragment Expr) : CompileM (Fragment Expr) := do
  if yes.isPure && no.isPure then
    return test.map fun test => .ifExp test yes.value no.value
  let func ← CompileM.func
  let var ← CompileM.var
  return test.andThen fun test =>
    ⟨[.define func {} [.branch test (yes.assignTo var) (no.assignTo var), .ret (.name var)]],
      .call (.name func) [] []⟩

/-- A function of compiled parts. A pure body makes an expression; else the function is defined in
the steps, after those of the defaults, and its name is the value. -/
def CompileM.function (params : Params Expr) (steps : List Stmt) (body : Fragment Expr) :
    CompileM (Fragment Expr) := do
  if body.isPure then return ⟨steps, .lambda params body.value⟩
  let name ← CompileM.func
  return ⟨steps ++ [.define name params body.functionBody], .name name⟩

mutual

def Node.compile : Node → CompileM (Fragment Expr)
  | .symbol name => return .pure (.name name)
  | .keyword text => return .pure (.keyword text)
  | .string value => return .pure (.str value)
  | .integer value _ => return .pure (.int value)
  | .float x => return .pure (.float x)
  | .complex re im => return .pure (.complex re im)
  | .list items => return (Fragment.collect (← Node.compileAll items)).map .list
  | .element ⟨name, attributes, children, position⟩ => do
    match Form.ofName? name with
    | none =>
      let args := Fragment.collect (← Node.compileAll children)
      let keywords := Fragment.collect (← Node.compileFields attributes)
      return (args.zip keywords).map fun (args, keywords) => .call (.name name) args keywords
    | some form =>
      if let some cause := form.fault? attributes children then
        CompileM.fail position name cause
      match form with
      | .sequence => Node.compileSequence children
      | .conditional =>
        match ← Node.compileAll children with
        | [test, yes, no] => CompileM.conditional test yes no
        | [test, yes] => CompileM.conditional test yes (.pure .nothing)
        | _ => CompileM.fail position name (.argumentCount form.arity children.length)
      | .operator op =>
        match ← Node.compileAll children with
        | [left, right] =>
          return (left.zip right).map fun (left, right) => .binOp op left right
        | _ => CompileM.fail position name (.argumentCount form.arity children.length)
      | .function =>
        match children with
        | [] => CompileM.fail position name (.argumentCount form.arity 0)
        | .list entries :: body =>
          match Params.ofNodes entries with
          | .error cause => CompileM.fail position name cause
          | .ok params =>
            let defaults := Fragment.collect (← Node.compileFields attributes)
            let body ← Node.compileSequence body
            let params : Params Expr := { params with keywords := defaults.value }
            if let some duplicate := firstDuplicate? [] params.names then
              CompileM.fail position name (.duplicateParameter duplicate)
            CompileM.function params defaults.steps body
        | other :: _ => CompileM.fail position name (.paramsNotList other.kindName)

/-- Compiles nodes from left to right. -/
def Node.compileAll : List Node → CompileM (List (Fragment Expr))
  | [] => return []
  | node :: rest => return (← node.compile) :: (← Node.compileAll rest)

/-- Compiles attributes from left to right; each value keeps its name. -/
def Node.compileFields : List (String × Node) → CompileM (List (Fragment (String × Expr)))
  | [] => return []
  | (key, node) :: rest =>
    return (← node.compile).map (fun value => (key, value)) :: (← Node.compileFields rest)

/-- Compiles nodes that are carried out one after the other; the value is the last one's. -/
def Node.compileSequence : List Node → CompileM (Fragment Expr)
  | [] => return .pure .nothing
  | [node] => node.compile
  | node :: next :: rest =>
    return (← node.compile).followedBy (← Node.compileSequence (next :: rest))

end

/-- Compiles the nodes of a whole text. No nodes make the program without statements. -/
def Program.ofNodes : List Node → CompileM Program
  | [] => return {}
  | nodes => return (← Node.compileSequence nodes).program

end TagLang
