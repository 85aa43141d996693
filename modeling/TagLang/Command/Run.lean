import TagLang.Command.Files
import TagLang.Command.Invocation
import TagLang.Compile.Source
import TagLang.Json.Writer
import TagLang.Node.Json
import TagLang.Program.Json
import TagLang.Program.Text

/-!
# Running a command line

What a command line does, in terms of a host that reads and writes files and prints. The
configuration is loaded first, then the input is read and the result is made of it; what is printed
or written comes last. How arguments and configuration texts are read is a parameter (`Readers`).
The host in memory makes a run a function of the arguments, the standard input and a tree of files.
-/

namespace TagLang

/-- How command lines and configuration texts are read. -/
structure Readers where
  commandLine : List String → CommandLine
  config : String → Option Config

/-- The readers of this library. -/
def Readers.standard : Readers := ⟨CommandLine.ofArgs, Config.ofText?⟩

/-- Access to files and the standard streams. Reading and writing files can fail. -/
structure Host (m : Type → Type) where
  read : String → m (Option String)
  /-- Whether there is anything at a path. -/
  present : String → m Bool
  input : m (Option String)
  write : (path content : String) → m Bool
  print : String → m Unit

/-- Why a well-formed command line fails. -/
inductive Failure where
  | unreadable (path : String)
  | config (path : String)
  | lex (error : LexError)
  | parse (error : ParseError)
  | source (error : SourceError)
  | unwritable (path : String)
  deriving DecidableEq, Repr, Inhabited

def Failure.message : Failure → String
  | .unreadable path => "cannot read " ++ path
  | .config path => "invalid configuration in " ++ path
  | .lex e => e.message
  | .parse e => e.message
  | .source e => e.message
  | .unwritable path => "cannot write " ++ path

/-! ## Results -/

/-- Where a token is and what it is. -/
def Token.line (t : Token) : String :=
  t.position.text ++ "\t" ++ t.describe ++ "\n"

/-- The text of a program in a format. -/
def OutputFormat.render (p : Program) : OutputFormat → String
  | .json => p.toJson.pretty
  | .text => p.text

/-- The file for the program from an input file. -/
def OutputFormat.path (file : String) (format : OutputFormat) : String :=
  if file = "-" then "output." ++ format.extension
  else FileName.withExtension file format.extension

/-! ## Runs -/

section

variable {m : Type → Type} [Monad m]

/-- The configuration from a file. -/
def Config.load (read : String → Option Config) (host : Host m) (path : String) :
    ExceptT Failure m Config := do
  let some text ← host.read path | throw (.unreadable path)
  let some config := read text | throw (.config path)
  return config

namespace Invocation

/-- The configuration of a run: from the named file, else from the default file if it is there. -/
def settings (read : String → Option Config) (host : Host m) (i : Invocation) :
    ExceptT Failure m Config := do
  match i.config with
  | some path => Config.load read host path
  | none =>
    if ← host.present Config.defaultPath then Config.load read host Config.defaultPath
    else return {}

/-- The input of a run. -/
def source (host : Host m) (i : Invocation) : ExceptT Failure m String := do
  let some text ← if i.file = "-" then host.input else host.read i.file
    | throw (.unreadable i.file)
  return text

/-- Prints the tokens of the input, each on a line. -/
def printTokens (host : Host m) (i : Invocation) : ExceptT Failure m Unit := do
  let source ← i.source host
  let tokens ← MonadExcept.ofExcept ((lex source).mapError .lex)
  tokens.forM fun t => host.print t.line

/-- Prints the nodes of the input. -/
def printNodes (host : Host m) (options : ParseOptions) (i : Invocation) :
    ExceptT Failure m Unit := do
  let source ← i.source host
  let nodes ← MonadExcept.ofExcept ((Node.parse options source).mapError .parse)
  host.print ((Json.arr (Node.listToJson nodes)).pretty ++ "\n")

/-- Compiles the input, and prints the program or writes it to its file. -/
def compile (host : Host m) (options : ParseOptions) (stdout : Bool) (format : OutputFormat)
    (i : Invocation) : ExceptT Failure m Unit := do
  let source ← i.source host
  let program ← MonadExcept.ofExcept ((Program.ofSource options source).mapError .source)
  let output := format.render program
  if stdout then host.print (Text.trimEnd output ++ "\n")
  else if !(← host.write (format.path i.file) output) then
    throw (.unwritable (format.path i.file))

/-- Runs a well-formed command line. -/
def run (readers : Readers) (host : Host m) (i : Invocation) : ExceptT Failure m Unit := do
  let config ← i.settings readers.config host
  match i.action with
  | .tokens => i.printTokens host
  | .parse strict => i.printNodes host ⟨config.strictTags || strict⟩
  | .compile strict stdout format =>
    i.compile host ⟨config.strictTags || strict⟩ stdout (format.getD config.format)

end Invocation

end

/-- How a run ends. -/
inductive Status where
  | success
  | failure (cause : Failure)
  /-- The command line is not well formed. -/
  | usage
  deriving DecidableEq, Repr, Inhabited

def Status.code : Status → Nat
  | .success => 0
  | .failure _ => 1
  | .usage => 2

/-- Runs a command line. -/
def runCommand {m : Type → Type} [Monad m] (readers : Readers) (host : Host m)
    (args : List String) : m Status := do
  match readers.commandLine args with
  | .help text =>
    host.print text
    return .success
  | .usage => return .usage
  | .run i =>
    match ← (i.run readers host).run with
    | .ok () => return .success
    | .error failure => return .failure failure

/-! ## In memory -/

/-- A tree of files, and what has been printed. -/
structure World where
  files : FileTree
  printed : String
  deriving DecidableEq, Repr, Inhabited

/-- A host with the given standard input whose files are a tree in memory. -/
def Host.inMemory (input : String) : Host (StateM World) where
  read path := return (← get).files.read? path
  present path := return (← get).files.contains path
  input := return some input
  write path content := do
    let world ← get
    match world.files.write? path content with
    | some files =>
      set { world with files }
      return true
    | none => return false
  print text := modify fun world => { world with printed := world.printed ++ text }

/-- How a run ends, and what it has printed. -/
structure Outcome where
  status : Status
  printed : String
  deriving DecidableEq, Repr, Inhabited

/-- Runs a command line on a tree of files: how it ends, and the files after it. -/
def runInMemory (readers : Readers) (args : List String) (input : String) (tree : FileTree) :
    Outcome × FileTree :=
  let (status, world) := (runCommand readers (Host.inMemory input) args).run ⟨tree, ""⟩
  (⟨status, world.printed⟩, world.files)

end TagLang
