import TagLang.Config.Basic

/-!
# Command lines

What a command line asks for. Options may stand before and behind the name of a file; `--` ends
them. A value may be attached to its option (`--format=text`, `-ftext`, `-f=text`) or be the next
argument, which then must not look like an option. No option is given twice. Arguments are read from
left to right, up to the first one that is wrong or asks for help.
-/

namespace TagLang

/-- An option of the command line. -/
inductive Flag where
  | config
  | format
  | stdout
  | strictTags
  deriving DecidableEq, Repr, Inhabited

namespace Flag

def takesValue : Flag → Bool
  | .config => true
  | .format => true
  | .stdout => false
  | .strictTags => false

def ofLong? : String → Option Flag
  | "config" => some .config
  | "format" => some .format
  | "stdout" => some .stdout
  | "strict-tags" => some .strictTags
  | _ => none

def ofShort? : Char → Option Flag
  | 'c' => some .config
  | 'f' => some .format
  | _ => none

end Flag

/-- What an argument looks like. -/
inductive Argument where
  | word (text : String)
  | help
  /-- An option, known or not, and the value attached to it. -/
  | option (flag : Option Flag) (value : Option String)
  | endOfOptions
  deriving DecidableEq, Repr, Inhabited

/-- The value attached to a short option. -/
def Argument.shortValue : List Char → Option String
  | [] => none
  | '=' :: value => some (String.ofList value)
  | value => some (String.ofList value)

/-- The value attached to a long option, from what follows its name. -/
def Argument.longValue : List Char → Option String
  | [] => none
  | _ :: value => some (String.ofList value)

/-- A dash alone is a word. -/
def Argument.ofString (text : String) : Argument :=
  match text.toList with
  | ['-', '-'] => .endOfOptions
  | ['-', '-', 'h', 'e', 'l', 'p'] => .help
  | '-' :: '-' :: rest =>
    .option (Flag.ofLong? (String.ofList (rest.takeWhile (· ≠ '='))))
      (longValue (rest.dropWhile (· ≠ '=')))
  | '-' :: 'h' :: _ => .help
  | '-' :: c :: rest => .option (Flag.ofShort? c) (shortValue rest)
  | _ => .word text

/-- Why a command line is not carried out. -/
inductive Stop where
  | help
  | malformed
  deriving DecidableEq, Repr, Inhabited

/-- The options given so far. -/
structure Options where
  config : Option String := none
  format : Option OutputFormat := none
  stdout : Bool := false
  strictTags : Bool := false
  deriving DecidableEq, Repr, Inhabited

namespace Options

/-- Sets an option that takes a value. -/
def setValue (o : Options) (value : String) : Flag → Except Stop Options
  | .config =>
    if o.config.isSome || value.isEmpty then throw .malformed
    else return { o with config := some value }
  | .format =>
    match OutputFormat.ofName? value with
    | none => throw .malformed
    | some format =>
      if o.format.isSome then throw .malformed else return { o with format := some format }
  | _ => throw .malformed

/-- Sets an option without a value. -/
def setFlag (o : Options) : Flag → Except Stop Options
  | .stdout => if o.stdout then throw .malformed else return { o with stdout := true }
  | .strictTags => if o.strictTags then throw .malformed else return { o with strictTags := true }
  | _ => throw .malformed

/-- Reads arguments with the options in `known`: the options, and the words in order, of which there
must not be two. Before the name of a command, reading stops at the first word, and only that word
and what follows are left. -/
def read (known : List Flag) (beforeCommand : Bool) (o : Options) (words : List String) :
    List String → Except Stop (Options × List String)
  | [] => return (o, words)
  | arg :: rest =>
    match Argument.ofString arg with
    | .word text =>
      if beforeCommand then return (o, text :: rest)
      else if words.isEmpty then read known beforeCommand o [text] rest
      else throw .malformed
    | .help => throw .help
    | .endOfOptions => if beforeCommand then throw .malformed else return (o, words ++ rest)
    | .option none _ => throw .malformed
    | .option (some flag) value =>
      if !known.contains flag then throw .malformed
      else
        match flag.takesValue, value with
        | false, some _ => throw .malformed
        | false, none => do read known beforeCommand (← o.setFlag flag) words rest
        | true, some value => do read known beforeCommand (← o.setValue value flag) words rest
        | true, none =>
          match rest with
          | [] => throw .malformed
          | next :: rest =>
            match Argument.ofString next with
            | .word value => do read known beforeCommand (← o.setValue value flag) words rest
            | _ => throw .malformed

end Options

/-- What is done with the input. -/
inductive Action where
  /-- Prints the tokens. -/
  | tokens
  /-- Prints the nodes. -/
  | parse (strictTags : Bool)
  /-- Prints the program or writes it to a file. -/
  | compile (strictTags stdout : Bool) (format : Option OutputFormat)
  deriving DecidableEq, Repr, Inhabited

structure Invocation where
  action : Action
  /-- The input file; a dash is standard input. -/
  file : String
  config : Option String
  deriving DecidableEq, Repr, Inhabited

namespace Invocation

/-- The options of a command, and its action with them. -/
def command? : String → Option (List Flag × (Options → Action))
  | "tokens" => some ([.config], fun _ => .tokens)
  | "parse" => some ([.config, .strictTags], fun o => .parse o.strictTags)
  | "compile" => some ([.config, .strictTags, .stdout, .format],
      fun o => .compile o.strictTags o.stdout o.format)
  | _ => none

/-- Help is there for all commands together, and for each of them. -/
def helpOn : List String → Stop
  | [] => .help
  | [command] => if command = "help" ∨ (command? command).isSome then .help else .malformed
  | _ => .malformed

/-- Reads a command line. A configuration file may be named before or behind the command, and the
one behind it wins. -/
def ofArgs (args : List String) : Except Stop Invocation := do
  match ← Options.read [.config] true {} [] args with
  | (_, []) => throw .malformed
  | (outer, command :: rest) =>
    if command = "help" then throw (helpOn rest)
    match command? command with
    | none => throw .malformed
    | some (known, action) =>
      let (o, words) ← Options.read known false {} [] rest
      match words with
      | [file] => return ⟨action o, file, o.config <|> outer.config⟩
      | _ => throw .malformed

end Invocation

/-- What a command line comes to. -/
inductive CommandLine where
  /-- It asks for a text about the commands. -/
  | help (text : String)
  /-- It is not well formed. -/
  | usage
  | run (invocation : Invocation)
  deriving DecidableEq, Repr, Inhabited

namespace CommandLine

/-- How command lines look. -/
def usageText : String :=
  "usage: taglang [-c PATH] tokens|parse|compile FILE [OPTION]...\n"

def ofArgs (args : List String) : CommandLine :=
  match Invocation.ofArgs args with
  | .ok i => .run i
  | .error .help => .help usageText
  | .error .malformed => .usage

end CommandLine

end TagLang
