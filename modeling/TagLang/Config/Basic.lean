import TagLang.Config.Toml

/-!
# Configuration

The settings of the command line, and how they are read from a configuration text. Settings that the
text does not mention have their defaults, and what it mentions beyond them is ignored.
-/

namespace TagLang

/-- How a compiled program is written. -/
inductive OutputFormat where
  | json
  | text
  deriving DecidableEq, Repr, Inhabited

namespace OutputFormat

def ofName? : String → Option OutputFormat
  | "json" => some .json
  | "text" => some .text
  | _ => none

/-- The extension of files in this format. -/
def extension : OutputFormat → String
  | .json => "json"
  | .text => "txt"

/-- A format is given by its name, or as a table with an empty table of that name in it. -/
def ofToml? : Toml → Option OutputFormat
  | .str name => ofName? name
  | .table _ [(name, .table _ [])] => ofName? name
  | _ => none

end OutputFormat

structure Config where
  strictTags : Bool := false
  format : OutputFormat := .json
  deriving DecidableEq, Repr, Inhabited

namespace Config

/-- The file that is read if no other one is named. -/
def defaultPath : String := "ltns.toml"

/-- The value of a setting: the default if it is missing, `none` if it has a wrong type. -/
def setting? {α : Type} (read : Toml → Option α) (default : α) (name : String) : Toml → Option α
  | .table _ fields =>
    match fields.lookup name with
    | none => some default
    | some value => read value
  | _ => none

def strictTags? : Toml → Option Bool :=
  setting? (fun | .bool value => some value | _ => none) false "strict_tags"

def format? : Toml → Option OutputFormat :=
  setting? OutputFormat.ofToml? .json "format"

def ofToml? (document : Toml) : Option Config := do
  let strictTags ← setting? strictTags? false "parse" document
  let format ← setting? format? .json "output" document
  return ⟨strictTags, format⟩

/-- The configuration that a text writes. -/
def ofText? (text : String) : Option Config := do
  ofToml? (← Toml.parse? text)

end Config

end TagLang
