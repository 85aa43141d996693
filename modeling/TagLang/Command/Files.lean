/-!
# Files

Names of files as they are written, and a tree of files in memory. A path is followed name by name,
from the root of the tree if it starts with a slash and else from the working directory. Every name
on the way must be a directory, and `..` leads back to the directory above, from the root to itself.
There are no links, so two places of the tree are never the same file.
-/

namespace TagLang

namespace FileName

/-- The part of a path up to its last slash, and the name behind it. -/
def split (path : List Char) : List Char × List Char :=
  ((path.reverse.dropWhile (· ≠ '/')).reverse, (path.reverse.takeWhile (· ≠ '/')).reverse)

/-- The part of a name before its last dot, if there is one and something stands before it. -/
def stem? (name : List Char) : Option (List Char) :=
  match name.reverse.dropWhile (· ≠ '.') with
  | _ :: c :: rest => some (c :: rest).reverse
  | _ => none

/-- The path of a file with another extension. A name without an extension gets one. What is left of
`..x` without its extension is `..`, a directory, and that stays as it is. -/
def withExtension (path : String) (extension : String) : String :=
  let (directory, name) := split path.toList
  match stem? name with
  | none => path ++ "." ++ extension
  | some ['.'] => String.ofList (directory ++ ['.', '.'])
  | some stem => String.ofList (directory ++ stem) ++ "." ++ extension

/-- No file has a name of more bytes. -/
def maxBytes : Nat := 255

/-- No path of more bytes leads to a file. -/
def maxPathBytes : Nat := 4095

end FileName

/-- Files and directories, each under the list of names that leads to it from the root. -/
structure FileTree where
  /-- The working directory. -/
  home : List String
  /-- Directories with or without anything in them. -/
  folders : List (List String)
  files : List (List String × String)
  deriving DecidableEq, Repr, Inhabited

namespace FileTree

/-- Whether a place is a directory: one that is given, or one on the way to a directory or file. -/
def isDirectory (t : FileTree) (place : List String) : Bool :=
  (t.home :: t.folders).any place.isPrefixOf ||
    t.files.any fun file => place.isPrefixOf file.1 && place.length < file.1.length

/-- Follows names from a place in the tree. -/
def follow (t : FileTree) (here : List String) : List String → Option (List String)
  | [] => some here
  | name :: rest =>
    if !t.isDirectory here then none
    else if name = "" ∨ name = "." then follow t here rest
    else if name = ".." then follow t here.dropLast rest
    else if FileName.maxBytes < name.utf8ByteSize then none
    else follow t (here ++ [name]) rest

/-- The names in a path. -/
def names (path : String) : List String :=
  (path.toList.splitOn '/').map String.ofList

/-- Where a path is followed from. -/
def start (t : FileTree) (path : String) : List String :=
  if path.toList.head? = some '/' then [] else t.home

/-- Where a path leads; one that is empty or too long leads nowhere. -/
def resolve? (t : FileTree) (path : String) : Option (List String) :=
  if path = "" ∨ FileName.maxPathBytes < path.utf8ByteSize then none
  else t.follow (t.start path) (names path)

/-- The content of a file. -/
def read? (t : FileTree) (path : String) : Option String := do
  t.files.lookup (← t.resolve? path)

/-- Whether there is a file or directory at a path. -/
def contains (t : FileTree) (path : String) : Bool :=
  (t.resolve? path).any fun place => t.isDirectory place || (t.files.lookup place).isSome

/-- Puts a content in a place, where there may be a file already or not. -/
def put (place : List String) (content : String) :
    List (List String × String) → List (List String × String)
  | [] => [(place, content)]
  | (other, old) :: rest =>
    if other = place then (place, content) :: rest else (other, old) :: put place content rest

/-- Writes a file; there must be no directory in its place. -/
def write? (t : FileTree) (path content : String) : Option FileTree := do
  let place ← t.resolve? path
  if t.isDirectory place then none else return { t with files := put place content t.files }

/-- The tree with the given files in its working directory, under their names. -/
def ofList (home : List String) (files : List (String × String)) : FileTree where
  home
  folders := []
  files := files.map fun file =>
    (home ++ (names file.1).filter fun name => name ≠ "" ∧ name ≠ ".", file.2)

end FileTree

end TagLang
