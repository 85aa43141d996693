/-!
# Fields

Values under names, in the order in which the names first came up. A name that comes up again keeps
its place and takes the new value.
-/

namespace TagLang

abbrev Fields (α : Type) := List (String × α)

namespace Fields

variable {α : Type}

/-- Puts a value under a name: in place if the name is there, else at the end. -/
def insert (fields : Fields α) (name : String) (value : α) : Fields α :=
  match fields with
  | [] => [(name, value)]
  | (key, old) :: rest =>
    if key = name then (name, value) :: rest else (key, old) :: insert rest name value

/-- The names, in order. -/
def names (fields : Fields α) : List String :=
  fields.map Prod.fst

end Fields

end TagLang
