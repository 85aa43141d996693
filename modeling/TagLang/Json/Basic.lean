import TagLang.Binary64.Basic
import TagLang.Text.Numeral

/-!
# JSON values

A JSON document as data. An object keeps its fields in the order in which they are written, and a
number written without fraction and exponent stays an integer of any size. The readers below take
one step into a value. `part?`, `recordPart?`, `items?` and `content?` take such a step together
with the proof that it leads to a smaller value, so that readers of recursive formats terminate.
-/

namespace TagLang

inductive Json where
  | null
  | bool (value : Bool)
  | int (value : Int)
  | float (value : Binary64)
  | str (value : String)
  | arr (items : List Json)
  | obj (fields : List (String × Json))
  deriving Inhabited

namespace Json

/-- The value of a field of an object. -/
def field? (json : Json) (name : String) : Option Json :=
  match json with
  | .obj fields => fields.lookup name
  | _ => none

def str? : Json → Option String
  | .str value => some value
  | _ => none

/-- The name of the kind of a value that is written as an object with one field. -/
def kind? : Json → Option String
  | .obj [(name, _)] => some name
  | _ => none

/-- The name of a kind without content: a string, or an object with null in its one field. -/
def bareKind? : Json → Option String
  | .str name => some name
  | .obj [(name, .null)] => some name
  | _ => none

/-- The value of a field of a record. A record is an object, or an array with the values of all its
fields in the order of `names`. -/
def recordField? (names : List String) (json : Json) (name : String) : Option Json :=
  match json with
  | .obj fields => fields.lookup name
  | .arr items => if items.length = names.length then (names.zip items).lookup name else none
  | _ => none

/-- A natural number below a bound. -/
def natBelow? (bound : Nat) : Json → Option Nat
  | .int (.ofNat n) => if n < bound then some n else none
  | _ => none

/-- An integer of 64 bits. -/
def int64? : Json → Option Int64
  | .int n => Text.int64? n
  | _ => none

theorem sizeOf_lookup_lt {fields : List (String × Json)} {name : String} {value : Json}
    (h : fields.lookup name = some value) : sizeOf value < sizeOf fields := by
  induction fields with
  | nil => simp at h
  | cons field rest ih =>
    obtain ⟨key, first⟩ := field
    rw [List.lookup_cons] at h
    split at h
    · cases h
      simp only [List.cons.sizeOf_spec, Prod.mk.sizeOf_spec]
      omega
    · have := ih h
      simp only [List.cons.sizeOf_spec]
      omega

theorem sizeOf_field?_lt {json : Json} {name : String} {value : Json}
    (h : json.field? name = some value) : sizeOf value < sizeOf json := by
  match json, h with
  | .obj fields, h =>
    have := sizeOf_lookup_lt h
    simp only [obj.sizeOf_spec]
    omega

theorem sizeOf_lookup_zip_lt {names : List String} {items : List Json} {name : String}
    {value : Json} (h : (names.zip items).lookup name = some value) :
    sizeOf value < sizeOf items := by
  induction names generalizing items with
  | nil => simp at h
  | cons key names ih =>
    cases items with
    | nil => simp at h
    | cons first rest =>
      rw [List.zip_cons_cons, List.lookup_cons] at h
      split at h
      · cases h
        simp only [List.cons.sizeOf_spec]
        omega
      · have := ih h
        simp only [List.cons.sizeOf_spec]
        omega

theorem sizeOf_recordField?_lt {names : List String} {json : Json} {name : String} {value : Json}
    (h : json.recordField? names name = some value) : sizeOf value < sizeOf json := by
  match json, h with
  | .obj fields, h =>
    have := sizeOf_lookup_lt h
    simp only [obj.sizeOf_spec]
    omega
  | .arr items, h =>
    simp only [recordField?] at h
    split at h
    · have := sizeOf_lookup_zip_lt h
      simp only [arr.sizeOf_spec]
      omega
    · cases h

/-- The value of a field, as a part of the whole. -/
def part? (json : Json) (name : String) : Option { value : Json // sizeOf value < sizeOf json } :=
  match h : json.field? name with
  | some value => some ⟨value, sizeOf_field?_lt h⟩
  | none => none

/-- The value of a field of a record, as a part of the whole. -/
def recordPart? (names : List String) (json : Json) (name : String) :
    Option { value : Json // sizeOf value < sizeOf json } :=
  match h : json.recordField? names name with
  | some value => some ⟨value, sizeOf_recordField?_lt h⟩
  | none => none

/-- The items of an array, as parts of the whole. -/
def items? : (json : Json) → Option { items : List Json // sizeOf items < sizeOf json }
  | .arr items => some ⟨items, by simp⟩
  | _ => none

/-- The fields of an object, as parts of the whole. -/
def fields? :
    (json : Json) → Option { fields : List (String × Json) // sizeOf fields < sizeOf json }
  | .obj fields => some ⟨fields, by simp⟩
  | _ => none

/-- The content of a value that is written as an object with one field, the name of its kind. -/
def content? (kind : String) :
    (json : Json) → Option { content : Json // sizeOf content < sizeOf json }
  | .obj [(name, content)] => if name = kind then some ⟨content, by simp; omega⟩ else none
  | _ => none

end Json

end TagLang
