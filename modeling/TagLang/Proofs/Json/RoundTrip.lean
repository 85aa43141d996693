import Mathlib.Data.List.Forall2
import TagLang.Proofs.Json.Scalars

/-!
# JSON text reads back

Both ways to write a value give the same lexemes, with nothing but blanks between them
(`lexes_compact`, `lexes_indented`), and the lexemes of a value lead the reader to that value
wherever it stands (`run_lexemes`). So a value is read back from its text (`parse?_compact`,
`parse?_pretty`), only that numbers that are not finite are lost: what is read is the value with
null in their place (`settled`). It is nested as deeply as the value (`nestsWithin_settled`).
-/

namespace TagLang.Json

/-! ## Values part by part -/

/-- A fact on values is proved part by part. -/
theorem parts_induction {motive : Json → Prop} (null : motive .null)
    (bool : ∀ value, motive (.bool value)) (int : ∀ n, motive (.int n))
    (float : ∀ x, motive (.float x)) (str : ∀ text, motive (.str text))
    (arr : ∀ items, (∀ json ∈ items, motive json) → motive (.arr items))
    (obj : ∀ fields, (∀ field ∈ fields, motive field.2) → motive (.obj fields)) :
    ∀ json, motive json
  | .null => null
  | .bool value => bool value
  | .int n => int n
  | .float x => float x
  | .str text => str text
  | .arr items => arr items fun json _ => parts_induction null bool int float str arr obj json
  | .obj fields =>
    obj fields fun field _ => parts_induction null bool int float str arr obj field.2
termination_by json => sizeOf json
decreasing_by
  · next hmem =>
    have := List.sizeOf_lt_of_mem hmem
    simp only [Json.arr.sizeOf_spec]
    omega
  · next hmem =>
    have := List.sizeOf_lt_of_mem hmem
    obtain ⟨key, value⟩ := field
    simp only [Json.obj.sizeOf_spec, Prod.mk.sizeOf_spec] at this ⊢
    omega

mutual

/-- The value as it can be written: null in the place of numbers that are not finite. -/
def settled : Json → Json
  | .float x => if x.isFinite then .float x else .null
  | .arr items => .arr (settledItems items)
  | .obj fields => .obj (settledFields fields)
  | json => json

def settledItems : List Json → List Json
  | [] => []
  | json :: rest => settled json :: settledItems rest

def settledFields : List (String × Json) → List (String × Json)
  | [] => []
  | (name, json) :: rest => (name, settled json) :: settledFields rest

end

mutual

/-- Whether every integer in a value is within the range of binary64. -/
def fits : Json → Bool
  | .int n => decide (n.natAbs < Binary64.integerBound)
  | .arr items => itemsFit items
  | .obj fields => fieldsFit fields
  | _ => true

def itemsFit : List Json → Bool
  | [] => true
  | json :: rest => fits json && itemsFit rest

def fieldsFit : List (String × Json) → Bool
  | [] => true
  | (_, json) :: rest => fits json && fieldsFit rest

end

mutual

/-- The lexemes of which the text of a value is made. -/
def lexemes : Json → List Lexeme
  | .arr items =>
    .leftBracket :: (List.intercalate [.comma] (itemLexemes items) ++ [.rightBracket])
  | .obj fields =>
    .leftBrace :: (List.intercalate [.comma] (fieldLexemes fields) ++ [.rightBrace])
  | .float x => [.scalar (if x.isFinite then .float x else .null)]
  | json => [.scalar json]

def itemLexemes : List Json → List (List Lexeme)
  | [] => []
  | json :: rest => lexemes json :: itemLexemes rest

def fieldLexemes : List (String × Json) → List (List Lexeme)
  | [] => []
  | (name, json) :: rest =>
    (.scalar (.str name) :: .colon :: lexemes json) :: fieldLexemes rest

end

section

variable {items : List Json} {fields : List (String × Json)}

theorem settledItems_eq_map : settledItems items = items.map settled := by
  induction items with
  | nil => rfl
  | cons json items ih => rw [settledItems, ih, List.map_cons]

theorem settledFields_eq_map : settledFields fields = fields.map fun f => (f.1, f.2.settled) := by
  induction fields with
  | nil => rfl
  | cons field fields ih => rw [settledFields, ih, List.map_cons]

theorem itemsFit_iff : itemsFit items = true ↔ ∀ json ∈ items, json.fits = true := by
  induction items with
  | nil => exact ⟨fun _ => List.forall_mem_nil _, fun _ => rfl⟩
  | cons json items ih => rw [itemsFit, Bool.and_eq_true, ih, List.forall_mem_cons]

theorem fieldsFit_iff : fieldsFit fields = true ↔ ∀ field ∈ fields, field.2.fits = true := by
  induction fields with
  | nil => exact ⟨fun _ => List.forall_mem_nil _, fun _ => rfl⟩
  | cons field fields ih => rw [fieldsFit, Bool.and_eq_true, ih, List.forall_mem_cons]

theorem itemsNestWithin_iff {bound : Nat} :
    itemsNestWithin bound items = true ↔ ∀ json ∈ items, json.nestsWithin bound = true := by
  induction items with
  | nil => exact ⟨fun _ => List.forall_mem_nil _, fun _ => rfl⟩
  | cons json items ih => rw [itemsNestWithin, Bool.and_eq_true, ih, List.forall_mem_cons]

theorem fieldsNestWithin_iff {bound : Nat} :
    fieldsNestWithin bound fields = true ↔ ∀ field ∈ fields, field.2.nestsWithin bound = true := by
  induction fields with
  | nil => exact ⟨fun _ => List.forall_mem_nil _, fun _ => rfl⟩
  | cons field fields ih => rw [fieldsNestWithin, Bool.and_eq_true, ih, List.forall_mem_cons]

theorem itemLexemes_eq_map : itemLexemes items = items.map lexemes := by
  induction items with
  | nil => rfl
  | cons json items ih => rw [itemLexemes, ih, List.map_cons]

theorem fieldLexemes_eq_map : fieldLexemes fields =
    fields.map fun f => .scalar (.str f.1) :: .colon :: f.2.lexemes := by
  induction fields with
  | nil => rfl
  | cons field fields ih => rw [fieldLexemes, ih, List.map_cons]

theorem compactItems_eq_map : compactItems items = items.map compact := by
  induction items with
  | nil => rfl
  | cons json items ih => rw [compactItems, ih, List.map_cons]

theorem compactFields_eq_map : compactFields fields =
    fields.map fun f => quote f.1 ++ ":" ++ f.2.compact := by
  induction fields with
  | nil => rfl
  | cons field fields ih => rw [compactFields, ih, List.map_cons]

theorem indentedItems_eq_map (depth : Nat) :
    indentedItems depth items = items.map (indented depth) := by
  induction items with
  | nil => rfl
  | cons json items ih => rw [indentedItems, ih, List.map_cons]

theorem indentedFields_eq_map (depth : Nat) : indentedFields depth fields =
    fields.map fun f => quote f.1 ++ ": " ++ f.2.indented depth := by
  induction fields with
  | nil => rfl
  | cons field fields ih => rw [indentedFields, ih, List.map_cons]

end

/-- What can be written of a value is nested as the value is. -/
theorem nestsWithin_settled (json : Json) (bound : Nat) :
    json.settled.nestsWithin bound = json.nestsWithin bound := by
  induction json using parts_induction generalizing bound with
  | null | bool | int | str => rfl
  | float x =>
    rw [settled]
    split <;> rfl
  | arr items ih =>
    cases bound with
    | zero => rfl
    | succ bound =>
      rw [settled, nestsWithin, nestsWithin, settledItems_eq_map, Bool.eq_iff_iff,
        itemsNestWithin_iff, itemsNestWithin_iff, List.forall_mem_map]
      exact forall₂_congr fun json hjson => by rw [ih json hjson bound]
  | obj fields ih =>
    cases bound with
    | zero => rfl
    | succ bound =>
      rw [settled, nestsWithin, nestsWithin, settledFields_eq_map, Bool.eq_iff_iff,
        fieldsNestWithin_iff, fieldsNestWithin_iff, List.forall_mem_map]
      exact forall₂_congr fun field hfield => by rw [ih field hfield bound]

/-! ## The lexemes of a text -/

theorem lexes_intercalate {sep : List Char} (hsep : Delimits sep [.comma]) (hne : sep ≠ [])
    (hstops : stops sep = true) {texts : List (List Char)} {parts : List (List Lexeme)}
    (h : List.Forall₂ Lexes texts parts) :
    Lexes (sep.intercalate texts) (List.intercalate [.comma] parts) := by
  induction h with
  | nil => exact lexes_nil
  | @cons text part texts parts hpart hparts ih =>
    cases hparts with
    | nil =>
      rw [List.intercalate_singleton, List.intercalate_singleton]
      exact hpart
    | cons =>
      rw [List.intercalate_cons_cons, List.intercalate_cons_cons]
      exact (hpart.append_delimits hsep hne hstops).append_lexes ih

/-- Items between brackets. -/
theorem lexes_bracketed {left right body : List Char} {l r : Lexeme} {lexemes : List Lexeme}
    (hleft : Delimits left [l]) (hbody : Lexes body lexemes) (hright : Delimits right [r])
    (hne : right ≠ []) (hstops : stops right = true) :
    Lexes (left ++ body ++ right) (l :: (lexemes ++ [r])) := by
  have h := ((hleft.append_lexes hbody).append_delimits hright hne hstops).lexes
  rwa [List.singleton_append, List.cons_append] at h

theorem delimits_colon : Delimits [':'] [.colon] := delimits_singleton rfl fun _ => rfl

theorem delimits_comma : Delimits [','] [.comma] := delimits_singleton rfl fun _ => rfl

/-- A key and its value. -/
theorem lexes_field {name : String} {text : List Char} {lexemes : List Lexeme} {colon : List Char}
    (hcolon : Delimits colon [.colon]) (h : Lexes text lexemes) :
    Lexes ((quote name).toList ++ colon ++ text) (.scalar (.str name) :: .colon :: lexemes) :=
  ((delimits_quote name).append hcolon).append_lexes h

/-- **The lexemes of a text without spaces.** -/
theorem lexes_compact (json : Json) (h : json.fits = true) :
    Lexes json.compact.toList json.lexemes := by
  induction json using parts_induction with
  | null => exact lexes_null
  | bool value =>
    cases value with
    | true => exact lexes_true
    | false => exact lexes_false
  | int n =>
    rw [fits, decide_eq_true_iff] at h
    exact lexes_intText h
  | float x => exact lexes_floatText x
  | str text => exact (delimits_quote text).lexes
  | arr items ih =>
    have hitems := itemsFit_iff.1 h
    rw [compact, lexemes, compactItems_eq_map, itemLexemes_eq_map, String.toList_append,
      String.toList_append, String.toList_intercalate, List.map_map]
    refine lexes_bracketed (delimits_singleton rfl fun _ => rfl) ?_
      (delimits_singleton rfl fun _ => rfl) (List.cons_ne_nil _ _) rfl
    refine lexes_intercalate delimits_comma (List.cons_ne_nil _ _) rfl ?_
    rw [List.forall₂_map_left_iff, List.forall₂_map_right_iff, List.forall₂_same]
    exact fun json hjson => ih json hjson (hitems json hjson)
  | obj fields ih =>
    have hfields := fieldsFit_iff.1 h
    rw [compact, lexemes, compactFields_eq_map, fieldLexemes_eq_map, String.toList_append,
      String.toList_append, String.toList_intercalate, List.map_map]
    refine lexes_bracketed (delimits_singleton rfl fun _ => rfl) ?_
      (delimits_singleton rfl fun _ => rfl) (List.cons_ne_nil _ _) rfl
    refine lexes_intercalate delimits_comma (List.cons_ne_nil _ _) rfl ?_
    rw [List.forall₂_map_left_iff, List.forall₂_map_right_iff, List.forall₂_same]
    intro field hfield
    show Lexes (quote field.1 ++ ":" ++ field.2.compact).toList _
    rw [String.toList_append, String.toList_append]
    exact lexes_field delimits_colon (ih field hfield (hfields field hfield))

theorem delimits_indent (depth : Nat) : Delimits (indent depth).toList [] := by
  rw [indent, String.toList_ofList]
  refine delimits_spaces fun c hc => ?_
  rw [List.eq_of_mem_replicate hc]
  rfl

/-- Items between brackets, one on each line. -/
theorem lexes_block {left right : Char} {l r : Lexeme} (hleft : Delimits [left] [l])
    (hright : Delimits [right] [r]) (hstops : stops [right] = true) (depth : Nat)
    {lines : List String} {parts : List (List Lexeme)}
    (h : List.Forall₂ (fun line part => Lexes line.toList part) lines parts) :
    Lexes (block (String.ofList [left]) (String.ofList [right]) depth lines).toList
      (l :: (List.intercalate [.comma] parts ++ [r])) := by
  have hnewline : Delimits ['\n'] [] := delimits_spaces (List.forall_mem_singleton.2 rfl)
  unfold block
  by_cases hempty : lines = []
  · rw [hempty, List.forall₂_nil_left_iff] at h
    rw [hempty, h, if_pos List.isEmpty_nil, String.toList_append, String.toList_ofList,
      String.toList_ofList]
    exact lexes_bracketed hleft lexes_nil hright (List.cons_ne_nil _ _) hstops
  · have hbody : Lexes (List.intercalate [',', '\n']
        (lines.map fun line => (indent (depth + 1) ++ line).toList))
        (List.intercalate [.comma] parts) := by
      refine lexes_intercalate (delimits_comma.append hnewline) (List.cons_ne_nil _ _) rfl ?_
      rw [List.forall₂_map_left_iff]
      refine h.imp fun line part hline => ?_
      rw [String.toList_append]
      exact (delimits_indent (depth + 1)).append_lexes hline
    have hwhole := lexes_bracketed (hleft.append hnewline) hbody
      ((hnewline.append (delimits_indent depth)).append hright) (List.cons_ne_nil _ _) rfl
    have hline : "\n".toList = ['\n'] := String.toList_ofList
    have hseparator : ",\n".toList = [',', '\n'] := String.toList_ofList
    rw [if_neg (by rwa [List.isEmpty_iff])]
    simp only [String.toList_append, String.toList_intercalate, String.toList_ofList, List.map_map,
      Function.comp_def, hline, hseparator, List.append_assoc] at hwhole ⊢
    exact hwhole

/-- **The lexemes of an indented text** are the same. -/
theorem lexes_indented (json : Json) (h : json.fits = true) (depth : Nat) :
    Lexes (json.indented depth).toList json.lexemes := by
  induction json using parts_induction generalizing depth with
  | null => exact lexes_null
  | bool value =>
    cases value with
    | true => exact lexes_true
    | false => exact lexes_false
  | int n =>
    rw [fits, decide_eq_true_iff] at h
    exact lexes_intText h
  | float x => exact lexes_floatText x
  | str text => exact (delimits_quote text).lexes
  | arr items ih =>
    have hitems := itemsFit_iff.1 h
    rw [indented, lexemes, indentedItems_eq_map, itemLexemes_eq_map]
    refine lexes_block (delimits_singleton rfl fun _ => rfl)
      (delimits_singleton rfl fun _ => rfl) rfl depth ?_
    rw [List.forall₂_map_left_iff, List.forall₂_map_right_iff, List.forall₂_same]
    exact fun json hjson => ih json hjson (hitems json hjson) _
  | obj fields ih =>
    have hfields := fieldsFit_iff.1 h
    have hcolon : Delimits [':', ' '] [.colon] :=
      delimits_colon.append (delimits_spaces (List.forall_mem_singleton.2 rfl))
    rw [indented, lexemes, indentedFields_eq_map, fieldLexemes_eq_map]
    refine lexes_block (delimits_singleton rfl fun _ => rfl)
      (delimits_singleton rfl fun _ => rfl) rfl depth ?_
    rw [List.forall₂_map_left_iff, List.forall₂_map_right_iff, List.forall₂_same]
    intro field hfield
    rw [String.toList_append, String.toList_append]
    exact lexes_field hcolon (ih field hfield (hfields field hfield) _)

/-! ## The reader on the lexemes of a value -/

/-- Takes lexemes one after the other. -/
def run (state : State) (lexemes : List Lexeme) : Option State :=
  lexemes.foldlM State.step state

/-- Wherever a value has to follow, its lexemes make it complete. -/
def Runs (json : Json) : Prop :=
  ∀ stack more,
    run (.needValue stack) (json.lexemes ++ more) = run (.complete json.settled stack) more

/-- The first item of an array is read like any other. -/
theorem run_needItem (json : Json) (items : List Json) (stack : List Open) (more : List Lexeme) :
    run (.needItem stack) (List.intercalate [.comma] ((json :: items).map lexemes) ++ more) =
      run (.needValue (.array [] :: stack))
        (List.intercalate [.comma] ((json :: items).map lexemes) ++ more) := by
  cases items <;> cases json <;> rfl

theorem run_items {json : Json} {items : List Json} (hjson : json.Runs)
    (h : ∀ json ∈ items, json.Runs) (done : List Json) (stack : List Open) (more : List Lexeme) :
    run (.needValue (.array done :: stack))
        (List.intercalate [.comma] ((json :: items).map lexemes) ++ .rightBracket :: more) =
      run (.complete (.arr (done.reverse ++ (json :: items).map settled)) stack) more := by
  induction items generalizing json done with
  | nil =>
    rw [List.map_singleton, List.intercalate_singleton, hjson]
    show run (.complete (.arr (json.settled :: done).reverse) stack) more = _
    rw [List.reverse_cons]
    rfl
  | cons next items ih =>
    obtain ⟨hnext, hitems⟩ := List.forall_mem_cons.1 h
    rw [List.map_cons, List.map_cons, List.intercalate_cons_cons, List.append_assoc,
      List.append_assoc, hjson]
    refine (ih hnext hitems (json.settled :: done)).trans ?_
    rw [List.reverse_cons, List.append_assoc]
    rfl

theorem run_fields {field : String × Json} {fields : List (String × Json)} (hfield : field.2.Runs)
    (h : ∀ field ∈ fields, field.2.Runs) (first : Bool) (done : List (String × Json))
    (stack : List Open) (more : List Lexeme) :
    run (.needKey first done stack)
        (List.intercalate [.comma] ((field :: fields).map fun f =>
          .scalar (.str f.1) :: .colon :: f.2.lexemes) ++ .rightBrace :: more) =
      run
        (.complete (.obj (done.reverse ++ (field :: fields).map fun f => (f.1, f.2.settled))) stack)
        more := by
  induction fields generalizing field first done with
  | nil =>
    rw [List.map_singleton, List.intercalate_singleton]
    refine (hfield (.object done field.1 :: stack) (.rightBrace :: more)).trans ?_
    show run (.complete (.obj ((field.1, field.2.settled) :: done).reverse) stack) more = _
    rw [List.reverse_cons]
    rfl
  | cons next fields ih =>
    obtain ⟨hnext, hfields⟩ := List.forall_mem_cons.1 h
    rw [List.map_cons, List.map_cons, List.intercalate_cons_cons, List.append_assoc,
      List.append_assoc]
    refine (hfield (.object done field.1 :: stack) _).trans ?_
    refine (ih hnext hfields false ((field.1, field.2.settled) :: done)).trans ?_
    rw [List.reverse_cons, List.append_assoc]
    rfl

/-- **The lexemes of a value make it complete**, wherever it stands. -/
theorem run_lexemes (json : Json) : json.Runs := by
  induction json using parts_induction with
  | null | bool | int | float | str => exact fun _ _ => rfl
  | arr items ih =>
    intro stack more
    rw [lexemes, settled, itemLexemes_eq_map, settledItems_eq_map]
    cases items with
    | nil => rfl
    | cons json items =>
      obtain ⟨hjson, hitems⟩ := List.forall_mem_cons.1 ih
      rw [List.cons_append, List.append_assoc]
      show run (.needItem stack) _ = _
      rw [run_needItem]
      exact run_items hjson hitems [] stack more
  | obj fields ih =>
    intro stack more
    rw [lexemes, settled, fieldLexemes_eq_map, settledFields_eq_map]
    cases fields with
    | nil => rfl
    | cons field fields =>
      obtain ⟨hfield, hfields⟩ := List.forall_mem_cons.1 ih
      rw [List.cons_append, List.append_assoc]
      exact run_fields hfield hfields true [] stack more

/-! ## Texts -/

theorem parse?_of_lexes {text : String} {json : Json} (h : Lexes text.toList json.lexemes) :
    parse? text = some json.settled := by
  have hlexemes : lexemesFrom [] text.toList = some json.lexemes := by
    have hend := h [] [] rfl
    rw [List.append_nil, List.append_nil, lexemesFrom, List.reverse_reverse] at hend
    exact hend
  have hrun : run (.needValue []) json.lexemes = some (.complete json.settled []) := by
    have hend := run_lexemes json [] []
    rw [List.append_nil] at hend
    exact hend
  unfold parse?
  rw [hlexemes, Option.bind_eq_bind, Option.bind_some]
  show (run (.needValue []) json.lexemes).bind State.finish? = _
  rw [hrun]
  rfl

/-- **A value is read back from its text without spaces.** -/
theorem parse?_compact {json : Json} (h : json.fits = true) :
    parse? json.compact = some json.settled :=
  parse?_of_lexes (lexes_compact json h)

/-- **A value is read back from its indented text.** -/
theorem parse?_pretty {json : Json} (h : json.fits = true) :
    parse? json.pretty = some json.settled :=
  parse?_of_lexes (lexes_indented json h 0)

end TagLang.Json
