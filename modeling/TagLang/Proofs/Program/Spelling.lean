import TagLang.Proofs.Program.Plain
import TagLang.Proofs.Reading.Decimals
import TagLang.Proofs.Token.Quoted

/-!
# How expressions are spelled

The text of an expression is put together from those of smaller ones in one of a few ways, its shape
(`Shape`): names and numbers are runs, with or without round brackets behind them, and there are
strings, lists, functions, and round brackets with an expression first and something else behind it.
Items, arguments and parameters are entries between commas (`Entry`).

The text of a plain expression is that of its shape (`Expr.toList_text`), and the expression is
found again from its shape (`Expr.expr_shape`). Runs are read back as they are in sources: a numeral
as the number that it is a literal of, all others as names.
-/

namespace TagLang

/-! ## Comma lists -/

/-- What stands between commas: an item, an argument or a parameter, a keyword with its value, or
the parameter that takes all further arguments. -/
inductive Entry where
  | value (e : Expr)
  | keyword (key : String) (e : Expr)
  | rest (name : String)

namespace Entry

def text : Entry → String
  | .value e => e.text
  | .keyword key e => key ++ "=" ++ e.text
  | .rest name => "*" ++ name

def isPlain : Entry → Bool
  | .value e => e.isPlain
  | .keyword key e => isPlainName key && e.isPlain
  | .rest name => isPlainName name

/-- The expression in an entry. -/
def expr? : Entry → Option Expr
  | .value e => some e
  | .keyword _ e => some e
  | .rest _ => none

def value? : Entry → Option Expr
  | .value e => some e
  | _ => none

def keyword? : Entry → Option (String × Expr)
  | .keyword key e => some (key, e)
  | _ => none

def rest? : Entry → Option String
  | .rest name => some name
  | _ => none

/-- The text of entries behind another one. -/
def moreText (entries : List Entry) : List Char :=
  entries.flatMap fun entry => ',' :: ' ' :: entry.text.toList

/-- The text of entries with commas between them. -/
def listText : List Entry → List Char
  | [] => []
  | entry :: entries => entry.text.toList ++ moreText entries

theorem toList_commaSeparated (entries : List Entry) :
    (commaSeparated (entries.map text)).toList = listText entries := by
  cases entries with
  | nil => rfl
  | cons entry entries =>
    rw [commaSeparated, String.toList_intercalate, listText]
    induction entries generalizing entry with
    | nil => simp [moreText]
    | cons next entries ih =>
      simp only [List.map_cons, List.intercalate_cons_cons] at ih ⊢
      rw [ih next]
      simp [moreText]

/-- The entries of a list. -/
def ofItems (items : List Expr) : List Entry := items.map .value

/-- The entries of a call. -/
def ofArguments (args : List Expr) (keywords : List (String × Expr)) : List Entry :=
  args.map .value ++ keywords.map fun keyword => .keyword keyword.1 keyword.2

/-- The entries of a parameter list. -/
def ofParams (params : Params Expr) : List Entry :=
  params.positional.map (fun name => .value (.name name)) ++ params.rest.toList.map .rest ++
    params.keywords.map fun keyword => .keyword keyword.1 keyword.2

end Entry

theorem Expr.texts_eq_map (es : List Expr) : texts es = es.map text := by
  induction es with
  | nil => rfl
  | cons e es ih => rw [texts, ih, List.map_cons]

theorem Expr.keywordTexts_eq_map (keywords : List (String × Expr)) :
    keywordTexts keywords = keywords.map fun keyword => keyword.1 ++ "=" ++ keyword.2.text := by
  induction keywords with
  | nil => rfl
  | cons keyword keywords ih => rw [keywordTexts, ih, List.map_cons]

namespace Entry

theorem map_text_ofItems (items : List Expr) : (ofItems items).map text = Expr.texts items := by
  rw [ofItems, List.map_map, Expr.texts_eq_map]
  rfl

theorem map_text_ofArguments (args : List Expr) (keywords : List (String × Expr)) :
    (ofArguments args keywords).map text = Expr.texts args ++ Expr.keywordTexts keywords := by
  rw [ofArguments, List.map_append, List.map_map, List.map_map, Expr.texts_eq_map,
    Expr.keywordTexts_eq_map]
  rfl

theorem map_text_ofParams (params : Params Expr) :
    (ofParams params).map text = params.parts (Expr.keywordTexts params.keywords) := by
  simp [ofParams, Params.parts, Expr.keywordTexts_eq_map, List.map_map, Function.comp_def, text,
    Expr.text, Option.toList_map]

theorem isEmpty_ofParams (params : Params Expr) : params.isEmpty = (ofParams params).isEmpty := by
  obtain ⟨positional, rest, keywords⟩ := params
  cases positional with
  | cons name positional => rfl
  | nil =>
    cases rest with
    | some name => rfl
    | none =>
      cases keywords with
      | cons keyword keywords => rfl
      | nil => rfl

theorem values_ofItems (items : List Expr) : (ofItems items).filterMap value? = items := by
  rw [ofItems, List.filterMap_map]
  exact List.filterMap_some

theorem values_ofArguments (args : List Expr) (keywords : List (String × Expr)) :
    (ofArguments args keywords).filterMap value? = args ∧
      (ofArguments args keywords).filterMap keyword? = keywords := by
  simp [ofArguments, List.filterMap_append, List.filterMap_map, Function.comp_def, value?, keyword?]

theorem values_ofParams (params : Params Expr) :
    (ofParams params).filterMap (fun entry => entry.value?.bind Expr.name?) = params.positional ∧
      ((ofParams params).filterMap rest?).head? = params.rest ∧
      (ofParams params).filterMap keyword? = params.keywords := by
  simp [ofParams, List.filterMap_append, List.filterMap_map, Function.comp_def, value?, keyword?,
    rest?, Expr.name?]

theorem ofParams_injective {params others : Params Expr} (h : ofParams params = ofParams others) :
    params = others := by
  obtain ⟨hpositional, hrest, hkeywords⟩ := values_ofParams params
  obtain ⟨hpositional', hrest', hkeywords'⟩ := values_ofParams others
  rw [h] at hpositional hrest hkeywords
  obtain ⟨positional, rest, keywords⟩ := params
  obtain ⟨positional', rest', keywords'⟩ := others
  rw [Params.mk.injEq]
  exact ⟨hpositional.symm.trans hpositional', hrest.symm.trans hrest',
    hkeywords.symm.trans hkeywords'⟩

end Entry

/-! ## Shapes -/

/-- What follows the first expression behind a round bracket. -/
inductive Tail where
  /-- The end of the bracket, and arguments in another one. -/
  | called (entries : List Entry)
  | operated (op : BinOp) (right : Expr)
  | chosen (test no : Expr)

/-- How the text of an expression is put together from those of smaller ones. -/
inductive Shape where
  /-- A run, with entries in round brackets behind it or not. -/
  | front (run : List Char) (inside : Option (List Entry))
  | quoted (value : String)
  | listed (entries : List Entry)
  | group (first : Expr) (tail : Tail)
  | function (entries : List Entry) (body : Expr)

def Tail.text : Tail → List Char
  | .called entries => ')' :: '(' :: (Entry.listText entries ++ [')'])
  | .operated op right => ' ' :: (op.symbol.toList ++ ' ' :: (right.text.toList ++ [')']))
  | .chosen test no =>
    ' ' :: (['i', 'f'] ++ ' ' :: (test.text.toList ++
      ' ' :: (['e', 'l', 's', 'e'] ++ ' ' :: (no.text.toList ++ [')']))))

namespace Shape

/-- The text of entries in round brackets, if there are any. -/
def insideText : Option (List Entry) → List Char
  | none => []
  | some entries => '(' :: (Entry.listText entries ++ [')'])

/-- The text between `lambda` and the colon. -/
def paramsText : List Entry → List Char
  | [] => []
  | entries => ' ' :: Entry.listText entries

def text : Shape → List Char
  | .front run inside => run ++ insideText inside
  | .quoted value => (Text.Quoted.quote value).toList
  | .listed entries => '[' :: (Entry.listText entries ++ [']'])
  | .group first tail => '(' :: (first.text.toList ++ tail.text)
  | .function entries body =>
    '(' :: ("lambda".toList ++ (paramsText entries ++ ':' :: ' ' :: (body.text.toList ++ [')'])))

end Shape

namespace Expr

def shape : Expr → Shape
  | .name ident => .front ident.toList none
  | .str value => .quoted value
  | .int value => .front (Text.intText value.toInt).toList none
  | .float x =>
    if x.isFinite then .front (x.text numberStyle).toList none
    else .front (if x.negative then "-float" else "float").toList (some [.value (.str "inf")])
  | .complex re im => .front "complex".toList (some [.value (.float re), .value (.float im)])
  | .nothing => .front "None".toList none
  | .list items => .listed (Entry.ofItems items)
  | .call (.name ident) args keywords =>
    .front ident.toList (some (Entry.ofArguments args keywords))
  | .call func args keywords => .group func (.called (Entry.ofArguments args keywords))
  | .binOp op left right => .group left (.operated op right)
  | .ifExp test yes no => .group yes (.chosen test no)
  | .lambda params body => .function (Entry.ofParams params) body

theorem toList_floatText {x : Binary64} (h : x.isNaN = false) :
    (floatText x).toList = (Expr.float x).shape.text := by
  rw [floatText, shape]
  by_cases hfinite : x.isFinite = true
  · rw [if_pos hfinite, if_pos hfinite]
    exact (List.append_nil _).symm
  · rw [if_neg hfinite, if_neg hfinite, if_neg (by rw [h]; exact Bool.false_ne_true)]
    cases x.negative with
    | true => decide
    | false => decide

theorem eq_name_of_name? {e : Expr} {ident : String} (h : e.name? = some ident) :
    e = .name ident := by
  cases e with
  | name other => rw [Option.some.inj h]
  | _ => cases h

theorem text_call_of_name? {func : Expr} (h : func.name? = none) (args : List Expr)
    (keywords : List (String × Expr)) :
    (Expr.call func args keywords).text =
      "(" ++ func.text ++ ")" ++ "(" ++ commaSeparated (texts args ++ keywordTexts keywords) ++
        ")" := by
  rw [text]
  rintro ident rfl
  cases h

theorem shape_call_of_name? {func : Expr} (h : func.name? = none) (args : List Expr)
    (keywords : List (String × Expr)) :
    (Expr.call func args keywords).shape =
      .group func (.called (Entry.ofArguments args keywords)) := by
  rw [shape]
  rintro ident rfl
  cases h

/-- **The text of an expression is that of its shape.** -/
theorem toList_text {e : Expr} (h : e.isPlain = true) : e.text.toList = e.shape.text := by
  rw [isPlain_eq, Bool.and_eq_true] at h
  cases e with
  | name ident => exact (List.append_nil _).symm
  | str value => rfl
  | int value => exact (List.append_nil _).symm
  | float x =>
    rw [text]
    exact toList_floatText (Bool.not_eq_true' _ ▸ h.1)
  | complex re im =>
    simp only [text, shape, Shape.text, Shape.insideText, Entry.listText, Entry.moreText,
      Entry.text, String.toList_append, List.flatMap_cons, List.flatMap_nil]
    simp
  | nothing => rfl
  | list items =>
    rw [text, shape, Shape.text, ← Entry.toList_commaSeparated, Entry.map_text_ofItems]
    simp
  | call func args keywords =>
    cases hname : func.name? with
    | none =>
      rw [text_call_of_name? hname, shape_call_of_name? hname, Shape.text, Tail.text,
        ← Entry.toList_commaSeparated, Entry.map_text_ofArguments]
      simp
    | some ident =>
      obtain rfl := eq_name_of_name? hname
      rw [text, shape, Shape.text, Shape.insideText, ← Entry.toList_commaSeparated,
        Entry.map_text_ofArguments]
      simp
  | binOp op left right =>
    rw [text, shape, Shape.text, Tail.text]
    simp
  | ifExp test yes no =>
    rw [text, shape, Shape.text, Tail.text]
    simp
  | lambda params body =>
    have hparts := Entry.map_text_ofParams params
    have hempty := Entry.isEmpty_ofParams params
    rw [shape, Shape.text]
    obtain ⟨positional, rest, keywords⟩ := params
    rw [text]
    dsimp only at hparts ⊢
    rw [← hparts, hempty]
    cases Entry.ofParams ⟨positional, rest, keywords⟩ with
    | nil => simp [Shape.paramsText]
    | cons entry entries =>
      rw [Shape.paramsText, ← Entry.toList_commaSeparated]
      · simp
      · rintro ⟨⟩

end Expr

/-! ## Back from shapes -/

namespace Shape

/-- The number that a numeral stands for. -/
def ofLiteral : Literal → Expr
  | .integer n _ => .int (Int64.ofInt n)
  | .float x => .float x
  | _ => .nothing

/-- The name or number that a run is. -/
def ofRun (run : List Char) : Expr :=
  if run = "None".toList then .nothing
  else if run.head?.any isNameStart then .name (String.ofList run)
  else ofLiteral (Literal.classify (String.ofList run))

/-- The complex number of two parts. -/
def ofParts : List Entry → Expr
  | [.value (.float re), .value (.float im)] => .complex re im
  | _ => .nothing

/-- What is written like a call of a run. -/
def ofApplied (run : List Char) (entries : List Entry) : Expr :=
  if run = "float".toList then .float (.ofMagnitude false Binary64.infinity)
  else if run = "-float".toList then .float (.ofMagnitude true Binary64.infinity)
  else if run = "complex".toList then ofParts entries
  else .call (.name (String.ofList run)) (entries.filterMap Entry.value?)
    (entries.filterMap Entry.keyword?)

/-- The plain expression of a shape. -/
def expr : Shape → Expr
  | .front run none => ofRun run
  | .front run (some entries) => ofApplied run entries
  | .quoted value => .str value
  | .listed entries => .list (entries.filterMap Entry.value?)
  | .group first (.called entries) =>
    .call first (entries.filterMap Entry.value?) (entries.filterMap Entry.keyword?)
  | .group left (.operated op right) => .binOp op left right
  | .group yes (.chosen test no) => .ifExp test yes no
  | .function entries body =>
    .lambda ⟨entries.filterMap fun entry => entry.value?.bind Expr.name?,
      (entries.filterMap Entry.rest?).head?, entries.filterMap Entry.keyword?⟩ body

theorem ofRun_name {ident : String} (h : isPlainName ident = true) :
    ofRun ident.toList = .name ident := by
  obtain ⟨hstart, -, hreserved⟩ := isPlainName_iff.1 h
  have hnone : ident.toList ≠ "None".toList := by
    intro heq
    rw [String.toList_injective heq] at hreserved
    exact hreserved (by decide)
  rw [ofRun, if_neg hnone, if_pos hstart, String.ofList_toList]

/-- A numeral is neither `None` nor a name. -/
theorem ofRun_number {text : String} (h : IsNumberRun text.toList) :
    ofRun text.toList = ofLiteral (Literal.classify text) := by
  have hnone : text.toList ≠ "None".toList := by
    intro heq
    have hhead := h.head
    rw [heq] at hhead
    cases hhead
  rw [ofRun, if_neg hnone, if_neg (by rw [h.head]; exact Bool.false_ne_true), String.ofList_toList]

theorem ofApplied_name {ident : String} (h : isPlainName ident = true) (args : List Expr)
    (keywords : List (String × Expr)) :
    ofApplied ident.toList (Entry.ofArguments args keywords) =
      .call (.name ident) args keywords := by
  obtain ⟨hstart, -, hreserved⟩ := isPlainName_iff.1 h
  have hne : ∀ word ∈ reservedNames, ident.toList ≠ word.toList := by
    intro word hword heq
    exact hreserved (String.toList_injective heq ▸ hword)
  have hsign : ident.toList ≠ "-float".toList := by
    intro heq
    rw [heq] at hstart
    cases hstart
  obtain ⟨hargs, hkeywords⟩ := Entry.values_ofArguments args keywords
  rw [ofApplied, if_neg (hne "float" (by decide)), if_neg hsign,
    if_neg (hne "complex" (by decide)), hargs, hkeywords, String.ofList_toList]

/-- What is no finite number and not no number is one of two infinities. -/
theorem eq_infinity {x : Binary64} (hfinite : ¬ x.isFinite = true) (hnan : x.isNaN = false) :
    x = .ofMagnitude x.negative Binary64.infinity := by
  have hmagnitude : x.magnitude = Binary64.infinity := by
    rw [Binary64.isFinite, decide_eq_true_eq] at hfinite
    rw [Binary64.isNaN, decide_eq_false_iff_not] at hnan
    omega
  rw [← hmagnitude, Binary64.ofMagnitude_magnitude]

theorem expr_shape_float {x : Binary64} (h : x.isNaN = false) :
    (Expr.float x).shape.expr = .float x := by
  rw [Expr.shape]
  by_cases hfinite : x.isFinite = true
  · rw [if_pos hfinite, expr, ofRun_number (isNumberRun_text _ hfinite),
      Literal.classify_text _ hfinite, ofLiteral]
  · rw [if_neg hfinite]
    have hx := eq_infinity hfinite h
    cases hsign : x.negative with
    | true =>
      rw [hsign] at hx
      rw [hx]
      rfl
    | false =>
      rw [hsign] at hx
      rw [hx]
      rfl

end Shape

namespace Expr

/-- **A plain expression is found again from its shape.** -/
theorem expr_shape {e : Expr} (h : e.isPlain = true) : e.shape.expr = e := by
  rw [isPlain_eq, Bool.and_eq_true] at h
  cases e with
  | name ident => exact Shape.ofRun_name h.1
  | str value => rfl
  | int value =>
    rw [shape, Shape.expr, Shape.ofRun_number (isNumberRun_intText _), Literal.classify_intText,
      Shape.ofLiteral, Int64.ofInt_toInt]
  | float x => exact Shape.expr_shape_float (Bool.not_eq_true' _ ▸ h.1)
  | complex re im => rfl
  | nothing => rfl
  | list items => rw [shape, Shape.expr, Entry.values_ofItems]
  | call func args keywords =>
    obtain ⟨hargs, hkeywords⟩ := Entry.values_ofArguments args keywords
    cases hname : func.name? with
    | none => rw [shape_call_of_name? hname, Shape.expr, hargs, hkeywords]
    | some ident =>
      obtain rfl := eq_name_of_name? hname
      have hident := List.all_eq_true.1 h.2 (.name ident) List.mem_cons_self
      rw [isPlain_name] at hident
      exact Shape.ofApplied_name hident args keywords
  | binOp op left right => rfl
  | ifExp test yes no => rfl
  | lambda params body =>
    obtain ⟨hpositional, hrest, hkeywords⟩ := Entry.values_ofParams params
    rw [shape, Shape.expr, hpositional, hrest, hkeywords]

end Expr

end TagLang
