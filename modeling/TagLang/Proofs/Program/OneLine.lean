import TagLang.Proofs.Program.Spelling
import TagLang.Proofs.Program.Tokens
import TagLang.Proofs.Program.Validity
import TagLang.Proofs.Reading.Names

/-!
# Expressions are written on one line

A text is tight if it is on one line and has no blank at its start or end (`Text.IsTight`). Names
are written as they are, so the text of an expression can be tight only if the names in it are, and
the names of a source are words (`Text.IsWord`), which is more. Then it is tight
(`Expr.HasWords.isTight_text`): numbers are runs, every line feed of a string is escaped, and what
is put together from parts starts and ends with a name or a bracket.
-/

namespace TagLang

/-! ## Tight texts -/

namespace Text

/-- A text on one line, without a blank at its start or end. -/
structure IsTight (text : List Char) : Prop where
  line : '\n' ∉ text
  head : ∃ c ∈ text.head?, isBlank c = false
  last : ∃ c ∈ text.getLast?, isBlank c = false

variable {text : List Char}

theorem isTight_of_chars (hne : text ≠ []) (h : ∀ c ∈ text, isBlank c = false) : IsTight text where
  line := fun hmem => absurd (h '\n' hmem) (by decide)
  head := ⟨text.head hne, List.head?_eq_some_head hne, h _ (List.head_mem hne)⟩
  last := ⟨text.getLast hne, List.getLast?_eq_some_getLast hne, h _ (List.getLast_mem hne)⟩

theorem IsWord.isTight {text : String} (h : IsWord text) : IsTight text.toList :=
  isTight_of_chars (fun hnil => h.ne_empty (String.toList_eq_nil_iff.1 hnil)) h.chars

/-- Fixed words are checked by evaluation. -/
theorem isWord_of_check {text : String}
    (h : (!text.toList.isEmpty && text.toList.all fun c => !isBlank c) = true) : IsWord text := by
  simp only [Bool.and_eq_true, Bool.not_eq_true', List.isEmpty_eq_false_iff, List.all_eq_true] at h
  exact ⟨fun hempty => h.1 (String.toList_eq_nil_iff.2 hempty), h.2⟩

theorem isTight_of_check {text : String}
    (h : (!text.toList.isEmpty && text.toList.all fun c => !isBlank c) = true) :
    IsTight text.toList :=
  (isWord_of_check h).isTight

/-- Only what is at the ends of a text matters, apart from line feeds. -/
theorem isTight_between {text : String} (front between back : String)
    (htext : text = front ++ between ++ back) (hfront : IsTight front.toList)
    (hbetween : '\n' ∉ between.toList) (hback : IsTight back.toList) : IsTight text.toList := by
  rw [htext, String.toList_append, String.toList_append]
  constructor
  · simp [hfront.line, hbetween, hback.line]
  · obtain ⟨c, hc, hblank⟩ := hfront.head
    refine ⟨c, ?_, hblank⟩
    rw [List.append_assoc, List.head?_append, Option.mem_def.1 hc]
    rfl
  · obtain ⟨c, hc, hblank⟩ := hback.last
    refine ⟨c, ?_, hblank⟩
    rw [List.getLast?_append, Option.mem_def.1 hc]
    rfl

theorem isTight_parenthesized {text : String} (between : String)
    (htext : text = "(" ++ between ++ ")") (h : '\n' ∉ between.toList) : IsTight text.toList :=
  isTight_between "(" between ")" htext (isTight_of_check rfl) h (isTight_of_check rfl)

theorem isBlank_of_isRunChar {c : Char} (h : isRunChar c = true) : isBlank c = false :=
  Bool.not_eq_true _ ▸ (isIdentifierChar_iff.1 (Piece.isIdentifierChar_of_isRunChar h)).2

theorem isWord_append_natText {stem : String} (h : IsWord stem) (n : Nat) :
    IsWord (stem ++ natText n) where
  ne_empty := fun hempty => h.ne_empty (String.append_eq_empty_iff.1 hempty).1
  chars := by
    rw [String.toList_append, natText, String.toList_ofList]
    refine List.forall_mem_append.2 ⟨h.chars, fun c hc => ?_⟩
    exact isBlank_of_isRunChar (isRunChar_of_isDigit (isDigit_of_mem_toDigits c hc))

theorem isTight_of_isNumberRun (h : IsNumberRun text) : IsTight text :=
  isTight_of_chars h.ne_nil fun c hc => isBlank_of_isRunChar (h.chars c hc)

theorem newline_notMem_encode (text : List Char) : '\n' ∉ Quoted.encode text := by
  intro hmem
  obtain ⟨c, -, hc⟩ := List.mem_flatMap.1 hmem
  unfold Quoted.encodeChar at hc
  split at hc
  case h_7 hline _ _ _ => exact hline (List.mem_singleton.1 hc).symm
  all_goals simp at hc

theorem isTight_quote (text : String) : IsTight (Quoted.quote text).toList :=
  isTight_between "\"" _ "\"" rfl (isTight_of_check rfl)
    (by rw [String.toList_ofList]; exact newline_notMem_encode _) (isTight_of_check rfl)

theorem newline_notMem_commaSeparated {parts : List String}
    (h : ∀ part ∈ parts, '\n' ∉ part.toList) : '\n' ∉ (commaSeparated parts).toList := by
  rw [commaSeparated, String.toList_intercalate]
  induction parts with
  | nil => exact List.not_mem_nil
  | cons part parts ih =>
    rw [List.forall_mem_cons] at h
    cases parts with
    | nil => simpa using h.1
    | cons next parts =>
      have hmore := ih h.2
      simp only [List.map_cons, List.intercalate_cons_cons, List.mem_append, not_or] at hmore ⊢
      exact ⟨⟨h.1, by decide⟩, hmore⟩

end Text

open Text (IsWord IsTight)

/-! ## Expressions -/

namespace Expr

/-- All names in an expression are words. -/
def HasWords (e : Expr) : Prop := ∀ item ∈ e.items, ∀ name ∈ item.names, IsWord name

namespace HasWords

variable {e : Expr}

theorem part (h : e.HasWords) {part : Expr} (hpart : part ∈ e.parts) : part.HasWords := by
  intro item hitem
  refine h item ?_
  rw [items_eq]
  exact Multiset.mem_add.2 (.inr (mem_sum_map_iff.2 ⟨part, hpart, hitem⟩))

theorem own (h : e.HasWords) : ∀ item ∈ e.own, ∀ name ∈ item.names, IsWord name := by
  intro item hitem
  refine h item ?_
  rw [items_eq]
  exact Multiset.mem_add.2 (.inl hitem)

end HasWords

theorem isTight_floatText (x : Binary64) : IsTight (floatText x).toList := by
  unfold floatText
  split_ifs with hfinite
  · exact Text.isTight_of_isNumberRun (isNumberRun_text numberStyle hfinite)
  all_goals exact Text.isTight_of_check rfl

theorem newline_notMem_texts {es : List Expr} (h : ∀ e ∈ es, IsTight e.text.toList) :
    ∀ part ∈ texts es, '\n' ∉ part.toList := by
  rw [texts_eq_map, List.forall_mem_map]
  exact fun e he => (h e he).line

theorem newline_notMem_keywordTexts {keywords : List (String × Expr)}
    (hkeys : ∀ key ∈ keywords.map Prod.fst, IsWord key)
    (hvalues : ∀ e ∈ keywords.map Prod.snd, IsTight e.text.toList) :
    ∀ part ∈ keywordTexts keywords, '\n' ∉ part.toList := by
  rw [keywordTexts_eq_map, List.forall_mem_map]
  intro keyword hkeyword
  simp [(hkeys _ (List.mem_map_of_mem hkeyword)).isTight.line,
    (hvalues _ (List.mem_map_of_mem hkeyword)).line]

theorem newline_notMem_params {params : Params Expr}
    (hnames : ∀ name ∈ params.item.names, IsWord name)
    (hvalues : ∀ e ∈ params.keywords.map Prod.snd, IsTight e.text.toList) :
    '\n' ∉ params.text.toList := by
  refine Text.newline_notMem_commaSeparated ?_
  obtain ⟨positional, rest, keywords⟩ := params
  simp only [Params.item, Item.names, List.forall_mem_append] at hnames
  obtain ⟨⟨hpositional, hrest⟩, hkeys⟩ := hnames
  refine List.forall_mem_append.2 ⟨List.forall_mem_append.2 ⟨?_, ?_⟩, ?_⟩
  · exact fun name hname => (hpositional name hname).isTight.line
  · cases rest with
    | none => exact List.forall_mem_nil _
    | some name =>
      have hname := (hrest name List.mem_cons_self).isTight.line
      simpa using hname
  · exact newline_notMem_keywordTexts hkeys hvalues

/-- A call starts with a name or a bracket, and ends with one. -/
theorem isTight_call {func : Expr} (hfunc : IsTight func.text.toList) {args : List Expr}
    {keywords : List (String × Expr)}
    (hinside : '\n' ∉ (commaSeparated (texts args ++ keywordTexts keywords)).toList) :
    IsTight (Expr.call func args keywords).text.toList := by
  cases hname : func.name? with
  | none =>
    refine Text.isTight_parenthesized
      (func.text ++ ")" ++ "(" ++ commaSeparated (texts args ++ keywordTexts keywords)) ?_ ?_
    · rw [text_call_of_name? hname]
      simp only [String.append_assoc]
    · simp [hfunc.line, hinside]
  | some ident =>
    obtain rfl := eq_name_of_name? hname
    refine Text.isTight_between ident
      ("(" ++ commaSeparated (texts args ++ keywordTexts keywords)) ")" ?_ hfunc ?_
      (Text.isTight_of_check rfl)
    · simp only [text, String.append_assoc]
    · simp [hinside]

theorem text_lambda (params : Params Expr) (body : Expr) :
    (Expr.lambda params body).text =
      "(" ++ ((if params.isEmpty then "lambda" else "lambda " ++ params.text) ++ ": " ++
        body.text) ++ ")" := by
  obtain ⟨positional, rest, keywords⟩ := params
  simp only [text, Params.text, String.append_assoc]

theorem isTight_lambda {params : Params Expr} (hparams : '\n' ∉ params.text.toList) {body : Expr}
    (hbody : IsTight body.text.toList) : IsTight (Expr.lambda params body).text.toList := by
  have hhead : '\n' ∉ (if params.isEmpty then "lambda" else "lambda " ++ params.text).toList := by
    split_ifs
    · decide
    · simp [hparams]
  refine Text.isTight_parenthesized _ (text_lambda params body) ?_
  simp [hhead, hbody.line]

/-- **An expression is written on one line**, without a blank at its start or end. -/
theorem HasWords.isTight_text {e : Expr} (h : e.HasWords) : IsTight e.text.toList := by
  induction e using parts_induction with
  | step e ih =>
    have hparts : ∀ part ∈ e.parts, IsTight part.text.toList :=
      fun part hpart => ih part hpart (h.part hpart)
    have hown := h.own
    cases e with
    | name ident => exact (hown _ (Multiset.mem_singleton_self _) ident List.mem_cons_self).isTight
    | str value => exact Text.isTight_quote value
    | int value => exact Text.isTight_of_isNumberRun (isNumberRun_intText _)
    | float x => exact isTight_floatText x
    | complex re im =>
      refine Text.isTight_between "complex(" (floatText re ++ ", " ++ floatText im) ")" ?_
        (Text.isTight_of_check rfl) ?_ (Text.isTight_of_check rfl)
      · simp only [text, String.append_assoc]
      · simp [(isTight_floatText re).line, (isTight_floatText im).line]
    | nothing => exact Text.isTight_of_check rfl
    | list items =>
      refine Text.isTight_between "[" (commaSeparated (texts items)) "]" (by rw [text])
        (Text.isTight_of_check rfl) ?_ (Text.isTight_of_check rfl)
      exact Text.newline_notMem_commaSeparated (newline_notMem_texts hparts)
    | call func args keywords =>
      obtain ⟨hfunc, hmore⟩ := List.forall_mem_cons.1 hparts
      obtain ⟨hargs, hvalues⟩ := List.forall_mem_append.1 hmore
      have hkeys := hown _ (Multiset.mem_singleton_self _)
      refine isTight_call hfunc (Text.newline_notMem_commaSeparated ?_)
      exact List.forall_mem_append.2
        ⟨newline_notMem_texts hargs, newline_notMem_keywordTexts hkeys hvalues⟩
    | binOp op left right =>
      simp only [parts, List.forall_mem_cons] at hparts
      have hsymbol : '\n' ∉ op.symbol.toList := by cases op <;> decide
      refine Text.isTight_parenthesized
        (left.text ++ " " ++ op.symbol ++ " " ++ right.text) ?_ ?_
      · simp only [text, String.append_assoc]
      · simp [hparts.1.line, hsymbol, hparts.2.1.line]
    | ifExp test yes no =>
      simp only [parts, List.forall_mem_cons] at hparts
      refine Text.isTight_parenthesized
        (yes.text ++ " if " ++ test.text ++ " else " ++ no.text) ?_ ?_
      · simp only [text, String.append_assoc]
      · simp [hparts.1.line, hparts.2.1.line, hparts.2.2.1.line]
    | lambda params body =>
      obtain ⟨hdefaults, hbody⟩ := List.forall_mem_append.1 hparts
      have hnames := hown params.item (Multiset.mem_add.2 (.inr (Multiset.mem_singleton_self _)))
      exact isTight_lambda (newline_notMem_params hnames hdefaults)
        (hbody body List.mem_cons_self)

end Expr

end TagLang
