import TagLang.Program.Text
import TagLang.Proofs.Program.RoundTrip

/-!
# Plain programs

A program is plain if its names are ASCII identifiers other than the words that the text of programs
gives a meaning to, and if every number in it is one (`Program.isPlain`).

Names and numerals are runs of letters, digits and signs, and what follows them in a text is none of
these, so that a run has one end only (`run_append_inj`). A numeral never starts like a name
(`isNumberRun_intText`, `isNumberRun_text`).
-/

namespace TagLang

/-! ## Plain names -/

/-- The words that are no names in the text of a program. -/
def reservedNames : List String :=
  ["None", "lambda", "if", "else", "def", "return", "pass", "float", "complex"]

def isNameStart (c : Char) : Bool := c.isAlpha || c == '_'

def isNameChar (c : Char) : Bool := c.isAlphanum || c == '_'

/-- Whether a name is an ASCII identifier that is not reserved. -/
def isPlainName (name : String) : Bool :=
  (name.toList.head?.any isNameStart && name.toList.all isNameChar) && !reservedNames.contains name

/-- Whether the names and numbers that an expression holds itself are plain. -/
def Expr.isPlainPart : Expr → Bool
  | .name ident => isPlainName ident
  | .float x => !x.isNaN
  | .complex re im => !re.isNaN && !im.isNaN
  | .call _ _ keywords => (keywords.map Prod.fst).all isPlainName
  | .lambda params _ => params.names.all isPlainName
  | _ => true

/-- Whether all names and numbers in an expression are plain. -/
def Expr.isPlain (e : Expr) : Bool := e.all.all isPlainPart

/-- Whether the names and expressions that a statement holds itself are plain. -/
def Stmt.isPlainPart (s : Stmt) : Bool :=
  s.exprs.all Expr.isPlain &&
    match s with
    | .assign target _ => isPlainName target
    | .define name params _ => isPlainName name && params.names.all isPlainName
    | _ => true

/-- Whether all names and numbers in a statement are plain. -/
def Stmt.isPlain (s : Stmt) : Bool := s.all.all isPlainPart

/-- Whether all names and numbers in a program are plain. -/
def Program.isPlain (p : Program) : Bool := p.body.all Stmt.isPlain

theorem Expr.isPlain_eq (e : Expr) : e.isPlain = (e.isPlainPart && e.parts.all isPlain) := by
  rw [isPlain, all_eq, List.all_cons, List.all_flatMap]
  rfl

theorem Expr.isPlain_name (ident : String) : (Expr.name ident).isPlain = isPlainName ident := by
  rw [isPlain_eq]
  exact Bool.and_true _

theorem Expr.isPlain_float (x : Binary64) : (Expr.float x).isPlain = !x.isNaN := by
  rw [isPlain_eq]
  exact Bool.and_true _

theorem Stmt.isPlain_eq (s : Stmt) :
    s.isPlain = (s.isPlainPart && s.blocks.all fun block => block.all isPlain) := by
  have hblock : ∀ block : List Stmt, (allOf block).all isPlainPart = block.all isPlain := by
    intro block
    rw [allOf_eq_flatMap, List.all_flatMap]
    rfl
  rw [isPlain, all_eq, List.all_cons, List.all_flatMap]
  simp only [hblock]

/-! ## Runs -/

/-- A character of names and numerals. -/
def isRunChar (c : Char) : Bool := c.isAlphanum || ['_', '.', '+', '-'].contains c

/-- A text that does not go on with a character of names and numerals. -/
def EndsRun (rest : List Char) : Prop := ∀ c ∈ rest.head?, isRunChar c = false

theorem endsRun_cons {c : Char} (hc : isRunChar c = false) (rest : List Char) :
    EndsRun (c :: rest) := by
  rintro d ⟨⟩
  exact hc

/-- Fixed marks are checked by evaluation. -/
theorem isRunChar_of_mem_marks {marks : List Char} (h : (marks.all fun c => !isRunChar c) = true)
    {c : Char} (hc : c ∈ marks) : isRunChar c = false :=
  Bool.not_eq_true' _ ▸ List.all_eq_true.1 h c hc

/-- **A run can be told from what follows it.** -/
theorem run_append_inj {run other rest more : List Char} (hrun : ∀ c ∈ run, isRunChar c = true)
    (hother : ∀ c ∈ other, isRunChar c = true) (hrest : EndsRun rest) (hmore : EndsRun more)
    (h : run ++ rest = other ++ more) : run = other ∧ rest = more :=
  append_inj_of_stop hrun hother hrest hmore h

theorem isRunChar_of_isNameChar {c : Char} (h : isNameChar c = true) : isRunChar c = true := by
  unfold isNameChar at h
  unfold isRunChar
  rcases Bool.or_eq_true_iff.1 h with h | h
  · rw [h, Bool.true_or]
  · rw [beq_iff_eq.1 h]
    rfl

theorem isRunChar_of_isDigit {c : Char} (h : c.isDigit = true) : isRunChar c = true := by
  rw [isRunChar, Char.isAlphanum, h, Bool.or_true, Bool.true_or]

/-- What a plain name is made of. -/
theorem isPlainName_iff {name : String} :
    isPlainName name = true ↔ name.toList.head?.any isNameStart = true ∧
      (∀ c ∈ name.toList, isNameChar c = true) ∧ name ∉ reservedNames := by
  rw [isPlainName, Bool.and_eq_true, Bool.and_eq_true, List.all_eq_true, Bool.not_eq_true',
    ← Bool.not_eq_true, List.contains_iff_mem, and_assoc]

theorem isRunChar_of_isPlainName {name : String} (h : isPlainName name = true) :
    ∀ c ∈ name.toList, isRunChar c = true :=
  fun c hc => isRunChar_of_isNameChar ((isPlainName_iff.1 h).2.1 c hc)

theorem toList_ne_nil_of_isPlainName {name : String} (h : isPlainName name = true) :
    name.toList ≠ [] := by
  intro hnil
  have hhead := (isPlainName_iff.1 h).1
  rw [hnil] at hhead
  cases hhead

/-! ## Numerals -/

/-- A numeral is a run that does not start like a name. -/
structure IsNumberRun (run : List Char) : Prop where
  ne_nil : run ≠ []
  chars : ∀ c ∈ run, isRunChar c = true
  head : run.head?.any isNameStart = false

theorem isNameStart_of_isDigit {c : Char} (h : c.isDigit = true) : isNameStart c = false := by
  rw [isNameStart, Bool.or_eq_false_iff, beq_eq_false_iff_ne]
  constructor
  · have hle : c.val ≤ '9'.val := of_decide_eq_true (Bool.and_eq_true_iff.1 h).2
    have hbelow : ∀ d : Char, ¬ d.val ≤ '9'.val → ¬ c.val ≥ d.val :=
      fun d hd hge => hd (UInt32.le_trans hge hle)
    apply Bool.or_eq_false_iff.2
    constructor
    · exact decide_eq_false fun hupper => hbelow 'A' (by decide) hupper.1
    · exact Bool.and_eq_false_iff.2 (.inl (decide_eq_false (hbelow 'a' (by decide))))
  · rintro rfl
    cases h

/-- Digits, and what follows them, behind a sign or none. -/
theorem isNumberRun_signed {c : Char} {more : List Char} (hc : c.isDigit = true)
    (hmore : ∀ d ∈ more, isRunChar d = true) (negative : Bool) :
    IsNumberRun (signText negative ++ c :: more) := by
  have hchars : ∀ d ∈ c :: more, isRunChar d = true :=
    List.forall_mem_cons.2 ⟨isRunChar_of_isDigit hc, hmore⟩
  cases negative with
  | true => exact ⟨List.cons_ne_nil _ _, List.forall_mem_cons.2 ⟨rfl, hchars⟩, rfl⟩
  | false => exact ⟨List.cons_ne_nil _ _, hchars, isNameStart_of_isDigit hc⟩

theorem isNumberRun_intText (n : Int) : IsNumberRun (Text.intText n).toList := by
  have hdigits := Text.isDigit_of_mem_toDigits (n := n.natAbs)
  obtain ⟨c, more, hcons⟩ := List.exists_cons_of_ne_nil
    (Nat.toDigits_ne_nil (b := 10) (n := n.natAbs))
  rw [hcons, List.forall_mem_cons] at hdigits
  rw [Text.toList_intText, hcons]
  exact isNumberRun_signed hdigits.1 (fun d hd => isRunChar_of_isDigit (hdigits.2 d hd)) _

theorem isRunChar_of_mem_unsigned (numeral : DecimalNumeral) :
    ∀ c ∈ numeral.unsigned, isRunChar c = true := by
  have hmarks : ∀ d ∈ ['.', 'e', 'E', '+', '-'], isRunChar d = true := List.all_eq_true.1 rfl
  intro c hc
  rcases numeral.forall_mem_unsigned c hc with hdigit | hmark
  · exact isRunChar_of_isDigit (Base.isDigit_decimal_iff.1 hdigit)
  · exact hmarks c hmark

theorem isNumberRun_text (style : Binary64.Style) {x : Binary64} (h : x.isFinite = true) :
    IsNumberRun (x.text style).toList := by
  obtain ⟨numeral, hstandard, htext, -⟩ := Binary64.exists_isStandard style h
  have hchars := isRunChar_of_mem_unsigned numeral
  obtain ⟨c, more, hunsigned, hdigit⟩ := hstandard.exists_digit
  rw [hunsigned] at hchars
  rw [htext, DecimalNumeral.text, hstandard.sign_eq, hunsigned]
  exact isNumberRun_signed hdigit (List.forall_mem_cons.1 hchars).2 _

end TagLang
