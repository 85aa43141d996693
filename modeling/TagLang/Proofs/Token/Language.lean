import Mathlib.Computability.Language
import TagLang.Token.Lexer

/-!
# The languages of tokens

What can stand at a place of a text is declared by regular languages: the delimiters, strings with
and without escapes, identifiers, the start of a comment, and two languages of strings that do not
end (`Lexeme.language`). `Lexeme.Word` writes out the words of each of them, with a string cut into
its characters and escapes (`StringUnit`).

No word is in two of the languages (`Lexeme.eq_of_mem_language`); in particular, no string both ends
and does not end. The characters and escapes of a string can be told from its text in only one way
(`StringUnit.textOf_append_eq`).
-/

namespace TagLang

open scoped Computability

/-! ## Characters and escapes of strings -/

/-- A character of a string with escapes, or an escape. -/
inductive StringUnit where
  | plain (c : Char)
  | escape (c : Char)

namespace StringUnit

def text : StringUnit → List Char
  | .plain c => [c]
  | .escape c => ['\\', c]

/-- A quote and a backslash are not written as they are, and a backslash does not stand at the end
of a line. -/
def Legal : StringUnit → Prop
  | .plain c => c ≠ '"' ∧ c ≠ '\\'
  | .escape c => c ≠ '\n'

def textOf (units : List StringUnit) : List Char := units.flatMap text

theorem textOf_nil : textOf [] = [] := rfl

theorem textOf_cons (u : StringUnit) (units : List StringUnit) :
    textOf (u :: units) = u.text ++ textOf units := rfl

theorem textOf_append (units more : List StringUnit) :
    textOf (units ++ more) = textOf units ++ textOf more :=
  List.flatMap_append

/-- No character and no escape starts with a quote. -/
theorem Legal.text_ne {u : StringUnit} (h : u.Legal) {rest more : List Char} :
    u.text ++ rest ≠ '"' :: more := by
  cases u with
  | plain c =>
    intro heq
    exact h.1 (List.cons.inj heq).1
  | escape c =>
    intro heq
    exact absurd (List.cons.inj heq).1 (by decide)

/-- A character or an escape can be told from what follows it. -/
theorem Legal.eq_of_text_append_eq {u v : StringUnit} (hu : u.Legal) (hv : v.Legal)
    {rest more : List Char} (h : u.text ++ rest = v.text ++ more) : u = v ∧ rest = more := by
  cases u with
  | plain c =>
    cases v with
    | plain d =>
      obtain ⟨rfl, rfl⟩ := List.cons.inj h
      exact ⟨rfl, rfl⟩
    | escape d => exact absurd (List.cons.inj h).1 hu.2
  | escape c =>
    cases v with
    | plain d => exact absurd (List.cons.inj h).1.symm hv.2
    | escape d =>
      obtain ⟨rfl, rfl⟩ := List.cons.inj (List.cons.inj h).2
      exact ⟨rfl, rfl⟩

/-- **Of two ways to cut the start of a text into characters and escapes, one goes on from the
other.** -/
theorem textOf_append_eq {units more : List StringUnit} (hunits : ∀ u ∈ units, u.Legal)
    (hmore : ∀ u ∈ more, u.Legal) {x y : List Char} (h : textOf units ++ x = textOf more ++ y) :
    (∃ rest, more = units ++ rest ∧ x = textOf rest ++ y) ∨
      ∃ rest, units = more ++ rest ∧ y = textOf rest ++ x := by
  induction units generalizing more with
  | nil => exact .inl ⟨more, rfl, h⟩
  | cons u units ih =>
    cases more with
    | nil => exact .inr ⟨u :: units, rfl, h.symm⟩
    | cons v more =>
      rw [List.forall_mem_cons] at hunits hmore
      rw [textOf_cons, textOf_cons, List.append_assoc, List.append_assoc] at h
      obtain ⟨rfl, htail⟩ := hunits.1.eq_of_text_append_eq hmore.1 h
      rcases ih hunits.2 hmore.2 htail with ⟨rest, rfl, hx⟩ | ⟨rest, rfl, hy⟩
      · exact .inl ⟨rest, rfl, hx⟩
      · exact .inr ⟨rest, rfl, hy⟩

end StringUnit

/-! ## Languages -/

/-- The texts of one character of a class. -/
def characterOf (p : Char → Prop) : Language Char := {w | ∃ c, p c ∧ w = [c]}

/-- The characters and escapes of a string: `[^"\\]|\\.` -/
def stringUnit : Language Char :=
  characterOf (fun c => c ≠ '"' ∧ c ≠ '\\') + {['\\']} * characterOf (· ≠ '\n')

/-- The characters of identifiers: `[^<>\[\]{}=/"\s]` -/
def identifierChar : Language Char :=
  characterOf fun c => c ∉ ['<', '>', '[', ']', '\x7b', '\x7d', '=', '/', '"'] ∧ ¬ Text.isBlank c

/-- What a text can start with. -/
inductive Lexeme where
  | closeOpen
  | selfClose
  | tagOpen
  | tagClose
  | listOpen
  | listClose
  | equals
  | quoted
  | raw
  | identifier
  | commentOpen
  /-- A string with escapes that does not end. -/
  | openQuoted
  /-- A string without escapes that does not end. -/
  | openRaw
  deriving DecidableEq

namespace Lexeme

def language : Lexeme → Language Char
  | .closeOpen => {['<', '/']}
  | .selfClose => {['/', '>']}
  | .tagOpen => {['<']}
  | .tagClose => {['>']}
  | .listOpen => {['[']}
  | .listClose => {[']']}
  | .equals => {['=']}
  | .quoted => {['"']} * stringUnit∗ * {['"']}
  | .raw => {['r', '"']} * (characterOf (· ≠ '"'))∗ * {['"']}
  | .identifier => identifierChar * identifierChar∗
  | .commentOpen => {['<', '!', '-', '-']}
  | .openQuoted => {['"']} * stringUnit∗ * (1 + {['\\']})
  | .openRaw => {['r', '"']} * (characterOf (· ≠ '"'))∗

/-- The words of the languages, written out. -/
inductive Word : Lexeme → List Char → Prop
  | closeOpen : Word .closeOpen ['<', '/']
  | selfClose : Word .selfClose ['/', '>']
  | tagOpen : Word .tagOpen ['<']
  | tagClose : Word .tagClose ['>']
  | listOpen : Word .listOpen ['[']
  | listClose : Word .listClose [']']
  | equals : Word .equals ['=']
  | quoted {units : List StringUnit} : (∀ u ∈ units, u.Legal) →
      Word .quoted ('"' :: (StringUnit.textOf units ++ ['"']))
  | raw {body : List Char} : (∀ c ∈ body, c ≠ '"') → Word .raw ('r' :: '"' :: (body ++ ['"']))
  | identifier {c : Char} {w : List Char} : (∀ d ∈ c :: w, Piece.isIdentifierChar d = true) →
      Word .identifier (c :: w)
  | commentOpen : Word .commentOpen ['<', '!', '-', '-']
  | openQuoted {units : List StringUnit} {w : List Char} : (∀ u ∈ units, u.Legal) →
      w = [] ∨ w = ['\\'] → Word .openQuoted ('"' :: (StringUnit.textOf units ++ w))
  | openRaw {body : List Char} : (∀ c ∈ body, c ≠ '"') → Word .openRaw ('r' :: '"' :: body)

end Lexeme

/-! ## Words of the languages -/

/-- If the words of a language are the texts of items, so are those of its star of lists. -/
theorem mem_kstar_iff_exists {α β : Type} {L : Language α} {P : β → Prop} {f : β → List α}
    (h : ∀ w, w ∈ L ↔ ∃ b, P b ∧ w = f b) (w : List α) :
    w ∈ L∗ ↔ ∃ bs : List β, (∀ b ∈ bs, P b) ∧ w = bs.flatMap f := by
  rw [Language.mem_kstar]
  constructor
  · rintro ⟨words, rfl, hwords⟩
    induction words with
    | nil => exact ⟨[], List.forall_mem_nil _, rfl⟩
    | cons word words ih =>
      rw [List.forall_mem_cons] at hwords
      obtain ⟨b, hb, hword⟩ := (h word).1 hwords.1
      obtain ⟨bs, hbs, hflat⟩ := ih hwords.2
      refine ⟨b :: bs, List.forall_mem_cons.2 ⟨hb, hbs⟩, ?_⟩
      rw [List.flatten_cons, hflat, hword, List.flatMap_cons]
  · rintro ⟨bs, hbs, rfl⟩
    refine ⟨bs.map f, List.flatMap_def, fun word hword => ?_⟩
    obtain ⟨b, hb, rfl⟩ := List.mem_map.1 hword
    exact (h _).2 ⟨b, hbs b hb, rfl⟩

theorem mem_kstar_characterOf {p : Char → Prop} {w : List Char} :
    w ∈ (characterOf p)∗ ↔ ∀ c ∈ w, p c := by
  refine (mem_kstar_iff_exists (L := characterOf p) (fun w => Iff.rfl) w).trans ?_
  constructor
  · rintro ⟨cs, hcs, rfl⟩
    rwa [List.flatMap_singleton']
  · intro h
    exact ⟨w, h, (List.flatMap_singleton' w).symm⟩

theorem mem_stringUnit {w : List Char} :
    w ∈ stringUnit ↔ ∃ u : StringUnit, u.Legal ∧ w = u.text := by
  rw [stringUnit, Language.mem_add, Language.mem_mul]
  constructor
  · rintro (⟨c, hc, rfl⟩ | ⟨_, rfl, _, ⟨c, hc, rfl⟩, rfl⟩)
    · exact ⟨.plain c, hc, rfl⟩
    · exact ⟨.escape c, hc, rfl⟩
  · rintro ⟨u, hu, rfl⟩
    cases u with
    | plain c => exact .inl ⟨c, hu, rfl⟩
    | escape c => exact .inr ⟨_, rfl, _, ⟨c, hu, rfl⟩, rfl⟩

theorem mem_kstar_stringUnit {w : List Char} :
    w ∈ stringUnit∗ ↔ ∃ units, (∀ u ∈ units, u.Legal) ∧ w = StringUnit.textOf units :=
  mem_kstar_iff_exists (fun _ => mem_stringUnit) w

theorem isIdentifierChar_iff {c : Char} : Piece.isIdentifierChar c = true ↔
    c ∉ ['<', '>', '[', ']', '\x7b', '\x7d', '=', '/', '"'] ∧ ¬ Text.isBlank c := by
  rw [Piece.isIdentifierChar, Bool.not_eq_true', Bool.or_eq_false_iff, Bool.not_eq_true]
  rw [← Bool.not_eq_true (Piece.reserved.contains c), List.contains_iff_mem, and_comm]
  rfl

theorem mem_singleton_mul {x w : List Char} {L : Language Char} :
    w ∈ {x} * L ↔ ∃ m ∈ L, w = x ++ m := by
  rw [Language.mem_mul]
  constructor
  · rintro ⟨_, rfl, m, hm, rfl⟩
    exact ⟨m, hm, rfl⟩
  · rintro ⟨m, hm, rfl⟩
    exact ⟨x, rfl, m, hm, rfl⟩

theorem mem_mul_singleton {x w : List Char} {L : Language Char} :
    w ∈ L * {x} ↔ ∃ m ∈ L, w = m ++ x := by
  rw [Language.mem_mul]
  constructor
  · rintro ⟨m, hm, _, rfl, rfl⟩
    exact ⟨m, hm, rfl⟩
  · rintro ⟨m, hm, rfl⟩
    exact ⟨m, hm, x, rfl, rfl⟩

namespace Lexeme

theorem mem_quoted {w : List Char} : w ∈ quoted.language ↔ quoted.Word w := by
  rw [language, mul_assoc, mem_singleton_mul]
  constructor
  · rintro ⟨m, hm, rfl⟩
    obtain ⟨body, hbody, rfl⟩ := mem_mul_singleton.1 hm
    obtain ⟨units, hunits, rfl⟩ := mem_kstar_stringUnit.1 hbody
    exact .quoted hunits
  · intro h
    cases h with
    | quoted hunits =>
      exact ⟨_, mem_mul_singleton.2 ⟨_, mem_kstar_stringUnit.2 ⟨_, hunits, rfl⟩, rfl⟩, rfl⟩

theorem mem_openQuoted {w : List Char} : w ∈ openQuoted.language ↔ openQuoted.Word w := by
  rw [language, mul_assoc, mem_singleton_mul]
  constructor
  · rintro ⟨m, hm, rfl⟩
    obtain ⟨body, hbody, tail, htail, rfl⟩ := Language.mem_mul.1 hm
    obtain ⟨units, hunits, rfl⟩ := mem_kstar_stringUnit.1 hbody
    exact .openQuoted hunits htail
  · intro h
    cases h with
    | openQuoted hunits htail =>
      refine ⟨_, Language.mem_mul.2 ⟨_, mem_kstar_stringUnit.2 ⟨_, hunits, rfl⟩, _, ?_, rfl⟩, rfl⟩
      exact htail

theorem mem_raw {w : List Char} : w ∈ raw.language ↔ raw.Word w := by
  rw [language, mul_assoc, mem_singleton_mul]
  constructor
  · rintro ⟨m, hm, rfl⟩
    obtain ⟨body, hbody, rfl⟩ := mem_mul_singleton.1 hm
    exact .raw (mem_kstar_characterOf.1 hbody)
  · intro h
    cases h with
    | raw hbody => exact ⟨_, mem_mul_singleton.2 ⟨_, mem_kstar_characterOf.2 hbody, rfl⟩, rfl⟩

theorem mem_openRaw {w : List Char} : w ∈ openRaw.language ↔ openRaw.Word w := by
  rw [language, mem_singleton_mul]
  constructor
  · rintro ⟨m, hm, rfl⟩
    exact .openRaw (mem_kstar_characterOf.1 hm)
  · intro h
    cases h with
    | openRaw hbody => exact ⟨_, mem_kstar_characterOf.2 hbody, rfl⟩

theorem mem_identifier {w : List Char} : w ∈ identifier.language ↔ identifier.Word w := by
  rw [language, identifierChar, Language.mem_mul]
  constructor
  · rintro ⟨_, ⟨c, hc, rfl⟩, m, hm, rfl⟩
    refine .identifier (List.forall_mem_cons.2 ⟨isIdentifierChar_iff.2 hc, fun d hd => ?_⟩)
    exact isIdentifierChar_iff.2 (mem_kstar_characterOf.1 hm d hd)
  · intro h
    cases h with
    | @identifier c m hchars =>
      rw [List.forall_mem_cons] at hchars
      refine ⟨[c], ⟨c, isIdentifierChar_iff.1 hchars.1, rfl⟩, m, ?_, rfl⟩
      exact mem_kstar_characterOf.2 fun d hd => isIdentifierChar_iff.1 (hchars.2 d hd)

/-- **The words of the languages.** -/
theorem mem_language_iff {lexeme : Lexeme} {w : List Char} :
    w ∈ lexeme.language ↔ lexeme.Word w := by
  cases lexeme with
  | quoted => exact mem_quoted
  | openQuoted => exact mem_openQuoted
  | raw => exact mem_raw
  | openRaw => exact mem_openRaw
  | identifier => exact mem_identifier
  | closeOpen | selfClose | tagOpen | tagClose | listOpen | listClose | equals | commentOpen =>
    constructor
    · rintro rfl
      constructor
    · rintro ⟨⟩
      rfl

/-! ## No word is in two languages -/

theorem splitQuoted_plain {c : Char} (hquote : c ≠ '"') (hslash : c ≠ '\\')
    (done rest : List Char) :
    Piece.splitQuoted done (c :: rest) = Piece.splitQuoted (c :: done) rest := by
  rw [Piece.splitQuoted]
  · exact hquote
  · exact fun h _ => hslash h
  · exact fun _ _ h _ => hslash h

theorem splitQuoted_escape {c : Char} (hc : c ≠ '\n') (done rest : List Char) :
    Piece.splitQuoted done ('\\' :: c :: rest) = Piece.splitQuoted (c :: '\\' :: done) rest := by
  rw [Piece.splitQuoted, if_neg hc]

/-- A string with escapes is read up to where its characters and escapes end. -/
theorem splitQuoted_textOf {units : List StringUnit} (h : ∀ u ∈ units, u.Legal)
    (done rest : List Char) :
    Piece.splitQuoted done (StringUnit.textOf units ++ rest) =
      Piece.splitQuoted ((StringUnit.textOf units).reverse ++ done) rest := by
  induction units generalizing done with
  | nil => rfl
  | cons u units ih =>
    rw [List.forall_mem_cons] at h
    rw [StringUnit.textOf_cons, List.append_assoc, List.reverse_append, List.append_assoc]
    cases u with
    | plain c =>
      rw [StringUnit.text, List.singleton_append, splitQuoted_plain h.1.1 h.1.2, ih h.2]
      rfl
    | escape c =>
      rw [StringUnit.text, List.cons_append, List.singleton_append, splitQuoted_escape h.1, ih h.2]
      rfl

/-- The language that a word belongs to, if it belongs to one. -/
def ofWord : List Char → Lexeme
  | '<' :: '!' :: _ => .commentOpen
  | '<' :: '/' :: _ => .closeOpen
  | '<' :: _ => .tagOpen
  | '/' :: _ => .selfClose
  | '>' :: _ => .tagClose
  | '[' :: _ => .listOpen
  | ']' :: _ => .listClose
  | '=' :: _ => .equals
  | '"' :: rest => if (Piece.splitQuoted [] rest).isSome then .quoted else .openQuoted
  | 'r' :: '"' :: rest => if '"' ∈ rest then .raw else .openRaw
  | _ => .identifier

theorem Word.ofWord_eq {lexeme : Lexeme} {w : List Char} (h : lexeme.Word w) :
    ofWord w = lexeme := by
  cases h with
  | quoted hunits =>
    rw [ofWord, splitQuoted_textOf hunits]
    rfl
  | openQuoted hunits htail =>
    rw [ofWord, splitQuoted_textOf hunits]
    rcases htail with rfl | rfl
    · rfl
    · rfl
  | raw hbody =>
    rw [ofWord, if_pos]
    exact List.mem_append_right _ List.mem_cons_self
  | openRaw hbody =>
    rw [ofWord, if_neg]
    exact fun h => hbody '"' h rfl
  | @identifier c w hchars =>
    unfold ofWord
    split
    case h_10 heq =>
      obtain ⟨-, rfl⟩ := List.cons.inj heq
      exact absurd (hchars '"' (List.mem_cons_of_mem _ List.mem_cons_self)) (by decide)
    case h_11 => rfl
    all_goals
      next heq =>
      obtain ⟨rfl, -⟩ := List.cons.inj heq
      exact absurd (hchars _ List.mem_cons_self) (by decide)
  | _ => rfl

/-- **No word is in two languages.** -/
theorem eq_of_mem_language {lexeme other : Lexeme} {w : List Char} (h : w ∈ lexeme.language)
    (h' : w ∈ other.language) : lexeme = other := by
  rw [← (mem_language_iff.1 h).ofWord_eq, (mem_language_iff.1 h').ofWord_eq]

end Lexeme

end TagLang
