import TagLang.Node.Literal
import TagLang.Program.Text
import TagLang.Proofs.Text.Digits

/-!
# Integers have the value of their numerals

`IntegerNumeral` says what the text of an integer looks like and which number it writes, by the
place of each digit: an optional sign, the mark of a base, and digits of the base in either case.
The reader of literals finds this number and this base for every numeral, of any length
(`IntegerNumeral.integer?_text`), and nothing else is an integer
(`IntegerNumeral.exists_of_integer?`). The text of an integer is such a numeral
(`Literal.classify_intText`). A node is made of exactly the numbers of 64 bits
(`Literal.ofIdentifier?_numeral`).
-/

namespace TagLang

/-! ## Numerals -/

/-- What an integer in a base starts with, behind its sign. -/
def Base.marks : Base → List (List Char)
  | .binary => [['0', 'b'], ['0', 'B']]
  | .octal => [['0', 'o'], ['0', 'O']]
  | .decimal => [[]]
  | .hexadecimal => [['0', 'x'], ['0', 'X']]

/-- A numeral of an integer. -/
structure IntegerNumeral where
  sign : List Char
  base : Base
  mark : List Char
  digits : List Char
  sign_mem : sign ∈ signs
  mark_mem : mark ∈ base.marks
  digits_ne : digits ≠ []
  isDigit : ∀ c ∈ digits, base.IsDigit c

namespace IntegerNumeral

def text (numeral : IntegerNumeral) : List Char :=
  numeral.sign ++ (numeral.mark ++ numeral.digits)

def value (numeral : IntegerNumeral) : Int :=
  withSign numeral.sign (numeral.base.placeValue numeral.digits)

end IntegerNumeral

/-! ## Numerals are read -/

/-- A base is announced by a letter behind the first digit. -/
theorem Base.split_eq_decimal {c : Char} {rest : List Char}
    (h : ∀ d ∈ rest.head?, d ∉ ['b', 'B', 'o', 'O', 'x', 'X']) :
    Base.split (c :: rest) = (.decimal, c :: rest) := by
  unfold Base.split
  split
  case h_7 => rfl
  all_goals
    next digits heq =>
    obtain ⟨-, rfl⟩ := List.cons.inj heq
    exact absurd (by decide) (h _ rfl)

theorem Text.not_mem_marks_of_isDigit {c : Char} (h : c.isDigit = true) :
    c ∉ ['b', 'B', 'o', 'O', 'x', 'X'] := by
  intro hmem
  have hmarks : ∀ d ∈ ['b', 'B', 'o', 'O', 'x', 'X'], (!d.isDigit) = true :=
    List.all_eq_true.1 rfl
  have hc := hmarks c hmem
  rw [h] at hc
  cases hc

/-- The mark of a base is split off, and nothing from a numeral without one. -/
theorem Base.split_append {base : Base} {mark digits : List Char} (hmark : mark ∈ base.marks)
    (hdigits : ∀ c ∈ digits, base.IsDigit c) : Base.split (mark ++ digits) = (base, digits) := by
  cases base with
  | decimal =>
    obtain rfl := List.mem_singleton.1 hmark
    cases digits with
    | nil => rfl
    | cons c digits =>
      refine Base.split_eq_decimal fun d hd => Text.not_mem_marks_of_isDigit ?_
      have hmem := List.mem_cons_of_mem c (List.mem_of_mem_head? hd)
      exact Base.isDigit_decimal_iff.1 (hdigits d hmem)
  | binary | octal | hexadecimal =>
    simp only [marks, List.mem_cons, List.not_mem_nil, or_false] at hmark
    rcases hmark with rfl | rfl
    · rfl
    · rfl

theorem Base.exists_mark (text : List Char) :
    ∃ mark ∈ (Base.split text).1.marks, text = mark ++ (Base.split text).2 := by
  unfold Base.split
  split
  case h_7 => exact ⟨[], by simp [marks], rfl⟩
  all_goals exact ⟨[_, _], by simp [marks], rfl⟩

namespace IntegerNumeral

/-- Behind its sign, a numeral starts with a digit. -/
theorem head?_mark_append (numeral : IntegerNumeral) :
    ∀ c ∈ (numeral.mark ++ numeral.digits).head?, c ≠ '+' ∧ c ≠ '-' := by
  have hzero : ∀ base : Base, ∀ mark ∈ base.marks, ∀ d ∈ mark.head?, d = '0' := by
    intro base
    cases base <;> simp [Base.marks]
  intro c hc
  cases hmark : numeral.mark with
  | nil =>
    rw [hmark, List.nil_append] at hc
    exact (numeral.isDigit c (List.mem_of_mem_head? hc)).ne_sign
  | cons d mark =>
    obtain rfl : d = '0' := hzero numeral.base numeral.mark numeral.mark_mem d (by rw [hmark]; rfl)
    rw [hmark] at hc
    obtain rfl : '0' = c := Option.some.inj hc
    decide

/-- **A numeral is read as the number that it writes**, whatever its length. -/
theorem integer?_text (numeral : IntegerNumeral) :
    Literal.integer? numeral.text = some (.integer numeral.value numeral.base) := by
  have hdigits := Text.digitsValue?_eq_some_iff.2 ⟨numeral.digits_ne, numeral.isDigit, rfl⟩
  rw [Literal.integer?, text, Text.splitSign_append numeral.sign_mem numeral.head?_mark_append]
  dsimp only
  rw [Base.split_append numeral.mark_mem numeral.isDigit]
  dsimp only
  rw [hdigits, Option.map_some, Text.signed_eq_withSign, value]

/-- **Nothing else is read as an integer.** -/
theorem exists_of_integer? {text : List Char} {literal : Literal}
    (h : Literal.integer? text = some literal) :
    ∃ numeral : IntegerNumeral, numeral.text = text := by
  obtain ⟨sign, hsign, htext, -⟩ := Text.exists_sign text
  rw [Literal.integer?] at h
  rcases hsplit : Text.splitSign text with ⟨negative, unsigned⟩
  rw [hsplit] at h htext
  obtain ⟨mark, hmark, hunsigned⟩ := Base.exists_mark unsigned
  rcases hbase : Base.split unsigned with ⟨base, digits⟩
  dsimp only at h htext
  rw [hbase] at h hmark hunsigned
  obtain ⟨n, hn, -⟩ := Option.map_eq_some_iff.1 h
  obtain ⟨hne, hdigits, -⟩ := Text.digitsValue?_eq_some_iff.1 hn
  refine ⟨⟨sign, base, mark, digits, hsign, hmark, hne, hdigits⟩, ?_⟩
  rw [IntegerNumeral.text, htext, hunsigned]

/-- The text of an integer is a numeral of it. -/
theorem exists_of_intText (n : Int) :
    ∃ numeral : IntegerNumeral, numeral.text = (Text.intText n).toList ∧ numeral.value = n ∧
      numeral.base = .decimal := by
  refine ⟨⟨signText (decide (n < 0)), .decimal, [], Nat.toDigits 10 n.natAbs, signText_mem _,
    List.mem_singleton_self _, Nat.toDigits_ne_nil, Base.isDigit_of_mem_toDigits⟩, ?_, ?_, rfl⟩
  · exact (Text.toList_intText n).symm
  · unfold value
    dsimp only
    rw [Base.placeValue_toDigits, withSign_natAbs]

end IntegerNumeral

/-! ## Nodes of integers -/

theorem Text.int64?_eq (n : Int) : Text.int64? n =
    if -2 ^ 63 ≤ n ∧ n ≤ 2 ^ 63 - 1 then some (Int64.ofInt n) else none := rfl

theorem Text.int64?_toInt (n : Int64) : Text.int64? n.toInt = some n := by
  have hhigh : n.toInt ≤ 2 ^ 63 - 1 := n.toInt_le
  rw [Text.int64?_eq, if_pos ⟨n.le_toInt, hhigh⟩, Int64.ofInt_toInt]

namespace Literal

theorem classify_of_integer? {text : String} {literal : Literal}
    (h : integer? text.toList = some literal) : classify text = literal := by
  rw [classify, h]
  rfl

/-- **A written integer is a literal** of the same value. -/
theorem classify_intText (n : Int) : classify (Text.intText n) = .integer n .decimal := by
  obtain ⟨numeral, htext, hvalue, hbase⟩ := IntegerNumeral.exists_of_intText n
  refine classify_of_integer? ?_
  rw [← htext, numeral.integer?_text, hvalue, hbase]

/-- **Integers are exact.** A numeral becomes a node with its value and base if the value fits into
64 bits, and no node otherwise; and the text of an integer in a program becomes a node with the same
value. -/
theorem ofIdentifier?_numeral :
    (∀ numeral : IntegerNumeral,
      (-2 ^ 63 ≤ numeral.value ∧ numeral.value ≤ 2 ^ 63 - 1 →
        ∃ n : Int64, n.toInt = numeral.value ∧
          Node.ofIdentifier? (String.ofList numeral.text) = some (.integer n numeral.base)) ∧
      (¬ (-2 ^ 63 ≤ numeral.value ∧ numeral.value ≤ 2 ^ 63 - 1) →
        Node.ofIdentifier? (String.ofList numeral.text) = none)) ∧
    ∀ n : Int64, Node.ofIdentifier? (Expr.int n).text = some (.integer n .decimal) := by
  refine ⟨fun numeral => ?_, fun n => ?_⟩
  · have hclassify : classify (String.ofList numeral.text) =
        .integer numeral.value numeral.base :=
      classify_of_integer? (by rw [String.toList_ofList, numeral.integer?_text])
    rw [Node.ofIdentifier?, hclassify, node?, Text.int64?_eq]
    constructor
    · intro hrange
      refine ⟨Int64.ofInt numeral.value, ?_, by rw [if_pos hrange, Option.map_some]⟩
      exact Int64.toInt_ofInt_of_le hrange.1 (by omega)
    · intro hrange
      rw [if_neg hrange, Option.map_none]
  · rw [Node.ofIdentifier?, Expr.text, classify_intText, node?, Text.int64?_toInt, Option.map_some]

-- the least number of 64 bits, and the one whose value is its negation
example : Node.ofIdentifier? "-0X8000000000000000" =
      some (.integer Int64.minValue .hexadecimal) ∧
    Node.ofIdentifier? "+0x8000000000000000" = none := ⟨rfl, rfl⟩

end Literal

end TagLang
