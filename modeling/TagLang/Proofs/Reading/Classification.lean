import TagLang.Proofs.Reading.Decimals
import TagLang.Proofs.Reading.Numbers
import TagLang.Proofs.Token.Language

/-!
# What identifiers stand for

The numerals of integers, decimals and complex numbers are regular languages (`integerNumerals`,
`decimalNumerals`, `complexNumerals`). Their words are the texts of `IntegerNumeral` and
`DecimalNumeral`, so that each of them has a value.

An identifier is an integer, a float, a complex number or a keyword exactly if it is in the language
of these, the earlier ones going before the later ones, and otherwise it is a symbol
(`Literal.ofIdentifier?_grammar`). No conversion of a numeral fails. A sum of two numerals can be
taken apart in only one way, and that is at the last sign that does not belong to an exponent.
-/

namespace TagLang

open scoped Computability

/-! ## Languages -/

/-- An optional sign: `[+-]?` -/
def optionalSign : Language Char := 1 + characterOf fun c => c = '+' ∨ c = '-'

/-- One or more digits of a base, such as `[0-9]+` -/
def Base.digitRun (base : Base) : Language Char :=
  characterOf base.IsDigit * (characterOf base.IsDigit)∗

/-- `[+-]?(0[bB][01]+|0[oO][0-7]+|0[xX][0-9a-fA-F]+|[0-9]+)` -/
def integerNumerals : Language Char :=
  optionalSign *
    ({['0']} * (characterOf fun c => c = 'b' ∨ c = 'B') * Base.binary.digitRun +
      {['0']} * (characterOf fun c => c = 'o' ∨ c = 'O') * Base.octal.digitRun +
      {['0']} * (characterOf fun c => c = 'x' ∨ c = 'X') * Base.hexadecimal.digitRun +
      Base.decimal.digitRun)

/-- `([eE][+-]?[0-9]+)?` -/
def exponentParts : Language Char :=
  1 + (characterOf fun c => c = 'e' ∨ c = 'E') * (optionalSign * Base.decimal.digitRun)

/-- `[0-9]+(\.[0-9]*)?|\.[0-9]+` -/
def mantissas : Language Char :=
  Base.decimal.digitRun * (1 + {['.']} * (characterOf Base.decimal.IsDigit)∗) +
    {['.']} * Base.decimal.digitRun

/-- `[+-]?([0-9]+(\.[0-9]*)?|\.[0-9]+)([eE][+-]?[0-9]+)?` -/
def decimalNumerals : Language Char := optionalSign * (mantissas * exponentParts)

/-- The decimal numerals that have a sign. -/
def signedDecimals : Language Char :=
  (characterOf fun c => c = '+' ∨ c = '-') * (mantissas * exponentParts)

/-- A decimal numeral, or one and another one with a sign, and the imaginary unit. -/
def complexNumerals : Language Char :=
  (decimalNumerals + decimalNumerals * signedDecimals) * characterOf fun c => c = 'j' ∨ c = 'J'

/-! ## Words of the languages -/

theorem mem_optionalSign {w : List Char} : w ∈ optionalSign ↔ w ∈ signs := by
  rw [optionalSign, Language.mem_add, Language.mem_one]
  simp only [signs, List.mem_cons, List.not_mem_nil, or_false]
  refine or_congr_right ⟨?_, ?_⟩
  · rintro ⟨c, rfl | rfl, rfl⟩
    · exact .inl rfl
    · exact .inr rfl
  · rintro (rfl | rfl)
    · exact ⟨'+', .inl rfl, rfl⟩
    · exact ⟨'-', .inr rfl, rfl⟩

theorem Base.mem_digitRun {base : Base} {w : List Char} :
    w ∈ base.digitRun ↔ w ≠ [] ∧ ∀ c ∈ w, base.IsDigit c := by
  rw [Base.digitRun, Language.mem_mul]
  constructor
  · rintro ⟨_, ⟨c, hc, rfl⟩, rest, hrest, rfl⟩
    exact ⟨List.cons_ne_nil _ _, List.forall_mem_cons.2 ⟨hc, mem_kstar_characterOf.1 hrest⟩⟩
  · rintro ⟨hne, h⟩
    obtain ⟨c, rest, rfl⟩ := List.exists_cons_of_ne_nil hne
    rw [List.forall_mem_cons] at h
    exact ⟨[c], ⟨c, h.1, rfl⟩, rest, mem_kstar_characterOf.2 h.2, rfl⟩

/-- Digits behind a zero and one of two letters. -/
theorem Base.mem_marked {base : Base} {a b : Char} {w : List Char} :
    w ∈ {['0']} * (characterOf fun c => c = a ∨ c = b) * base.digitRun ↔
      ∃ mark ∈ [['0', a], ['0', b]], ∃ digits, (digits ≠ [] ∧ ∀ c ∈ digits, base.IsDigit c) ∧
        w = mark ++ digits := by
  rw [mul_assoc, mem_singleton_mul]
  simp only [Language.mem_mul, Base.mem_digitRun]
  constructor
  · rintro ⟨_, ⟨_, ⟨c, hc, rfl⟩, digits, hdigits, rfl⟩, rfl⟩
    refine ⟨['0', c], ?_, digits, hdigits, rfl⟩
    rcases hc with rfl | rfl
    · exact List.mem_cons_self
    · exact List.mem_cons_of_mem _ List.mem_cons_self
  · rintro ⟨mark, hmark, digits, hdigits, rfl⟩
    simp only [List.mem_cons, List.not_mem_nil, or_false] at hmark
    rcases hmark with rfl | rfl
    · exact ⟨_, ⟨[a], ⟨a, .inl rfl, rfl⟩, digits, hdigits, rfl⟩, rfl⟩
    · exact ⟨_, ⟨[b], ⟨b, .inr rfl, rfl⟩, digits, hdigits, rfl⟩, rfl⟩

/-- **The words of the language of integers** are the texts of their numerals. -/
theorem mem_integerNumerals {w : List Char} :
    w ∈ integerNumerals ↔ ∃ numeral : IntegerNumeral, numeral.text = w := by
  rw [integerNumerals, Language.mem_mul]
  simp only [Language.mem_add, Base.mem_marked, Base.mem_digitRun, mem_optionalSign]
  constructor
  · rintro ⟨sign, hsign, _, ((⟨mark, hmark, digits, hdigits, rfl⟩ |
      ⟨mark, hmark, digits, hdigits, rfl⟩) | ⟨mark, hmark, digits, hdigits, rfl⟩) | hdigits, rfl⟩
    · exact ⟨⟨sign, .binary, mark, digits, hsign, hmark, hdigits.1, hdigits.2⟩, rfl⟩
    · exact ⟨⟨sign, .octal, mark, digits, hsign, hmark, hdigits.1, hdigits.2⟩, rfl⟩
    · exact ⟨⟨sign, .hexadecimal, mark, digits, hsign, hmark, hdigits.1, hdigits.2⟩, rfl⟩
    · exact ⟨⟨sign, .decimal, [], _, hsign, List.mem_singleton.2 rfl, hdigits.1, hdigits.2⟩, rfl⟩
  · rintro ⟨⟨sign, base, mark, digits, hsign, hmark, hne, hdigits⟩, rfl⟩
    refine ⟨sign, hsign, _, ?_, rfl⟩
    cases base with
    | binary => exact .inl (.inl (.inl ⟨mark, hmark, digits, ⟨hne, hdigits⟩, rfl⟩))
    | octal => exact .inl (.inl (.inr ⟨mark, hmark, digits, ⟨hne, hdigits⟩, rfl⟩))
    | hexadecimal => exact .inl (.inr ⟨mark, hmark, digits, ⟨hne, hdigits⟩, rfl⟩)
    | decimal =>
      obtain rfl := List.mem_singleton.1 hmark
      exact .inr ⟨hne, hdigits⟩

theorem mem_exponentParts {w : List Char} :
    w ∈ exponentParts ↔ ∃ exponent : Option ExponentPart,
      w = (exponent.map ExponentPart.text).getD [] := by
  rw [exponentParts, Language.mem_add, Language.mem_one]
  simp only [Language.mem_mul, Base.mem_digitRun, mem_optionalSign]
  constructor
  · rintro (rfl | ⟨_, ⟨c, hc, rfl⟩, _, ⟨sign, hsign, digits, hdigits, rfl⟩, rfl⟩)
    · exact ⟨none, rfl⟩
    · exact ⟨some ⟨c, sign, digits, hc, hsign, hdigits.1, hdigits.2⟩, rfl⟩
  · rintro ⟨exponent, rfl⟩
    cases exponent with
    | none => exact .inl rfl
    | some e =>
      refine .inr ⟨[e.letter], ⟨_, e.letter_eq, rfl⟩, _, ?_, rfl⟩
      exact ⟨e.sign, e.sign_mem, e.digits, ⟨e.digits_ne, e.isDigit⟩, rfl⟩

theorem mem_mantissas {w : List Char} :
    w ∈ mantissas ↔ ∃ (whole : List Char) (fraction : Option (List Char)),
      (∀ c ∈ whole, Base.decimal.IsDigit c) ∧ (∀ c ∈ fraction.getD [], Base.decimal.IsDigit c) ∧
        (whole ≠ [] ∨ fraction.getD [] ≠ []) ∧ w = whole ++ (fraction.map ('.' :: ·)).getD [] := by
  rw [mantissas, Language.mem_add, Language.mem_mul, mem_singleton_mul]
  simp only [Language.mem_add, Language.mem_one, mem_singleton_mul, Base.mem_digitRun,
    mem_kstar_characterOf]
  constructor
  · rintro (⟨whole, hwhole, _, rfl | ⟨fraction, hfraction, rfl⟩, rfl⟩ | ⟨fraction, hfraction, rfl⟩)
    · exact ⟨whole, none, hwhole.2, List.forall_mem_nil _, .inl hwhole.1, rfl⟩
    · exact ⟨whole, some fraction, hwhole.2, hfraction, .inl hwhole.1, rfl⟩
    · exact ⟨[], some fraction, List.forall_mem_nil _, hfraction.2, .inr hfraction.1, rfl⟩
  · rintro ⟨whole, fraction, hwhole, hfraction, hne, rfl⟩
    by_cases hempty : whole = []
    · have hbehind := hne.resolve_left (not_not_intro hempty)
      cases fraction with
      | none => exact absurd rfl hbehind
      | some fraction =>
        rw [hempty]
        exact .inr ⟨fraction, ⟨hbehind, hfraction⟩, rfl⟩
    · refine .inl ⟨whole, ⟨hempty, hwhole⟩, _, ?_, rfl⟩
      cases fraction with
      | none => exact .inl rfl
      | some fraction => exact .inr ⟨fraction, hfraction, rfl⟩

/-- Decimal numerals with one of the given signs. -/
theorem mem_mul_mantissas {L : Language Char} {w : List Char} (hL : ∀ sign ∈ L, sign ∈ signs) :
    w ∈ L * (mantissas * exponentParts) ↔
      ∃ numeral : DecimalNumeral, numeral.sign ∈ L ∧ numeral.text = w := by
  simp only [Language.mem_mul, mem_mantissas, mem_exponentParts]
  constructor
  · rintro ⟨sign, hsign, _, ⟨_, ⟨whole, fraction, hwhole, hfraction, hne, rfl⟩, _, ⟨exponent, rfl⟩,
      rfl⟩, rfl⟩
    refine ⟨⟨sign, whole, fraction, exponent, hL sign hsign, hwhole, hfraction, hne⟩, hsign, ?_⟩
    rw [List.append_assoc]
    rfl
  · rintro ⟨numeral, hsign, rfl⟩
    refine ⟨numeral.sign, hsign, _, ⟨_, ⟨numeral.whole, numeral.fraction, numeral.isDigit_whole,
      numeral.isDigit_fraction, numeral.digits_ne, rfl⟩, _, ⟨numeral.exponent, rfl⟩, rfl⟩, ?_⟩
    rw [List.append_assoc]
    rfl

/-- **The words of the language of decimals** are the texts of their numerals. -/
theorem mem_decimalNumerals {w : List Char} :
    w ∈ decimalNumerals ↔ ∃ numeral : DecimalNumeral, numeral.text = w := by
  rw [decimalNumerals, mem_mul_mantissas fun sign => mem_optionalSign.1]
  constructor
  · rintro ⟨numeral, -, htext⟩
    exact ⟨numeral, htext⟩
  · rintro ⟨numeral, htext⟩
    exact ⟨numeral, mem_optionalSign.2 numeral.sign_mem, htext⟩

theorem mem_signedDecimals {w : List Char} :
    w ∈ signedDecimals ↔ ∃ numeral : DecimalNumeral, numeral.sign ≠ [] ∧ numeral.text = w := by
  have hsigns : ∀ sign ∈ characterOf (fun c => c = '+' ∨ c = '-'), sign ∈ signs :=
    fun sign hsign => mem_optionalSign.1 (.inr hsign)
  rw [signedDecimals, mem_mul_mantissas hsigns]
  constructor
  · rintro ⟨numeral, ⟨c, -, hsign⟩, htext⟩
    refine ⟨numeral, ?_, htext⟩
    rw [hsign]
    exact List.cons_ne_nil _ _
  · rintro ⟨numeral, hne, htext⟩
    exact ⟨numeral, (mem_optionalSign.2 numeral.sign_mem).resolve_left hne, htext⟩

theorem mem_complexNumerals {w : List Char} :
    w ∈ complexNumerals ↔ ∃ unit, (unit = 'j' ∨ unit = 'J') ∧
      ((∃ im : DecimalNumeral, w = im.text ++ [unit]) ∨
        ∃ re im : DecimalNumeral, im.sign ≠ [] ∧ w = re.text ++ im.text ++ [unit]) := by
  rw [complexNumerals, Language.mem_mul]
  simp only [Language.mem_add, Language.mem_mul, mem_decimalNumerals, mem_signedDecimals]
  constructor
  · rintro ⟨_, ⟨im, rfl⟩ | ⟨_, ⟨re, rfl⟩, _, ⟨im, hsign, rfl⟩, rfl⟩, _, ⟨unit, hunit, rfl⟩, rfl⟩
    · exact ⟨unit, hunit, .inl ⟨im, rfl⟩⟩
    · exact ⟨unit, hunit, .inr ⟨re, im, hsign, rfl⟩⟩
  · rintro ⟨unit, hunit, ⟨im, rfl⟩ | ⟨re, im, hsign, rfl⟩⟩
    · exact ⟨_, .inl ⟨im, rfl⟩, [unit], ⟨unit, hunit, rfl⟩, rfl⟩
    · exact ⟨_, .inr ⟨_, ⟨re, rfl⟩, _, ⟨im, hsign, rfl⟩, rfl⟩, [unit], ⟨unit, hunit, rfl⟩, rfl⟩

/-- A numeral that starts with a sign has one. -/
theorem DecimalNumeral.sign_ne_of_text {numeral : DecimalNumeral}
    (h : ∃ c rest, numeral.text = c :: rest ∧ (c = '+' ∨ c = '-')) : numeral.sign ≠ [] := by
  obtain ⟨c, rest, htext, hc⟩ := h
  intro hsign
  rw [text, hsign, List.nil_append] at htext
  rcases numeral.head?_unsigned c (by rw [htext]; rfl) with hdigit | rfl
  · exact hc.elim hdigit.ne_sign.1 hdigit.ne_sign.2
  · exact absurd hc (by decide)

/-! ## The readers of literals -/

namespace Literal

variable {text : List Char} {literal : Literal}

theorem mem_of_integer? (h : integer? text = some literal) :
    text ∈ integerNumerals ∧ ∃ n base, literal = .integer n base := by
  obtain ⟨numeral, rfl⟩ := IntegerNumeral.exists_of_integer? h
  rw [numeral.integer?_text] at h
  exact ⟨mem_integerNumerals.2 ⟨numeral, rfl⟩, _, _, (Option.some.inj h).symm⟩

theorem integer?_eq_none_iff : integer? text = none ↔ text ∉ integerNumerals := by
  rw [Option.eq_none_iff_forall_ne_some, mem_integerNumerals]
  constructor
  · rintro h ⟨numeral, rfl⟩
    exact h _ numeral.integer?_text
  · intro h literal hsome
    exact h (IntegerNumeral.exists_of_integer? hsome)

theorem exists_of_decimal? {x : Binary64} (h : decimal? text = some x) :
    ∃ numeral : DecimalNumeral, numeral.text = text := by
  obtain ⟨d, hd, -⟩ := Option.map_eq_some_iff.1 h
  exact DecimalNumeral.exists_of_ofText? hd

theorem decimal?_eq_none_iff : decimal? text = none ↔ text ∉ decimalNumerals := by
  rw [Option.eq_none_iff_forall_ne_some, mem_decimalNumerals]
  constructor
  · rintro h ⟨numeral, rfl⟩
    exact h _ (decimal?_text numeral)
  · intro h x hsome
    exact h (exists_of_decimal? hsome)

/-! Complex numbers -/

section

variable {unit : Char} (hunit : unit = 'j' ∨ unit = 'J')

include hunit

theorem complex?_imaginary (im : DecimalNumeral) :
    complex? (im.text ++ [unit]) = some (.complex .zero im.value.toBinary64) := by
  rw [complex?, List.reverse_concat]
  dsimp only
  rw [if_pos hunit, List.reverse_reverse, decimal?_text]

theorem complex?_sum (re im : DecimalNumeral) (hsign : im.sign ≠ []) :
    complex? (re.text ++ im.text ++ [unit]) =
      some (.complex re.value.toBinary64 im.value.toBinary64) := by
  have hnone : decimal? (re.text ++ im.text) = none := by
    rw [decimal?_eq_none_iff, mem_decimalNumerals]
    rintro ⟨numeral, htext⟩
    exact DecimalNumeral.append_ne_text re im numeral hsign htext.symm
  rw [complex?, List.reverse_concat]
  dsimp only
  rw [if_pos hunit, List.reverse_reverse, hnone]
  dsimp only
  rw [DecimalNumeral.splitSum_append re im hsign]
  show (decimal? re.text).bind (fun x => (decimal? im.text).bind fun y => some (complex x y)) = _
  rw [decimal?_text, decimal?_text]
  rfl

end

/-- What is split off as the second part of a sum starts with a sign. -/
theorem exists_sign_of_splitSum {passed reversed re im : List Char}
    (h : splitSum passed reversed = some (re, im)) :
    ∃ c rest, im = c :: rest ∧ (c = '+' ∨ c = '-') := by
  fun_induction splitSum passed reversed with
  | case1 passed c d rest hsign =>
    obtain ⟨-, rfl⟩ := Prod.mk.inj (Option.some.inj h)
    exact ⟨c, passed, rfl, hsign.1⟩
  | case2 passed c d rest hsign ih => exact ih h
  | case3 => cases h

/-- **Nothing else is read as a complex number.** -/
theorem mem_of_complex? (h : complex? text = some literal) :
    text ∈ complexNumerals ∧ ∃ re im, literal = .complex re im := by
  unfold complex? at h
  split at h
  · cases h
  · next unit reversed hreverse =>
    obtain rfl : text = reversed.reverse ++ [unit] := by
      rw [← List.reverse_reverse text, hreverse, List.reverse_cons]
    split at h
    · next hunit =>
      rw [mem_complexNumerals]
      split at h
      · next x hx =>
        obtain ⟨im, him⟩ := exists_of_decimal? hx
        exact ⟨⟨unit, hunit, .inl ⟨im, by rw [him]⟩⟩, _, _, (Option.some.inj h).symm⟩
      · obtain ⟨⟨first, second⟩, hsplit, hparts⟩ := Option.bind_eq_some_iff.1 h
        obtain ⟨x, hx, hpart⟩ := Option.bind_eq_some_iff.1 hparts
        obtain ⟨y, hy, hvalue⟩ := Option.bind_eq_some_iff.1 hpart
        obtain ⟨re, rfl⟩ := exists_of_decimal? hx
        obtain ⟨im, rfl⟩ := exists_of_decimal? hy
        have happend := append_of_splitSum hsplit
        rw [List.append_nil] at happend
        have hsign := DecimalNumeral.sign_ne_of_text (exists_sign_of_splitSum hsplit)
        exact ⟨⟨unit, hunit, .inr ⟨re, im, hsign, by rw [happend]⟩⟩, _, _,
          (Option.some.inj hvalue).symm⟩
    · cases h

theorem complex?_eq_none_iff : complex? text = none ↔ text ∉ complexNumerals := by
  rw [Option.eq_none_iff_forall_ne_some]
  constructor
  · intro h hmem
    obtain ⟨unit, hunit, ⟨im, rfl⟩ | ⟨re, im, hsign, rfl⟩⟩ := mem_complexNumerals.1 hmem
    · exact h _ (complex?_imaginary hunit im)
    · exact h _ (complex?_sum hunit re im hsign)
  · intro h literal hsome
    exact h (mem_of_complex? hsome).1

/-! Keywords -/

theorem keyword?_eq_some_iff : keyword? text = some literal ↔
    ∃ name : String, name ≠ "" ∧ text = ':' :: name.toList ∧ literal = .keyword name := by
  constructor
  · intro h
    unfold keyword? at h
    split at h
    · next c name =>
      refine ⟨String.ofList (c :: name), ?_, ?_, (Option.some.inj h).symm⟩
      · rw [Ne, ← String.toList_inj, String.toList_ofList]
        exact List.cons_ne_nil _ _
      · rw [String.toList_ofList]
    · cases h
  · rintro ⟨name, hne, rfl, rfl⟩
    cases hname : name.toList with
    | nil => exact absurd (String.toList_inj.1 hname) hne
    | cons c rest =>
      show some (keyword (String.ofList (c :: rest))) = _
      rw [← hname, String.ofList_toList]

/-! ## Classification -/

/-- The shape of a text tells what kind of literal it is. The kinds go in order: each of them
excludes the ones before it. -/
inductive OfShape (t : String) : Literal → Prop where
  | integer {n : Int} {base : Base} (hmem : t.toList ∈ integerNumerals) :
    OfShape t (.integer n base)
  | float {x : Binary64} (hinteger : t.toList ∉ integerNumerals)
    (hmem : t.toList ∈ decimalNumerals) : OfShape t (.float x)
  | complex {re im : Binary64} (hinteger : t.toList ∉ integerNumerals)
    (hdecimal : t.toList ∉ decimalNumerals) (hmem : t.toList ∈ complexNumerals) :
    OfShape t (.complex re im)
  | keyword {name : String} (hinteger : t.toList ∉ integerNumerals)
    (hdecimal : t.toList ∉ decimalNumerals) (hcomplex : t.toList ∉ complexNumerals)
    (hname : name ≠ "" ∧ t = ":" ++ name) : OfShape t (.keyword name)
  | symbol (hinteger : t.toList ∉ integerNumerals) (hdecimal : t.toList ∉ decimalNumerals)
    (hcomplex : t.toList ∉ complexNumerals) (hname : ¬ ∃ name, name ≠ "" ∧ t = ":" ++ name) :
    OfShape t (.symbol t)

theorem toList_eq_colon_cons_iff {t name : String} :
    t.toList = ':' :: name.toList ↔ t = ":" ++ name := by
  rw [← String.toList_inj, String.toList_append]
  rfl

/-- **A text is classified by its shape.** -/
theorem ofShape_classify (t : String) : OfShape t (classify t) := by
  unfold classify
  dsimp only
  cases hi : integer? t.toList with
  | some literal =>
    obtain ⟨hmem, n, base, rfl⟩ := mem_of_integer? hi
    exact .integer hmem
  | none =>
    have hinteger := integer?_eq_none_iff.1 hi
    cases hd : decimal? t.toList with
    | some x =>
      exact .float hinteger (mem_decimalNumerals.2 (exists_of_decimal? hd))
    | none =>
      have hdecimal := decimal?_eq_none_iff.1 hd
      cases hc : complex? t.toList with
      | some literal =>
        obtain ⟨hmem, re, im, rfl⟩ := mem_of_complex? hc
        exact .complex hinteger hdecimal hmem
      | none =>
        have hcomplex := complex?_eq_none_iff.1 hc
        cases hk : keyword? t.toList with
        | some literal =>
          obtain ⟨name, hne, htext, rfl⟩ := keyword?_eq_some_iff.1 hk
          exact .keyword hinteger hdecimal hcomplex ⟨hne, toList_eq_colon_cons_iff.1 htext⟩
        | none =>
          refine .symbol hinteger hdecimal hcomplex ?_
          rintro ⟨name, hne, htext⟩
          have hsome := keyword?_eq_some_iff.2
            ⟨name, hne, toList_eq_colon_cons_iff.2 htext, rfl⟩
          rw [hk] at hsome
          cases hsome

namespace OfShape

variable {t : String} (h : OfShape t literal)

include h

theorem integer_iff :
    (literal.node? = none ∨ ∃ n base, literal.node? = some (.integer n base)) ↔
      t.toList ∈ integerNumerals := by
  cases h with
  | @integer n base hmem =>
    refine iff_of_true ?_ hmem
    rw [node?]
    cases Text.int64? n with
    | none => exact .inl rfl
    | some value => exact .inr ⟨value, base, rfl⟩
  | float hinteger | complex hinteger | keyword hinteger | symbol hinteger =>
    refine iff_of_false ?_ hinteger
    rintro (hnode | ⟨n, base, hnode⟩) <;> cases hnode

theorem float_iff (hinteger : t.toList ∉ integerNumerals) :
    (∃ x, literal.node? = some (.float x)) ↔ t.toList ∈ decimalNumerals := by
  cases h with
  | integer hmem => exact absurd hmem hinteger
  | float _ hmem => exact iff_of_true ⟨_, rfl⟩ hmem
  | complex _ hdecimal | keyword _ hdecimal | symbol _ hdecimal =>
    refine iff_of_false ?_ hdecimal
    rintro ⟨x, hnode⟩
    cases hnode

theorem complex_iff (hinteger : t.toList ∉ integerNumerals)
    (hdecimal : t.toList ∉ decimalNumerals) :
    (∃ re im, literal.node? = some (.complex re im)) ↔ t.toList ∈ complexNumerals := by
  cases h with
  | integer hmem => exact absurd hmem hinteger
  | float _ hmem => exact absurd hmem hdecimal
  | complex _ _ hmem => exact iff_of_true ⟨_, _, rfl⟩ hmem
  | keyword _ _ hcomplex | symbol _ _ hcomplex =>
    refine iff_of_false ?_ hcomplex
    rintro ⟨re, im, hnode⟩
    cases hnode

theorem keyword_or_symbol (hinteger : t.toList ∉ integerNumerals)
    (hdecimal : t.toList ∉ decimalNumerals) (hcomplex : t.toList ∉ complexNumerals) :
    (∀ name, literal.node? = some (.keyword name) ↔ name ≠ "" ∧ t = ":" ++ name) ∧
      ((¬ ∃ name, name ≠ "" ∧ t = ":" ++ name) → literal.node? = some (.symbol t)) := by
  cases h with
  | integer hmem => exact absurd hmem hinteger
  | float _ hmem => exact absurd hmem hdecimal
  | complex _ _ hmem => exact absurd hmem hcomplex
  | @keyword name _ _ _ hname =>
    refine ⟨fun other => ?_, fun hnone => absurd ⟨name, hname⟩ hnone⟩
    constructor
    · intro hnode
      cases hnode
      exact hname
    · rintro ⟨-, htext⟩
      have hcons := (toList_eq_colon_cons_iff.2 hname.2).symm.trans
        (toList_eq_colon_cons_iff.2 htext)
      obtain rfl := String.toList_inj.1 (List.tail_eq_of_cons_eq hcons)
      rfl
  | symbol _ _ _ hnone =>
    refine ⟨fun name => iff_of_false ?_ fun hname => hnone ⟨name, hname⟩, fun _ => rfl⟩
    intro hnode
    cases hnode

end OfShape

/-- The imaginary unit is no digit, so that a complex number is neither an integer nor a float. -/
theorem not_mem_of_unit {w : List Char} {unit : Char} (hunit : unit = 'j' ∨ unit = 'J') :
    w ++ [unit] ∉ integerNumerals ∧ w ++ [unit] ∉ decimalNumerals := by
  have hdigit : ∀ base : Base, ¬ base.IsDigit unit := by
    intro base h
    have hcode : unit.toNat = 106 ∨ unit.toNat = 74 :=
      hunit.imp (fun h => congrArg Char.toNat h) (fun h => congrArg Char.toNat h)
    rcases Base.isDigit_iff.1 h with h | h <;> omega
  have hlast : ∀ {front : List Char} {d : Char}, front ++ [d] = w ++ [unit] → d = unit :=
    fun h => (List.append_singleton_inj.1 h).2
  rw [mem_integerNumerals, mem_decimalNumerals]
  constructor
  · rintro ⟨numeral, htext⟩
    obtain ⟨digits, d, hd⟩ :=
      (List.eq_nil_or_concat numeral.digits).resolve_left numeral.digits_ne
    rw [List.concat_eq_append] at hd
    rw [IntegerNumeral.text, hd, ← List.append_assoc, ← List.append_assoc] at htext
    obtain rfl := hlast htext
    exact hdigit _ (numeral.isDigit d (hd ▸ List.mem_concat_self))
  · rintro ⟨numeral, htext⟩
    obtain ⟨front, d, hfront, hd⟩ := numeral.exists_last
    obtain rfl := hlast (hfront.symm.trans htext)
    rcases hd with hd | rfl
    · exact hdigit _ hd
    · exact absurd hunit (by decide)

theorem classify_eq_float {t : String} {x : Binary64} (hinteger : t.toList ∉ integerNumerals)
    (h : decimal? t.toList = some x) : classify t = .float x := by
  rw [classify, integer?_eq_none_iff.2 hinteger, h]
  rfl

theorem classify_eq_complex {t : String} {w : List Char} {unit : Char}
    (hunit : unit = 'j' ∨ unit = 'J') (htext : t.toList = w ++ [unit])
    (h : complex? (w ++ [unit]) = some literal) : classify t = literal := by
  rw [classify, htext, integer?_eq_none_iff.2 (not_mem_of_unit hunit).1,
    decimal?_eq_none_iff.2 (not_mem_of_unit hunit).2, h]
  rfl

/-- **What an identifier stands for is given by its shape.** It is an integer, possibly one that is
too large, exactly if it is in the language of integers; else a float exactly if it is in the
language of decimals; else a complex number exactly if it is in their language; else a keyword
exactly if it is a colon and a name; else a symbol. The parts of a complex number have the values of
their numerals, and a sum of two numerals has only one pair of parts, which is the one that
`splitSum` finds. -/
theorem ofIdentifier?_grammar (t : String) :
    ((Node.ofIdentifier? t = none ∨ ∃ n base, Node.ofIdentifier? t = some (.integer n base)) ↔
      t.toList ∈ integerNumerals) ∧
    (t.toList ∉ integerNumerals →
      ((∃ x, Node.ofIdentifier? t = some (.float x)) ↔ t.toList ∈ decimalNumerals) ∧
      ∀ u : DecimalNumeral, t.toList = u.text →
        Node.ofIdentifier? t = some (.float u.value.toBinary64)) ∧
    (t.toList ∉ integerNumerals → t.toList ∉ decimalNumerals →
      ((∃ re im, Node.ofIdentifier? t = some (.complex re im)) ↔ t.toList ∈ complexNumerals)) ∧
    (t.toList ∉ integerNumerals → t.toList ∉ decimalNumerals → t.toList ∉ complexNumerals →
      (∀ name, Node.ofIdentifier? t = some (.keyword name) ↔ name ≠ "" ∧ t = ":" ++ name) ∧
      ((¬ ∃ name, name ≠ "" ∧ t = ":" ++ name) → Node.ofIdentifier? t = some (.symbol t))) ∧
    ∀ unit, (unit = 'j' ∨ unit = 'J') →
      (∀ u : DecimalNumeral, t.toList = u.text ++ [unit] →
        Node.ofIdentifier? t = some (.complex .zero u.value.toBinary64)) ∧
      ∀ r m : DecimalNumeral, m.sign ≠ [] → t.toList = r.text ++ m.text ++ [unit] →
        Node.ofIdentifier? t = some (.complex r.value.toBinary64 m.value.toBinary64) ∧
        splitSum [] (r.text ++ m.text).reverse = some (r.text, m.text) ∧
        ∀ r' ∈ decimalNumerals, ∀ m' ∈ signedDecimals, r' ++ m' = r.text ++ m.text →
          r' = r.text ∧ m' = m.text := by
  have hshape := ofShape_classify t
  refine ⟨hshape.integer_iff, fun hinteger => ⟨hshape.float_iff hinteger, fun u htext => ?_⟩,
    hshape.complex_iff, hshape.keyword_or_symbol,
    fun unit hunit => ⟨fun u htext => ?_, fun r m hsign htext => ⟨?_, ?_, ?_⟩⟩⟩
  · rw [Node.ofIdentifier?, classify_eq_float hinteger (htext ▸ decimal?_text u)]
    rfl
  · rw [Node.ofIdentifier?, classify_eq_complex hunit htext (complex?_imaginary hunit u)]
    rfl
  · rw [Node.ofIdentifier?, classify_eq_complex hunit htext (complex?_sum hunit r m hsign)]
    rfl
  · exact DecimalNumeral.splitSum_append r m hsign
  · intro r' hr m' hm happend
    obtain ⟨re, rfl⟩ := mem_decimalNumerals.1 hr
    obtain ⟨im, hsign', rfl⟩ := mem_signedDecimals.1 hm
    have hfound := DecimalNumeral.splitSum_append re im hsign'
    rw [happend, DecimalNumeral.splitSum_append r m hsign] at hfound
    obtain ⟨hre, him⟩ := Prod.mk.inj (Option.some.inj hfound)
    exact ⟨hre.symm, him.symm⟩

-- the sign of an exponent does not split a sum, also when it is the last one
example : splitSum [] "-1e-5+.5e+3".toList.reverse = some ("-1e-5".toList, "+.5e+3".toList) := rfl

end Literal

end TagLang
