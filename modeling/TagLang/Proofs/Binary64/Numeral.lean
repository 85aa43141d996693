import TagLang.Binary64.Decimal
import TagLang.Proofs.Text.Digits
import TagLang.Proofs.Text.Runs

/-!
# Decimal numerals

`DecimalNumeral` says what the text of a float looks like and which number it writes: an optional
sign, digits with an optional point before, between or behind them, and an optional exponent. The
reader of decimals reads exactly these numerals, each as its number (`DecimalNumeral.ofText?_text`,
`DecimalNumeral.exists_of_ofText?`).

A numeral is standard if it looks as numbers do when they are written (`DecimalNumeral.IsStandard`).
-/

namespace TagLang

/-! ## Numerals -/

/-- The exponent of a decimal numeral. -/
structure ExponentPart where
  letter : Char
  sign : List Char
  digits : List Char
  letter_eq : letter = 'e' ∨ letter = 'E'
  sign_mem : sign ∈ signs
  digits_ne : digits ≠ []
  isDigit : ∀ c ∈ digits, Base.decimal.IsDigit c

namespace ExponentPart

def text (e : ExponentPart) : List Char := e.letter :: (e.sign ++ e.digits)

def value (e : ExponentPart) : Int := withSign e.sign (Base.decimal.placeValue e.digits)

end ExponentPart

/-- A decimal numeral. -/
structure DecimalNumeral where
  sign : List Char
  whole : List Char
  /-- The digits behind the point, if there is a point. -/
  fraction : Option (List Char)
  exponent : Option ExponentPart
  sign_mem : sign ∈ signs
  isDigit_whole : ∀ c ∈ whole, Base.decimal.IsDigit c
  isDigit_fraction : ∀ c ∈ fraction.getD [], Base.decimal.IsDigit c
  digits_ne : whole ≠ [] ∨ fraction.getD [] ≠ []

namespace DecimalNumeral

def fractionText (numeral : DecimalNumeral) : List Char :=
  (numeral.fraction.map ('.' :: ·)).getD []

def exponentText (numeral : DecimalNumeral) : List Char :=
  (numeral.exponent.map ExponentPart.text).getD []

/-- The numeral without its sign. -/
def unsigned (numeral : DecimalNumeral) : List Char :=
  numeral.whole ++ (numeral.fractionText ++ numeral.exponentText)

def text (numeral : DecimalNumeral) : List Char :=
  numeral.sign ++ numeral.unsigned

/-- The digits with the point left out, and the exponent less the digits behind the point. -/
def value (numeral : DecimalNumeral) : Decimal where
  negative := decide (numeral.sign = ['-'])
  digits := Base.decimal.placeValue (numeral.whole ++ numeral.fraction.getD [])
  exponent := (numeral.exponent.map ExponentPart.value).getD 0 - (numeral.fraction.getD []).length

/-- The form in which numbers are written: with no plus sign, no zero in front of other digits and
no point without digits on both sides of it. A point or an exponent tells the numeral from one of an
integer. -/
structure IsStandard (numeral : DecimalNumeral) (negative : Bool) : Prop where
  sign_eq : numeral.sign = signText negative
  whole_ne : numeral.whole ≠ []
  leading : numeral.whole = ['0'] ∨ numeral.whole.head? ≠ some '0'
  fraction_ne : numeral.fraction ≠ some []
  marked : numeral.fractionText ++ numeral.exponentText ≠ []

end DecimalNumeral

/-! ## Numerals are read -/

namespace ExponentPart

theorem exponentOf?_text (e : ExponentPart) : Decimal.exponentOf? e.text = some e.value := by
  have hsign : Text.splitSign (e.sign ++ e.digits) = _ :=
    Text.splitSign_append e.sign_mem fun c hc => (e.isDigit c (List.mem_of_mem_head? hc)).ne_sign
  have hdigits : Text.digitsValue? 10 e.digits = some (Base.decimal.placeValue e.digits) :=
    Text.digitsValue?_eq_some_iff.2 ⟨e.digits_ne, e.isDigit, rfl⟩
  rw [text, Decimal.exponentOf?, if_pos e.letter_eq, hsign]
  dsimp only
  rw [hdigits, Option.map_some, Text.signed_eq_withSign, value]

theorem forall_mem_text (e : ExponentPart) :
    ∀ c ∈ e.text, Base.decimal.IsDigit c ∨ c ∈ ['.', 'e', 'E', '+', '-'] := by
  have hsigns : ∀ sign ∈ signs, ∀ c ∈ sign, c = '+' ∨ c = '-' := by simp [signs]
  refine List.forall_mem_cons.2 ⟨.inr ?_, List.forall_mem_append.2 ⟨?_, ?_⟩⟩
  · rcases e.letter_eq with h | h <;> rw [h] <;> decide
  · intro c hc
    rcases hsigns e.sign e.sign_mem c hc with rfl | rfl
    · exact .inr (by decide)
    · exact .inr (by decide)
  · exact fun c hc => .inl (e.isDigit c hc)

/-- What is read as an exponent is one, or nothing. -/
theorem exists_of_exponentOf? {tail : List Char} {n : Int}
    (h : Decimal.exponentOf? tail = some n) :
    ∃ exponent : Option ExponentPart, tail = (exponent.map text).getD [] := by
  cases tail with
  | nil => exact ⟨none, rfl⟩
  | cons c rest =>
    rw [Decimal.exponentOf?] at h
    split at h
    · next hletter =>
      obtain ⟨sign, hsign, hrest, -⟩ := Text.exists_sign rest
      rcases hsplit : Text.splitSign rest with ⟨negative, digits⟩
      rw [hsplit] at h hrest
      obtain ⟨n, hn, -⟩ := Option.map_eq_some_iff.1 h
      have hread : Text.digitsValue? Base.decimal.radix digits = some n := hn
      obtain ⟨hne, hdigits, -⟩ := Text.digitsValue?_eq_some_iff.1 hread
      refine ⟨some ⟨c, sign, digits, hletter, hsign, hne, hdigits⟩, ?_⟩
      rw [hrest]
      rfl
    · cases h

end ExponentPart

namespace DecimalNumeral

theorem head?_exponentText (numeral : DecimalNumeral) :
    ∀ c ∈ numeral.exponentText.head?, c = 'e' ∨ c = 'E' := by
  intro c hc
  unfold exponentText at hc
  cases hexponent : numeral.exponent with
  | none =>
    rw [hexponent] at hc
    cases hc
  | some e =>
    rw [hexponent] at hc
    obtain rfl : e.letter = c := Option.some.inj hc
    exact e.letter_eq

theorem forall_mem_fractionText (numeral : DecimalNumeral) :
    ∀ c ∈ numeral.fractionText, c = '.' ∨ Base.decimal.IsDigit c := by
  have hdigits := numeral.isDigit_fraction
  unfold fractionText
  cases hfraction : numeral.fraction with
  | none => exact List.forall_mem_nil _
  | some fraction =>
    rw [hfraction] at hdigits
    exact List.forall_mem_cons.2 ⟨.inl rfl, fun c hc => .inr (hdigits c hc)⟩
/-- What follows the whole digits does not start with a digit. -/
theorem head?_fractionText_append (numeral : DecimalNumeral) :
    ∀ c ∈ (numeral.fractionText ++ numeral.exponentText).head?, c = '.' ∨ c = 'e' ∨ c = 'E' := by
  intro c hc
  unfold fractionText at hc
  cases hfraction : numeral.fraction with
  | none =>
    rw [hfraction] at hc
    exact .inr (numeral.head?_exponentText c hc)
  | some fraction =>
    rw [hfraction] at hc
    exact .inl (Option.some.inj hc).symm

/-- The characters of a numeral. -/
theorem forall_mem_unsigned (numeral : DecimalNumeral) :
    ∀ c ∈ numeral.unsigned, Base.decimal.IsDigit c ∨ c ∈ ['.', 'e', 'E', '+', '-'] := by
  refine List.forall_mem_append.2 ⟨fun c hc => .inl (numeral.isDigit_whole c hc),
    List.forall_mem_append.2 ⟨fun c hc => ?_, fun c hc => ?_⟩⟩
  · rcases numeral.forall_mem_fractionText c hc with rfl | hdigit
    · exact .inr (by decide)
    · exact .inl hdigit
  · unfold exponentText at hc
    cases hexponent : numeral.exponent with
    | none =>
      rw [hexponent] at hc
      cases hc
    | some e =>
      rw [hexponent] at hc
      exact e.forall_mem_text c hc

theorem unsigned_ne (numeral : DecimalNumeral) : numeral.unsigned ≠ [] := by
  intro hnil
  simp only [unsigned, List.append_eq_nil_iff] at hnil
  obtain ⟨hwhole, hfraction, -⟩ := hnil
  rcases numeral.digits_ne with hne | hne
  · exact hne hwhole
  · unfold fractionText at hfraction
    cases hpoint : numeral.fraction with
    | none => rw [hpoint] at hne; exact hne rfl
    | some fraction => rw [hpoint] at hfraction; cases hfraction

/-- Behind its sign, a numeral starts with a digit or a point. -/
theorem head?_unsigned (numeral : DecimalNumeral) :
    ∀ c ∈ numeral.unsigned.head?, Base.decimal.IsDigit c ∨ c = '.' := by
  intro c hc
  unfold unsigned at hc
  cases hwhole : numeral.whole with
  | cons d whole =>
    rw [hwhole] at hc
    obtain rfl : d = c := Option.some.inj hc
    exact .inl (numeral.isDigit_whole d (hwhole ▸ List.mem_cons_self))
  | nil =>
    have hfraction := numeral.digits_ne.resolve_left (not_not_intro hwhole)
    rw [hwhole, List.nil_append, fractionText] at hc
    cases hpoint : numeral.fraction with
    | none => rw [hpoint] at hfraction; exact absurd rfl hfraction
    | some fraction => rw [hpoint] at hc; exact .inr (Option.some.inj hc).symm

theorem splitSign_text (numeral : DecimalNumeral) :
    Text.splitSign numeral.text = (decide (numeral.sign = ['-']), numeral.unsigned) := by
  refine Text.splitSign_append numeral.sign_mem fun c hc => ?_
  rcases numeral.head?_unsigned c hc with hdigit | rfl
  · exact hdigit.ne_sign
  · decide

theorem splitFraction_eq (numeral : DecimalNumeral) :
    Decimal.splitFraction (numeral.fractionText ++ numeral.exponentText) =
      (numeral.fraction.getD [], numeral.exponentText) := by
  have hletter := numeral.head?_exponentText
  have hdigits := numeral.isDigit_fraction
  unfold fractionText
  cases hfraction : numeral.fraction with
  | none =>
    show Decimal.splitFraction numeral.exponentText = ([], numeral.exponentText)
    rw [Decimal.splitFraction]
    intro rest hpoint
    rw [hpoint] at hletter
    exact absurd (hletter '.' rfl) (by decide)
  | some fraction =>
    rw [hfraction, Option.getD_some] at hdigits
    have hstop : ∀ c ∈ numeral.exponentText.head?, c.isDigit = false := by
      intro c hc
      rcases hletter c hc with rfl | rfl <;> rfl
    obtain ⟨htake, hdrop⟩ := takeWhile_append_of_stop
      (fun c hc => Base.isDigit_decimal_iff.1 (hdigits c hc)) hstop
    show Decimal.splitFraction ('.' :: (fraction ++ numeral.exponentText)) = _
    rw [Decimal.splitFraction, htake, hdrop]
    rfl

theorem exponentOf?_exponentText (numeral : DecimalNumeral) :
    Decimal.exponentOf? numeral.exponentText =
      some ((numeral.exponent.map ExponentPart.value).getD 0) := by
  unfold exponentText
  cases numeral.exponent with
  | none => rfl
  | some e => exact e.exponentOf?_text

/-- **A decimal numeral is read as the number that it writes.** -/
theorem ofText?_text (numeral : DecimalNumeral) :
    Decimal.ofText? numeral.text = some numeral.value := by
  have hstop : ∀ c ∈ (numeral.fractionText ++ numeral.exponentText).head?, c.isDigit = false := by
    intro c hc
    rcases numeral.head?_fractionText_append c hc with rfl | rfl | rfl <;> rfl
  obtain ⟨htake, hdrop⟩ := takeWhile_append_of_stop
    (fun c hc => Base.isDigit_decimal_iff.1 (numeral.isDigit_whole c hc)) hstop
  have hdigits : ∀ c ∈ numeral.whole ++ numeral.fraction.getD [], Base.decimal.IsDigit c :=
    List.forall_mem_append.2 ⟨numeral.isDigit_whole, numeral.isDigit_fraction⟩
  have hne : numeral.whole ++ numeral.fraction.getD [] ≠ [] := by
    rw [Ne, List.append_eq_nil_iff, not_and_or]
    exact numeral.digits_ne
  have hempty : ¬ (numeral.whole.isEmpty && (numeral.fraction.getD []).isEmpty) = true := by
    rw [Bool.and_eq_true, List.isEmpty_iff, List.isEmpty_iff, ← List.append_eq_nil_iff]
    exact hne
  rw [Decimal.ofText?, numeral.splitSign_text]
  dsimp only [unsigned]
  rw [htake, hdrop, numeral.splitFraction_eq]
  dsimp only
  rw [if_neg hempty, numeral.exponentOf?_exponentText, Option.map_some,
    Base.ofDigitChars_eq hdigits, value]

namespace IsStandard

variable {numeral : DecimalNumeral} {negative : Bool}

theorem negative_eq (h : numeral.IsStandard negative) : numeral.value.negative = negative := by
  rw [value, h.sign_eq]
  exact signText_eq_minus negative

/-- Behind its sign, a standard numeral starts with a digit. -/
theorem exists_digit (h : numeral.IsStandard negative) :
    ∃ c more, numeral.unsigned = c :: more ∧ c.isDigit = true := by
  obtain ⟨c, more, hwhole⟩ := List.exists_cons_of_ne_nil h.whole_ne
  have hdigit := numeral.isDigit_whole c (by rw [hwhole]; exact List.mem_cons_self)
  refine ⟨c, more ++ (numeral.fractionText ++ numeral.exponentText), ?_,
    Base.isDigit_decimal_iff.1 hdigit⟩
  rw [unsigned, hwhole, List.cons_append]

end IsStandard

/-- A point and the digits behind it are split off, if there is a point. -/
theorem exists_fraction (text : List Char) :
    ∃ fraction : Option (List Char), (Decimal.splitFraction text).1 = fraction.getD [] ∧
      text = (fraction.map ('.' :: ·)).getD [] ++ (Decimal.splitFraction text).2 ∧
      ∀ c ∈ fraction.getD [], Base.decimal.IsDigit c := by
  unfold Decimal.splitFraction
  split
  · next rest =>
    refine ⟨some (rest.takeWhile Char.isDigit), rfl, ?_, fun c hc => ?_⟩
    · exact congrArg _ List.takeWhile_append_dropWhile.symm
    · exact Base.isDigit_decimal_iff.2 (List.all_eq_true.1 List.all_takeWhile c hc)
  · exact ⟨none, rfl, rfl, List.forall_mem_nil _⟩

/-- **Nothing else is read as a decimal numeral.** -/
theorem exists_of_ofText? {text : List Char} {d : Decimal} (h : Decimal.ofText? text = some d) :
    ∃ numeral : DecimalNumeral, numeral.text = text := by
  obtain ⟨sign, hsign, htext, -⟩ := Text.exists_sign text
  rcases hsplit : Text.splitSign text with ⟨negative, unsigned⟩
  rw [Decimal.ofText?, hsplit] at h
  rw [hsplit] at htext
  dsimp only at h htext
  have hunsigned := List.takeWhile_append_dropWhile (p := Char.isDigit) (l := unsigned)
  have hwhole : ∀ c ∈ unsigned.takeWhile Char.isDigit, Base.decimal.IsDigit c := fun c hc =>
    Base.isDigit_decimal_iff.2 (List.all_eq_true.1 List.all_takeWhile c hc)
  obtain ⟨fraction, hfraction, hbehind, hdigits⟩ :=
    exists_fraction (unsigned.dropWhile Char.isDigit)
  rcases hpoint : Decimal.splitFraction (unsigned.dropWhile Char.isDigit) with ⟨digits, rest⟩
  rw [hpoint] at h hfraction hbehind
  dsimp only at h hfraction hbehind
  split at h
  · cases h
  · next hempty =>
    obtain ⟨n, hn, -⟩ := Option.map_eq_some_iff.1 h
    obtain ⟨exponent, rfl⟩ := ExponentPart.exists_of_exponentOf? hn
    rw [Bool.and_eq_true, List.isEmpty_iff, List.isEmpty_iff, not_and_or, hfraction] at hempty
    refine ⟨⟨sign, _, fraction, exponent, hsign, hwhole, hdigits, hempty⟩, ?_⟩
    rw [hbehind] at hunsigned
    rw [htext]
    exact congrArg (sign ++ ·) hunsigned

end DecimalNumeral

end TagLang
