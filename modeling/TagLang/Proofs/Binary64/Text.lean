import TagLang.Binary64.Style
import TagLang.Proofs.Binary64.Numeral
import TagLang.Proofs.Binary64.Rounding

/-!
# The text of a number reads back

The digits that are chosen for a finite number read back as the number (`shortest_toBinary64`): each
candidate of the search is read back before it is taken, the digits that are all there are exact,
and leaving out zeros at the end changes nothing.

How these digits are then placed is a matter of style, but in every style the text is a standard
numeral, and it writes the number that was chosen (`Binary64.exists_isStandard`). So the text of a
finite number reads back as the number, to the last bit, and a zero keeps its sign.
-/

namespace TagLang

/-! ## The digits chosen -/

theorem Decimal.value_trim (d : Decimal) :
    d.trim.value = d.value ∧ d.trim.negative = d.negative := by
  fun_induction Decimal.trim d with
  | case1 d h ih =>
    obtain ⟨hvalue, hsign⟩ := ih
    refine ⟨hvalue.trans ?_, hsign⟩
    have hdigits : (d.digits : ℚ) = ((d.digits / 10 : Nat) : ℚ) * 10 := by
      have heq : d.digits = d.digits / 10 * 10 := by omega
      exact_mod_cast heq
    unfold Decimal.value
    rw [hdigits, mul_assoc, ← zpow_one_add₀ (by norm_num), Int.add_comm]
  | case2 d h => exact ⟨rfl, rfl⟩

namespace Binary64

variable {x : Binary64}

theorem value_exact (x : Binary64) : x.exact.value = x.value ∧ x.exact.negative = x.negative := by
  unfold exact
  by_cases h : 0 ≤ x.exponent
  · rw [if_pos h]
    refine ⟨?_, rfl⟩
    have hone : x.denominator = 1 := by
      have hzero : (-x.exponent).toNat = 0 := by omega
      rw [denominator, hzero, Nat.pow_eq, pow_zero]
    rw [← numerator_div_denominator, hone, Nat.cast_one, div_one]
    exact mul_one _
  · rw [if_neg h]
    refine ⟨?_, rfl⟩
    have hneg : ((-x.exponent).toNat : Int) = -x.exponent := Int.toNat_of_nonneg (by omega)
    have hfive : ((Nat.pow 5 (-x.exponent).toNat : Nat) : ℚ) = 5 ^ (-x.exponent) := by
      rw [Nat.pow_eq, Nat.cast_pow, ← zpow_natCast, hneg, Nat.cast_ofNat]
    unfold Decimal.value value
    dsimp only
    rw [Nat.cast_mul, hfive, mul_assoc, zpow_neg, ← inv_zpow, ← mul_zpow]
    norm_num

/-- What is found on a grid has been read back. -/
theorem onGrid?_toBinary64 {tie : Tie} {grid : Int} {d : Decimal}
    (h : x.onGrid? tie grid = some d) : d.toBinary64 = x ∧ d.negative = x.negative := by
  unfold onGrid? at h
  extract_lets num den below above upper at h
  split at h
  · next hbelow habove =>
    obtain rfl := Option.some.inj h
    cases upper with
    | true => exact ⟨of_decide_eq_true habove, rfl⟩
    | false => exact ⟨of_decide_eq_true hbelow, rfl⟩
  · next hbelow _ =>
    obtain rfl := Option.some.inj h
    exact ⟨of_decide_eq_true hbelow, rfl⟩
  · next _ habove =>
    obtain rfl := Option.some.inj h
    exact ⟨of_decide_eq_true habove, rfl⟩
  · cases h

/-- **The digits chosen for a finite number read back as the number.** -/
theorem shortest_toBinary64 (tie : Tie) (h : x.isFinite = true) :
    (x.shortest tie).toBinary64 = x ∧ (x.shortest tie).negative = x.negative := by
  unfold shortest
  dsimp only
  generalize hchosen : ((List.range 17).findSome? _).getD x.exact = chosen
  have hreads : chosen.toBinary64 = x ∧ chosen.negative = x.negative := by
    cases hfound : (List.range 17).findSome? fun n : Nat =>
        x.onGrid? tie (decimalSize x.numerator x.denominator - 1 - n) with
    | some d =>
      rw [hfound] at hchosen
      obtain ⟨n, -, hgrid⟩ := List.exists_of_findSome?_eq_some hfound
      rw [← hchosen]
      exact onGrid?_toBinary64 hgrid
    | none =>
      rw [hfound] at hchosen
      obtain ⟨hvalue, hsign⟩ := x.value_exact
      rw [← hchosen]
      exact ⟨Decimal.toBinary64_eq_self h hsign hvalue, hsign⟩
  obtain ⟨hvalue, hsign⟩ := chosen.value_trim
  refine ⟨?_, hsign.trans hreads.2⟩
  rw [Decimal.toBinary64_congr hsign hvalue]
  exact hreads.1

theorem shortest_digits_ne_zero (tie : Tie) (h : x.isFinite = true) (hne : x.magnitude ≠ 0) :
    (x.shortest tie).digits ≠ 0 := by
  intro hzero
  have hreads := (shortest_toBinary64 tie h).1
  unfold Decimal.toBinary64 at hreads
  rw [if_pos (.inl hzero)] at hreads
  rw [← hreads, magnitude_ofMagnitude _ (by decide)] at hne
  exact hne rfl

end Binary64

/-! ## Digits with a point or an exponent -/

namespace ExponentPart

/-- How an exponent is written. -/
def ofInt (plusSign : Bool) (exponent : Int) : ExponentPart where
  letter := 'e'
  sign := if plusSign ∧ 0 ≤ exponent then ['+'] else signText (decide (exponent < 0))
  digits := Nat.toDigits 10 exponent.natAbs
  letter_eq := .inl rfl
  sign_mem := by
    split
    · decide
    · exact signText_mem _
  digits_ne := Nat.toDigits_ne_nil
  isDigit := Base.isDigit_of_mem_toDigits

theorem text_ofInt (plusSign : Bool) (exponent : Int) :
    (ofInt plusSign exponent).text =
      'e' :: ((if plusSign ∧ 0 ≤ exponent then ['+'] else []) ++
        (Text.intText exponent).toList) := by
  rw [Text.toList_intText]
  unfold text ofInt
  dsimp only
  split
  · next h => rw [decide_eq_false (not_lt.2 h.2)]; rfl
  · rfl

theorem value_ofInt (plusSign : Bool) (exponent : Int) :
    (ofInt plusSign exponent).value = exponent := by
  unfold value ofInt
  dsimp only
  rw [Base.placeValue_toDigits]
  split
  · next h => exact Int.natAbs_of_nonneg h.2
  · exact withSign_natAbs exponent

end ExponentPart

namespace Binary64

/-- A text is, behind its sign, a standard numeral of a number. -/
def Spells (negative : Bool) (text : List Char) (value : ℚ) : Prop :=
  ∃ numeral : DecimalNumeral, numeral.IsStandard negative ∧ numeral.unsigned = text ∧
    numeral.value.value = value

/-- Digits without a leading zero that write a number. -/
structure Writes (digits : List Char) (n : Nat) : Prop where
  ne_nil : digits ≠ []
  isDigit : ∀ c ∈ digits, Base.decimal.IsDigit c
  head?_ne : digits.head? ≠ some '0'
  value_eq : Nat.ofDigitChars 10 digits 0 = n

theorem writes_toDigits {n : Nat} (hn : 0 < n) : Writes (Nat.toDigits 10 n) n :=
  ⟨Nat.toDigits_ne_nil, Base.isDigit_of_mem_toDigits, Text.head?_toDigits_ne hn,
    Nat.ofDigitChars_ten_toDigits⟩

section

variable (negative : Bool) {digits : List Char} {n : Nat}

/-- Digits and further digits behind a point. -/
theorem spells_of_point {whole fraction : List Char} {value : ℚ} (hne : whole ≠ [])
    (hleading : whole = ['0'] ∨ whole.head? ≠ some '0') (hfraction : fraction ≠ [])
    (hdigits : ∀ c ∈ whole ++ fraction, Base.decimal.IsDigit c)
    (hvalue : (Nat.ofDigitChars 10 (whole ++ fraction) 0 : ℚ) * 10 ^ (-(fraction.length : Int)) =
      value) : Spells negative (whole ++ '.' :: fraction) value := by
  obtain ⟨hwhole, hbehind⟩ := List.forall_mem_append.1 hdigits
  refine ⟨⟨signText negative, whole, some fraction, none, signText_mem negative, hwhole, hbehind,
    .inl hne⟩, ⟨rfl, hne, hleading, ?_, List.cons_ne_nil _ _⟩, ?_, ?_⟩
  · exact fun hnil => hfraction (Option.some.inj hnil)
  · exact congrArg (whole ++ '.' :: ·) (List.append_nil fraction)
  · rw [Base.ofDigitChars_eq hdigits, ← zero_sub] at hvalue
    exact hvalue

theorem isDigit_of_mem_zeros {k : Nat} :
    ∀ c ∈ List.replicate k '0', Base.decimal.IsDigit c := by
  intro c hc
  rw [List.eq_of_mem_replicate hc]
  exact Base.isDigit_decimal_iff.2 rfl

namespace Writes

/-- Zeros up to the point, and one behind it. -/
theorem spells_integer (h : Writes digits n) (k : Nat) :
    Spells negative (digits ++ List.replicate k '0' ++ ['.', '0']) (n * 10 ^ (k : Int)) := by
  refine spells_of_point negative (List.append_ne_nil_of_left_ne_nil h.ne_nil _) (.inr ?_)
    (List.cons_ne_nil _ _) ?_ ?_
  · rw [List.head?_append_of_ne_nil _ h.ne_nil]
    exact h.head?_ne
  · exact List.forall_mem_append.2 ⟨List.forall_mem_append.2 ⟨h.isDigit, isDigit_of_mem_zeros⟩,
      isDigit_of_mem_zeros (k := 1)⟩
  · have hvalue : Nat.ofDigitChars 10 (digits ++ List.replicate k '0' ++ ['0']) 0 =
        n * 10 ^ k * 10 := by
      rw [Nat.ofDigitChars_append, Nat.ofDigitChars_append, Nat.ofDigitChars_replicate_zero,
        h.value_eq, Nat.mul_comm (10 ^ k)]
      exact Nat.mul_comm _ _
    rw [hvalue, List.length_singleton, Nat.cast_one, zpow_neg_one, Nat.cast_mul, Nat.cast_mul,
      Nat.cast_pow, zpow_natCast, Nat.cast_ofNat]
    exact mul_inv_cancel_right₀ (by norm_num) _

/-- The point is inside the digits. -/
theorem spells_point (h : Writes digits n) {k : Nat} (hpos : 0 < k) (hlt : k < digits.length) :
    Spells negative (digits.take k ++ '.' :: digits.drop k)
      (n * 10 ^ ((k : Int) - digits.length)) := by
  have hdrop : digits.drop k ≠ [] := by
    rw [Ne, List.drop_eq_nil_iff]
    omega
  have htake : digits.take k ≠ [] := by
    rw [Ne, List.take_eq_nil_iff]
    exact not_or.2 ⟨hpos.ne', h.ne_nil⟩
  refine spells_of_point negative htake (.inr ?_) hdrop ?_ ?_
  · rw [List.head?_take, if_neg hpos.ne']
    exact h.head?_ne
  · rw [List.take_append_drop]
    exact h.isDigit
  · rw [List.take_append_drop, h.value_eq, List.length_drop]
    congr 2
    omega

/-- Zeros between the point and the digits. -/
theorem spells_small (h : Writes digits n) (k : Nat) :
    Spells negative ('0' :: '.' :: (List.replicate k '0' ++ digits))
      (n * 10 ^ (-((k : Int) + digits.length))) := by
  show Spells negative (['0'] ++ '.' :: (List.replicate k '0' ++ digits)) _
  refine spells_of_point negative (List.cons_ne_nil _ _) (.inl rfl)
    (List.append_ne_nil_of_right_ne_nil _ h.ne_nil) ?_ ?_
  · exact List.forall_mem_append.2 ⟨isDigit_of_mem_zeros (k := 1),
      List.forall_mem_append.2 ⟨isDigit_of_mem_zeros, h.isDigit⟩⟩
  · have hvalue : Nat.ofDigitChars 10 (['0'] ++ (List.replicate k '0' ++ digits)) 0 = n := by
      rw [Nat.ofDigitChars_append, Nat.ofDigitChars_append, Nat.ofDigitChars_replicate_zero]
      exact h.value_eq
    rw [hvalue, List.length_append, List.length_replicate, Nat.cast_add]

/-- **Positional notation** is a numeral of the same number. -/
theorem spells_plainText (h : Writes digits n) (exponent : Int) :
    Spells negative (plainText digits exponent) (n * 10 ^ exponent) := by
  unfold plainText
  dsimp only
  by_cases hexponent : 0 ≤ exponent
  · rw [if_pos hexponent]
    have hspells := h.spells_integer negative exponent.toNat
    rwa [Int.toNat_of_nonneg hexponent] at hspells
  · rw [if_neg hexponent]
    by_cases hpoint : 0 < (digits.length : Int) + exponent
    · rw [if_pos hpoint]
      have hspells := h.spells_point negative (k := ((digits.length : Int) + exponent).toNat)
        (by omega) (by omega)
      rwa [Int.toNat_of_nonneg hpoint.le, add_sub_cancel_left] at hspells
    · rw [if_neg hpoint]
      have hspells := h.spells_small negative (-((digits.length : Int) + exponent)).toNat
      have hexp : -(((-((digits.length : Int) + exponent)).toNat : Int) + digits.length) =
          exponent := by
        omega
      rwa [hexp] at hspells

/-- Scientific notation has a point if there are digits to stand behind it. -/
theorem exists_fraction_scientificText (plusSign : Bool) (first : Char) (more : List Char)
    (exponent : Int) :
    ∃ fraction : Option (List Char), fraction.getD [] = more ∧ fraction ≠ some [] ∧
      [first] ++ ((fraction.map ('.' :: ·)).getD [] ++
        (ExponentPart.ofInt plusSign exponent).text) =
          scientificText plusSign (first :: more) exponent := by
  rw [ExponentPart.text_ofInt]
  unfold scientificText
  cases more with
  | nil => exact ⟨none, rfl, (Option.some_ne_none _).symm, rfl⟩
  | cons second more =>
    refine ⟨some (second :: more), rfl, fun h => List.cons_ne_nil _ _ (Option.some.inj h), ?_⟩
    simp only [Option.map_some, Option.getD_some, List.cons_append, List.append_assoc,
      List.nil_append]

/-- **Scientific notation** is a numeral of the same number. -/
theorem spells_scientificText (h : Writes digits n) (plusSign : Bool) (exponent : Int) :
    Spells negative (scientificText plusSign digits exponent)
      (n * 10 ^ (exponent - digits.length + 1)) := by
  obtain ⟨first, more, rfl⟩ := List.exists_cons_of_ne_nil h.ne_nil
  obtain ⟨hfirst, hmore⟩ := List.forall_mem_cons.1 h.isDigit
  have hplaces := h.value_eq
  rw [Base.ofDigitChars_eq h.isDigit] at hplaces
  obtain ⟨fraction, rfl, hne, htext⟩ :=
    exists_fraction_scientificText plusSign first more exponent
  refine ⟨⟨signText negative, [first], fraction, some (.ofInt plusSign exponent),
    signText_mem negative, List.forall_mem_singleton.2 hfirst, hmore,
    .inl (List.cons_ne_nil _ _)⟩, ⟨rfl, List.cons_ne_nil _ _, .inr h.head?_ne, hne, ?_⟩, htext, ?_⟩
  · exact List.append_ne_nil_of_right_ne_nil _ (List.cons_ne_nil _ _)
  · unfold Decimal.value DecimalNumeral.value
    dsimp only
    rw [List.singleton_append, hplaces, Option.map_some, Option.getD_some,
      ExponentPart.value_ofInt, List.length_cons]
    congr 2
    omega

end Writes

end

variable {x : Binary64}

/-- The text of a number spells zero, or the digits that are chosen for the number. -/
theorem exists_spells (style : Style) (h : x.isFinite = true) :
    ∃ text value, (x.text style).toList = signText x.negative ++ text ∧
      Spells x.negative text value ∧
      ∀ d : Decimal, d.negative = x.negative → d.value = value → d.toBinary64 = x := by
  unfold Binary64.text
  rw [String.toList_ofList]
  by_cases hne : x.magnitude = 0
  · refine ⟨['0', '.', '0'], 0, ?_, ?_, fun d hsign hvalue => ?_⟩
    · rw [if_pos hne]
      rfl
    · show Spells x.negative (['0'] ++ '.' :: ['0']) 0
      exact spells_of_point x.negative (List.cons_ne_nil _ _) (.inl rfl) (List.cons_ne_nil _ _)
        (isDigit_of_mem_zeros (k := 2)) (zero_mul _)
    · exact Decimal.toBinary64_eq_self h hsign
        (hvalue.trans (value_of_magnitude_eq_zero hne).symm)
  · obtain ⟨hreads, hnegative⟩ := shortest_toBinary64 style.tie h
    have hwrites := writes_toDigits (Nat.pos_of_ne_zero (shortest_digits_ne_zero style.tie h hne))
    rw [if_neg hne]
    dsimp only
    refine ⟨_, (x.shortest style.tie).value, rfl, ?_, fun d hsign hvalue => ?_⟩
    · split
      · exact hwrites.spells_plainText x.negative _
      · have hspells := hwrites.spells_scientificText x.negative style.plusSign
          ((x.shortest style.tie).exponent +
            (Nat.toDigits 10 (x.shortest style.tie).digits).length - 1)
        have hexp : (x.shortest style.tie).exponent +
            (Nat.toDigits 10 (x.shortest style.tie).digits).length - 1 -
            (Nat.toDigits 10 (x.shortest style.tie).digits).length + 1 =
              (x.shortest style.tie).exponent := by
          omega
        rwa [hexp] at hspells
    · rw [Decimal.toBinary64_congr (hsign.trans hnegative.symm) hvalue]
      exact hreads

/-- **The text of a finite number is a standard numeral that rounds to the number.** -/
theorem exists_isStandard (style : Style) (h : x.isFinite = true) :
    ∃ numeral : DecimalNumeral, numeral.IsStandard x.negative ∧
      (x.text style).toList = numeral.text ∧ numeral.value.toBinary64 = x := by
  obtain ⟨text, value, htext, ⟨numeral, hstandard, rfl, hvalue⟩, hreads⟩ := exists_spells style h
  refine ⟨numeral, hstandard, ?_, hreads _ hstandard.negative_eq hvalue⟩
  rw [htext, DecimalNumeral.text, hstandard.sign_eq]

end Binary64

end TagLang
