import Mathlib.Data.List.Chain
import TagLang.Proofs.Binary64.Text
import TagLang.Proofs.Reading.Integers

/-!
# Decimal numerals in identifiers

A standard numeral is no integer, because it has a point or an exponent, so the text of a finite
float stands for that float, in every style (`Literal.classify_text`).

In a numeral, a sign that is not at its start follows the letter of an exponent
(`DecimalNumeral.isChain_text`), and the letter is never the last character. So where a numeral with
a sign follows another one, the place is that of the last sign which does not belong to an exponent
(`DecimalNumeral.splitSum_append`).
-/

namespace TagLang

/-! ## Written floats -/

namespace Literal

/-- A numeral with a point or an exponent is no integer. -/
theorem integer?_of_isStandard {numeral : DecimalNumeral} {negative : Bool}
    (h : numeral.IsStandard negative) : integer? numeral.text = none := by
  obtain ⟨mark, rest, hmarked⟩ := List.exists_cons_of_ne_nil h.marked
  obtain ⟨c, more, hwhole⟩ := List.exists_cons_of_ne_nil h.whole_ne
  have hmark : mark = '.' ∨ mark = 'e' ∨ mark = 'E' :=
    numeral.head?_fractionText_append mark (by rw [hmarked]; rfl)
  have hunsigned : numeral.unsigned = c :: (more ++ mark :: rest) := by
    rw [DecimalNumeral.unsigned, hmarked, hwhole]
    rfl
  have hbase : Base.split numeral.unsigned = (.decimal, numeral.unsigned) := by
    rw [hunsigned]
    refine Base.split_eq_decimal fun d hd => ?_
    cases more with
    | nil =>
      obtain rfl := Option.some.inj hd
      rcases hmark with rfl | rfl | rfl <;> decide
    | cons e more =>
      obtain rfl := Option.some.inj hd
      refine Text.not_mem_marks_of_isDigit (Base.isDigit_decimal_iff.1 (numeral.isDigit_whole _ ?_))
      rw [hwhole]
      exact List.mem_cons_of_mem _ List.mem_cons_self
  have hdigits : Text.digitsValue? Base.decimal.radix numeral.unsigned = none := by
    rw [Option.eq_none_iff_forall_ne_some]
    intro n hn
    obtain ⟨-, hdigits, -⟩ := Text.digitsValue?_eq_some_iff.1 hn
    have hdigit := Base.isDigit_decimal_iff.1 (hdigits mark (by rw [hunsigned]; simp))
    rcases hmark with rfl | rfl | rfl <;> cases hdigit
  rw [integer?, numeral.splitSign_text]
  dsimp only
  rw [hbase]
  dsimp only
  rw [hdigits]
  rfl

theorem decimal?_text (numeral : DecimalNumeral) :
    decimal? numeral.text = some numeral.value.toBinary64 := by
  rw [decimal?, numeral.ofText?_text, Option.map_some]

/-- **A written float is a literal** with the same bits. -/
theorem classify_text (style : Binary64.Style) {x : Binary64} (h : x.isFinite = true) :
    classify (x.text style) = .float x := by
  obtain ⟨numeral, hstandard, htext, hx⟩ := Binary64.exists_isStandard style h
  unfold classify
  dsimp only
  rw [htext, integer?_of_isStandard hstandard, decimal?_text, hx]
  rfl

end Literal

/-! ## Signs inside numerals -/

/-- A sign follows the letter of an exponent. -/
def SignBehindLetter (before c : Char) : Prop :=
  c = '+' ∨ c = '-' → before = 'e' ∨ before = 'E'

section

variable {x y : List Char}

theorem isChain_append_of_head? (hx : x.IsChain SignBehindLetter)
    (hy : y.IsChain SignBehindLetter) (hhead : ∀ c ∈ y.head?, c ≠ '+' ∧ c ≠ '-') :
    (x ++ y).IsChain SignBehindLetter := by
  refine hx.append hy fun d _ c hc hsign => ?_
  rcases hsign with rfl | rfl
  · exact absurd rfl (hhead _ hc).1
  · exact absurd rfl (hhead _ hc).2

theorem isChain_of_forall_ne (h : ∀ c ∈ x, c ≠ '+' ∧ c ≠ '-') : x.IsChain SignBehindLetter := by
  induction x with
  | nil => exact .nil
  | cons c x ih =>
    rw [List.forall_mem_cons] at h
    have hhead : ∀ d ∈ x.head?, d ≠ '+' ∧ d ≠ '-' := fun d hd => h.2 d (List.mem_of_mem_head? hd)
    exact isChain_append_of_head? (.singleton c) (ih h.2) hhead

theorem forall_mem_getLast?_append {p : Char → Prop} (hx : ∀ c ∈ x.getLast?, p c)
    (hy : ∀ c ∈ y.getLast?, p c) : ∀ c ∈ (x ++ y).getLast?, p c := by
  intro c hc
  rw [List.getLast?_append, Option.mem_def, Option.or_eq_some_iff] at hc
  rcases hc with hc | ⟨-, hc⟩
  · exact hy c hc
  · exact hx c hc

theorem isChain_of_mem_signs (h : x ∈ signs) : x.IsChain SignBehindLetter := by
  simp only [signs, List.mem_cons, List.not_mem_nil, or_false] at h
  rcases h with rfl | rfl | rfl
  · exact .nil
  · exact .singleton _
  · exact .singleton _

end

namespace ExponentPart

theorem isChain_text (e : ExponentPart) : e.text.IsChain SignBehindLetter := by
  have hne : ∀ c ∈ e.digits, c ≠ '+' ∧ c ≠ '-' := fun c hc => (e.isDigit c hc).ne_sign
  have hrest : (e.sign ++ e.digits).IsChain SignBehindLetter :=
    isChain_append_of_head? (isChain_of_mem_signs e.sign_mem) (isChain_of_forall_ne hne)
      fun c hc => hne c (List.mem_of_mem_head? hc)
  exact List.isChain_cons.2 ⟨fun _ _ _ => e.letter_eq, hrest⟩

theorem getLast?_text (e : ExponentPart) : ∀ c ∈ e.text.getLast?, Base.decimal.IsDigit c := by
  intro c hc
  have hlast : e.text.getLast? = e.digits.getLast? := by
    rw [text, ← List.cons_append, List.getLast?_append_of_ne_nil _ e.digits_ne]
  rw [hlast] at hc
  exact e.isDigit c (List.mem_of_mem_getLast? hc)

end ExponentPart

namespace DecimalNumeral

/-- **Signs inside a numeral** follow the letter of its exponent. -/
theorem isChain_text (numeral : DecimalNumeral) : numeral.text.IsChain SignBehindLetter := by
  have hexponent : numeral.exponentText.IsChain SignBehindLetter := by
    unfold exponentText
    cases numeral.exponent with
    | none => exact .nil
    | some e => exact e.isChain_text
  have hfraction : numeral.fractionText.IsChain SignBehindLetter := by
    refine isChain_of_forall_ne fun c hc => ?_
    rcases numeral.forall_mem_fractionText c hc with rfl | hdigit
    · decide
    · exact hdigit.ne_sign
  have hwhole : numeral.whole.IsChain SignBehindLetter :=
    isChain_of_forall_ne fun c hc => (numeral.isDigit_whole c hc).ne_sign
  refine isChain_append_of_head? (isChain_of_mem_signs numeral.sign_mem)
    (isChain_append_of_head? hwhole (isChain_append_of_head? hfraction hexponent ?_) ?_) ?_
  · intro c hc
    rcases numeral.head?_exponentText c hc with rfl | rfl <;> decide
  · intro c hc
    rcases numeral.head?_fractionText_append c hc with rfl | rfl | rfl <;> decide
  · intro c hc
    rcases numeral.head?_unsigned c hc with hdigit | rfl
    · exact hdigit.ne_sign
    · decide

/-- **A numeral ends with a digit or a point.** -/
theorem exists_last (numeral : DecimalNumeral) :
    ∃ front d, numeral.text = front ++ [d] ∧ (Base.decimal.IsDigit d ∨ d = '.') := by
  have hlast : ∀ d ∈ numeral.unsigned.getLast?, Base.decimal.IsDigit d ∨ d = '.' := by
    refine forall_mem_getLast?_append ?_ (forall_mem_getLast?_append ?_ ?_)
    · exact fun d hd => .inl (numeral.isDigit_whole d (List.mem_of_mem_getLast? hd))
    · exact fun d hd => (numeral.forall_mem_fractionText d (List.mem_of_mem_getLast? hd)).symm
    · unfold exponentText
      cases numeral.exponent with
      | none => exact fun d hd => absurd hd (Option.not_mem_none d)
      | some e => exact fun d hd => .inl (e.getLast?_text d hd)
  rcases List.eq_nil_or_concat' numeral.unsigned with hnil | ⟨front, d, hunsigned⟩
  · exact absurd hnil numeral.unsigned_ne
  · refine ⟨numeral.sign ++ front, d, ?_, hlast d ?_⟩
    · rw [text, hunsigned, List.append_assoc]
    · rw [hunsigned, List.getLast?_concat]
      rfl

theorem exists_last_ne (numeral : DecimalNumeral) :
    ∃ front d, numeral.text = front ++ [d] ∧ d ≠ 'e' ∧ d ≠ 'E' := by
  obtain ⟨front, d, htext, hdigit | rfl⟩ := numeral.exists_last
  · refine ⟨front, d, htext, ?_, ?_⟩
    · rintro rfl
      exact absurd hdigit.2 (by decide)
    · rintro rfl
      exact absurd hdigit.2 (by decide)
  · exact ⟨front, '.', htext, by decide, by decide⟩

end DecimalNumeral

/-! ## Numerals one behind the other -/

/-- The last sign that does not belong to an exponent is found from behind. What follows it has
been passed when it is reached. -/
theorem Literal.splitSum_eq {behind : List Char} {c d : Char} (before passed : List Char)
    (hsign : c = '+' ∨ c = '-') (hd : d ≠ 'e' ∧ d ≠ 'E')
    (hchain : (c :: behind).IsChain SignBehindLetter) :
    Literal.splitSum passed (behind.reverse ++ c :: d :: before) =
      some ((d :: before).reverse, c :: (behind ++ passed)) := by
  induction behind using List.reverseRecOn generalizing passed with
  | nil =>
    rw [List.reverse_nil, List.nil_append, Literal.splitSum, if_pos ⟨hsign, hd⟩]
    rfl
  | append_singleton behind b ih =>
    rw [← List.cons_append, List.isChain_append] at hchain
    obtain ⟨hchain, -, hlast⟩ := hchain
    obtain ⟨e, more, hmore⟩ := List.exists_cons_of_ne_nil (l := (c :: behind).reverse) (by simp)
    have hletter : SignBehindLetter e b := by
      refine hlast e ?_ b rfl
      rw [← List.head?_reverse, hmore]
      rfl
    -- a sign behind the letter of an exponent is passed
    have hskip : ¬ ((b = '+' ∨ b = '-') ∧ e ≠ 'e' ∧ e ≠ 'E') := by
      rintro ⟨hb, hne, hne'⟩
      rcases hletter hb with h | h
      · exact hne h
      · exact hne' h
    have hrest : behind.reverse ++ c :: d :: before = e :: (more ++ d :: before) := by
      rw [← List.cons_append, ← hmore, List.reverse_cons, List.append_assoc]
      rfl
    have hfound := ih (b :: passed) hchain
    rw [hrest] at hfound
    rw [List.reverse_append, List.reverse_singleton, List.singleton_append, List.cons_append, hrest,
      Literal.splitSum, if_neg hskip, hfound, List.append_assoc, List.singleton_append]

namespace DecimalNumeral

/-- A numeral with a sign starts with it. -/
theorem exists_sign {numeral : DecimalNumeral} (h : numeral.sign ≠ []) :
    ∃ c behind, numeral.text = c :: behind ∧ (c = '+' ∨ c = '-') := by
  have hsign := numeral.sign_mem
  simp only [signs, List.mem_cons, List.not_mem_nil, or_false] at hsign
  rw [text]
  rcases hsign with hsign | hsign | hsign
  · exact absurd hsign h
  · rw [hsign]
    exact ⟨'+', _, rfl, .inl rfl⟩
  · rw [hsign]
    exact ⟨'-', _, rfl, .inr rfl⟩

/-- **Where a numeral ends and another one with a sign starts** is the last sign that does not
belong to an exponent. -/
theorem splitSum_append (re im : DecimalNumeral) (h : im.sign ≠ []) :
    Literal.splitSum [] (re.text ++ im.text).reverse = some (re.text, im.text) := by
  obtain ⟨c, behind, him, hsign⟩ := exists_sign h
  obtain ⟨front, d, hre, hd⟩ := re.exists_last_ne
  have hchain := im.isChain_text
  rw [him] at hchain
  have hfound := Literal.splitSum_eq front.reverse [] hsign hd hchain
  rw [hre, him]
  simpa using hfound

/-- Two numerals, the second of them with a sign, are no numeral. -/
theorem append_ne_text (re im numeral : DecimalNumeral) (h : im.sign ≠ []) :
    re.text ++ im.text ≠ numeral.text := by
  obtain ⟨c, behind, him, hsign⟩ := exists_sign h
  obtain ⟨front, d, hre, hne, hne'⟩ := re.exists_last_ne
  intro htext
  have hchain := numeral.isChain_text
  rw [← htext, hre, him, List.append_assoc, List.singleton_append,
    List.isChain_append_cons_cons] at hchain
  rcases hchain.2.1 hsign with hd | hd
  · exact hne hd
  · exact hne' hd

end DecimalNumeral

end TagLang
