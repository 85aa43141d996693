import Mathlib.Data.List.Basic
import Mathlib.Data.Nat.Digits.Defs
import Mathlib.Tactic.Ring
import TagLang.Node.Basic
import TagLang.Text.Numeral

/-!
# Digits and signs

What digits write in a base is the sum of their values times the powers of the base
(`Base.placeValue`), and the reader of digits finds this number (`Text.digitsValue?_eq_some_iff`).
A numeral may have a sign in front, which the reader splits off (`Text.splitSign_append`). The
text of an integer is a sign and the digits of its absolute value, and no zero is in front of other
digits (`Text.toList_intText`, `Text.head?_toDigits_ne`).
-/

namespace TagLang

/-! ## Digits -/

/-- The characters that are digits of a base. -/
def Base.IsDigit : Base → Char → Prop
  | .binary, c => c = '0' ∨ c = '1'
  | .octal, c => '0' ≤ c ∧ c ≤ '7'
  | .decimal, c => '0' ≤ c ∧ c ≤ '9'
  | .hexadecimal, c => '0' ≤ c ∧ c ≤ '9' ∨ 'a' ≤ c ∧ c ≤ 'f' ∨ 'A' ≤ c ∧ c ≤ 'F'

/-- The digits in the order of their values. -/
def digitChars : List Char :=
  ['0', '1', '2', '3', '4', '5', '6', '7', '8', '9', 'a', 'b', 'c', 'd', 'e', 'f']

/-- The value of a digit: its place among the digits, whichever case it is written in. -/
def digitOf (c : Char) : Nat := digitChars.idxOf c.toLower

/-- The number that digits write in a base: they are multiplied with the powers of the base, the
last one with the least. -/
def Base.placeValue (base : Base) (digits : List Char) : Nat :=
  Nat.ofDigits base.radix (digits.map digitOf).reverse

theorem digitOf_eq {c : Char} :
    (48 ≤ c.toNat → c.toNat ≤ 57 → digitOf c = c.toNat - 48) ∧
    (97 ≤ c.toNat → c.toNat ≤ 102 → digitOf c = c.toNat - 87) ∧
    (65 ≤ c.toNat → c.toNat ≤ 70 → digitOf c = c.toNat - 55) := by
  have hruns : (∀ n < 10, digitOf (Char.ofNat (48 + n)) = n) ∧
      (∀ n < 6, digitOf (Char.ofNat (97 + n)) = n + 10) ∧
      ∀ n < 6, digitOf (Char.ofNat (65 + n)) = n + 10 := by decide
  have hchar : ∀ {n m : Nat}, n + m = c.toNat → Char.ofNat (n + m) = c := by
    intro n m h
    rw [h, Char.ofNat_toNat]
  refine ⟨fun hlow hhigh => ?_, fun hlow hhigh => ?_, fun hlow hhigh => ?_⟩
  · have h := hruns.1 (c.toNat - 48) (by omega)
    rwa [hchar (by omega)] at h
  · have h := hruns.2.1 (c.toNat - 97) (by omega)
    rw [hchar (by omega)] at h
    omega
  · have h := hruns.2.2 (c.toNat - 65) (by omega)
    rw [hchar (by omega)] at h
    omega

theorem Base.isDigit_iff {base : Base} {c : Char} : base.IsDigit c ↔
    48 ≤ c.toNat ∧ c.toNat < 48 + min 10 base.radix ∨
      base.radix = 16 ∧ (97 ≤ c.toNat ∧ c.toNat ≤ 102 ∨ 65 ≤ c.toNat ∧ c.toNat ≤ 70) := by
  have hle : ∀ {d e : Char}, d ≤ e ↔ d.toNat ≤ e.toNat := UInt32.le_iff_toNat_le
  have heq : ∀ {d : Char}, c = d ↔ c.toNat = d.toNat := fun {d} => Char.toNat_inj.symm
  cases base <;> simp [IsDigit, hle, heq, radix] <;> omega

theorem Text.digitValue?_eq_some_iff {c : Char} {n : Nat} : Text.digitValue? c = some n ↔
    48 ≤ c.toNat ∧ c.toNat ≤ 57 ∧ n = c.toNat - 48 ∨
      97 ≤ c.toNat ∧ c.toNat ≤ 102 ∧ n = c.toNat - 87 ∨
      65 ≤ c.toNat ∧ c.toNat ≤ 70 ∧ n = c.toNat - 55 := by
  have hle : ∀ {d e : Char}, d ≤ e ↔ d.toNat ≤ e.toNat := UInt32.le_iff_toNat_le
  simp only [Text.digitValue?, hle, Char.reduceToNat]
  split_ifs
  · rw [Option.some.injEq]
    omega
  · rw [Option.some.injEq]
    omega
  · rw [Option.some.injEq]
    omega
  · constructor
    · exact False.elim
    · omega

theorem Base.isDigit_decimal_iff {c : Char} : Base.decimal.IsDigit c ↔ c.isDigit = true := by
  constructor
  · intro h
    exact Bool.and_eq_true_iff.2 ⟨decide_eq_true h.1, decide_eq_true h.2⟩
  · intro h
    obtain ⟨hlow, hhigh⟩ := Bool.and_eq_true_iff.1 h
    exact ⟨of_decide_eq_true hlow, of_decide_eq_true hhigh⟩

theorem Base.radix_cases (base : Base) :
    base.radix = 2 ∨ base.radix = 8 ∨ base.radix = 10 ∨ base.radix = 16 := by
  cases base <;> decide

/-- **The digits of a base** and their values, as the reader of digits finds them. -/
theorem Text.digitIn?_eq_some_iff {base : Base} {c : Char} {n : Nat} :
    Text.digitIn? base.radix c = some n ↔ base.IsDigit c ∧ n = digitOf c := by
  obtain ⟨hdigit, hlower, hupper⟩ := digitOf_eq (c := c)
  have hradix := base.radix_cases
  rw [Text.digitIn?, Option.filter_eq_some_iff, Text.digitValue?_eq_some_iff, Base.isDigit_iff,
    decide_eq_true_iff]
  constructor
  · rintro ⟨⟨hlow, hhigh, rfl⟩ | ⟨hlow, hhigh, rfl⟩ | ⟨hlow, hhigh, rfl⟩, hlt⟩
    · exact ⟨.inl ⟨hlow, by omega⟩, (hdigit hlow hhigh).symm⟩
    · exact ⟨.inr ⟨by omega, .inl ⟨hlow, hhigh⟩⟩, (hlower hlow hhigh).symm⟩
    · exact ⟨.inr ⟨by omega, .inr ⟨hlow, hhigh⟩⟩, (hupper hlow hhigh).symm⟩
  · rintro ⟨⟨hlow, hhigh⟩ | ⟨hsixteen, ⟨hlow, hhigh⟩ | ⟨hlow, hhigh⟩⟩, rfl⟩
    · have hvalue := hdigit hlow (by omega)
      exact ⟨.inl ⟨hlow, by omega, hvalue⟩, by omega⟩
    · have hvalue := hlower hlow hhigh
      exact ⟨.inr (.inl ⟨hlow, hhigh, hvalue⟩), by omega⟩
    · have hvalue := hupper hlow hhigh
      exact ⟨.inr (.inr ⟨hlow, hhigh, hvalue⟩), by omega⟩

/-! ## Runs of digits -/

theorem Base.placeValue_cons (base : Base) (c : Char) (digits : List Char) :
    base.placeValue (c :: digits) =
      base.placeValue digits + base.radix ^ digits.length * digitOf c := by
  rw [placeValue, List.map_cons, Nat.ofDigits_reverse_cons, List.length_map, placeValue]

/-- Reading goes on from a number that was read before: it is moved up by as many places as there
are digits. -/
theorem Text.foldlM_digitIn?_eq_some_iff {base : Base} {digits : List Char} {before n : Nat} :
    digits.foldlM (fun value c => (Text.digitIn? base.radix c).map (base.radix * value + ·))
        before = some n ↔
      (∀ c ∈ digits, base.IsDigit c) ∧
        n = base.radix ^ digits.length * before + base.placeValue digits := by
  induction digits generalizing before with
  | nil => simp [Base.placeValue, eq_comm]
  | cons c digits ih =>
    rw [List.foldlM_cons, List.forall_mem_cons, List.length_cons, Base.placeValue_cons]
    cases hc : Text.digitIn? base.radix c with
    | none =>
      have hdigit : ¬ base.IsDigit c := by
        intro h
        rw [Text.digitIn?_eq_some_iff.2 ⟨h, rfl⟩] at hc
        cases hc
      simp [hdigit]
    | some d =>
      obtain ⟨hdigit, rfl⟩ := Text.digitIn?_eq_some_iff.1 hc
      refine ih.trans ?_
      have hmoved : base.radix ^ digits.length * (base.radix * before + digitOf c) +
          base.placeValue digits = base.radix ^ (digits.length + 1) * before +
            (base.placeValue digits + base.radix ^ digits.length * digitOf c) := by ring
      rw [hmoved, and_iff_right hdigit]

/-- **Reading digits one by one** gives the number that they write by their places. -/
theorem Text.digitsValue?_eq_some_iff {base : Base} {digits : List Char} {n : Nat} :
    Text.digitsValue? base.radix digits = some n ↔
      digits ≠ [] ∧ (∀ c ∈ digits, base.IsDigit c) ∧ n = base.placeValue digits := by
  rw [Text.digitsValue?]
  split
  · next h => simp [List.isEmpty_iff.1 h]
  · next h =>
    rw [Text.foldlM_digitIn?_eq_some_iff, Nat.mul_zero, Nat.zero_add]
    exact (and_iff_right (mt List.isEmpty_iff.2 h)).symm

/-- Decimal digits, read together, have the value of their places. -/
theorem Base.ofDigitChars_eq {digits : List Char} (h : ∀ c ∈ digits, Base.decimal.IsDigit c) :
    Nat.ofDigitChars 10 digits 0 = Base.decimal.placeValue digits := by
  have hmoved : ∀ before, Nat.ofDigitChars 10 digits before =
      10 ^ digits.length * before + Base.decimal.placeValue digits := by
    induction digits with
    | nil => intro before; simp [placeValue]
    | cons c digits ih =>
      intro before
      obtain ⟨hc, hdigits⟩ := List.forall_mem_cons.1 h
      have hvalue : digitOf c = c.toNat - '0'.toNat := by
        rcases Base.isDigit_iff.1 hc with ⟨hlow, hhigh⟩ | ⟨hsixteen, -⟩
        · exact digitOf_eq.1 hlow (Nat.le_of_lt_succ hhigh)
        · cases hsixteen
      rw [Nat.ofDigitChars_cons, ih hdigits, Base.placeValue_cons, hvalue, List.length_cons, radix]
      ring
  rw [hmoved, Nat.mul_zero, Nat.zero_add]

theorem Text.isDigit_of_mem_toDigits {n : Nat} : ∀ c ∈ Nat.toDigits 10 n, c.isDigit = true := by
  intro c hc
  exact Nat.isDigit_of_mem_toDigits (by decide) (by decide) hc

theorem Base.isDigit_of_mem_toDigits {n : Nat} :
    ∀ c ∈ Nat.toDigits 10 n, Base.decimal.IsDigit c :=
  fun c hc => Base.isDigit_decimal_iff.2 (Text.isDigit_of_mem_toDigits c hc)

theorem Base.placeValue_toDigits (n : Nat) :
    Base.decimal.placeValue (Nat.toDigits 10 n) = n := by
  rw [← Base.ofDigitChars_eq Base.isDigit_of_mem_toDigits, Nat.ofDigitChars_ten_toDigits]

/-- A positive number is written without leading zeros. -/
theorem Text.head?_toDigits_ne {n : Nat} (h : 0 < n) :
    (Nat.toDigits 10 n).head? ≠ some '0' := by
  induction n using Nat.strongRecOn with
  | ind n ih =>
    rw [Nat.toDigits_eq_if (by decide)]
    by_cases hn : n < 10
    · rw [if_pos hn]
      have hdigit : ∀ m < 10, 0 < m → Nat.digitChar m ≠ '0' := by decide
      intro hhead
      exact hdigit n hn h (Option.some.inj hhead)
    · rw [if_neg hn, List.head?_append_of_ne_nil _ Nat.toDigits_ne_nil]
      exact ih (n / 10) (by omega) (by omega)

/-! ## Signs -/

/-- What a numeral may start with. -/
def signs : List (List Char) := [[], ['+'], ['-']]

/-- A number behind a sign. -/
def withSign (sign : List Char) (n : Nat) : Int := if sign = ['-'] then -n else n

/-- The sign of a number, if there is no plus sign. -/
def signText (negative : Bool) : List Char := if negative then ['-'] else []

theorem signText_mem (negative : Bool) : signText negative ∈ signs := by
  cases negative <;> decide

theorem signText_eq_minus (negative : Bool) : decide (signText negative = ['-']) = negative := by
  cases negative <;> rfl

theorem Base.IsDigit.ne_sign {base : Base} {c : Char} (h : base.IsDigit c) :
    c ≠ '+' ∧ c ≠ '-' := by
  have hlow : 48 ≤ c.toNat := by
    rcases Base.isDigit_iff.1 h with h | h <;> omega
  constructor
  · rintro rfl
    exact absurd hlow (by decide)
  · rintro rfl
    exact absurd hlow (by decide)

/-- A sign is split off from what starts with no other sign. -/
theorem Text.splitSign_append {sign rest : List Char} (hsign : sign ∈ signs)
    (hrest : ∀ c ∈ rest.head?, c ≠ '+' ∧ c ≠ '-') :
    Text.splitSign (sign ++ rest) = (decide (sign = ['-']), rest) := by
  simp only [signs, List.mem_cons, List.not_mem_nil, or_false] at hsign
  rcases hsign with rfl | rfl | rfl
  · rw [List.nil_append, Text.splitSign]
    · rfl
    · rintro tail rfl
      exact (hrest '-' rfl).2 rfl
    · rintro tail rfl
      exact (hrest '+' rfl).1 rfl
  · rfl
  · rfl

theorem Text.signed_eq_withSign (sign : List Char) (n : Nat) :
    Text.signed (decide (sign = ['-'])) n = withSign sign n := by
  simp only [Text.signed, withSign, decide_eq_true_iff]

/-- What is split off is a sign or nothing. -/
theorem Text.exists_sign (text : List Char) :
    ∃ sign ∈ signs, text = sign ++ (Text.splitSign text).2 ∧
      (Text.splitSign text).1 = decide (sign = ['-']) := by
  unfold Text.splitSign
  split
  · exact ⟨['-'], by decide, rfl, rfl⟩
  · exact ⟨['+'], by decide, rfl, rfl⟩
  · exact ⟨[], by decide, rfl, rfl⟩

/-- An integer is its sign and its absolute value. -/
theorem Text.signed_natAbs (n : Int) : Text.signed (decide (n < 0)) n.natAbs = n := by
  unfold Text.signed
  by_cases hneg : n < 0
  · rw [decide_eq_true hneg, if_pos rfl]
    omega
  · rw [decide_eq_false hneg, if_neg Bool.false_ne_true]
    omega

theorem withSign_natAbs (n : Int) : withSign (signText (decide (n < 0))) n.natAbs = n := by
  rw [← Text.signed_eq_withSign, signText_eq_minus, Text.signed_natAbs]

/-- The text of an integer is its sign and the digits of its absolute value. -/
theorem Text.toList_intText (n : Int) : (Text.intText n).toList =
    signText (decide (n < 0)) ++ Nat.toDigits 10 n.natAbs := by
  unfold Text.intText Text.natText
  by_cases hneg : n < 0
  · rw [if_pos hneg, decide_eq_true hneg, String.toList_append, String.toList_ofList,
      String.toList_ofList]
    rfl
  · rw [if_neg hneg, decide_eq_false hneg, String.toList_ofList]
    rfl

end TagLang
