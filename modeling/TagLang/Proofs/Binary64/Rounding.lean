import Mathlib.Data.Int.Log
import Mathlib.Data.Rat.Floor
import Mathlib.Tactic.NormNum
import TagLang.Binary64.Shortest

/-!
# Rounding to binary64

Rounding is computed on a numerator and a denominator, on digits and on an exponent, but it depends
on the number alone that they stand for (`Binary64.nearestMagnitude_congr`,
`Decimal.toBinary64_congr`): the exponents that it goes by are the integer logarithms of that
number. A number of the format is its own rounding (`Decimal.toBinary64_eq_self`), and the finite
numbers are the roundings of what is below `Binary64.integerBound`
(`Decimal.isFinite_toBinary64_iff`).
-/

namespace TagLang

/-! ## Powers with a positive and a negative part -/

/-- A power with an exponent of either sign, as the quotient by which it is computed. -/
theorem pow_toNat_div_pow_toNat {b : Nat} (hb : 0 < b) (e : Int) :
    ((b ^ e.toNat : Nat) : ℚ) / ((b ^ (-e).toNat : Nat) : ℚ) = (b : ℚ) ^ e := by
  have hne : (b : ℚ) ≠ 0 := by positivity
  rcases Int.le_total 0 e with he | he
  · have hzero : (-e).toNat = 0 := by omega
    rw [hzero, pow_zero, Nat.cast_one, div_one, Nat.cast_pow, ← zpow_natCast,
      Int.toNat_of_nonneg he]
  · have hzero : e.toNat = 0 := by omega
    have hneg : ((-e).toNat : Int) = -e := Int.toNat_of_nonneg (by omega)
    rw [hzero, pow_zero, Nat.cast_one, one_div, Nat.cast_pow, ← zpow_natCast, hneg, zpow_neg,
      inv_inv]

theorem mul_pow_lt_mul_pow_iff (num : Nat) {den : Nat} (hden : 0 < den) (e : Int) :
    num * 2 ^ (-e).toNat < den * 2 ^ e.toNat ↔ (num : ℚ) / den < 2 ^ e := by
  have hpow := pow_toNat_div_pow_toNat (b := 2) (by decide) e
  have hpos : (0 : ℚ) < ((2 ^ (-e).toNat : Nat) : ℚ) := by positivity
  have hden' : (0 : ℚ) < den := by positivity
  rw [Nat.cast_two] at hpow
  rw [← hpow, div_lt_div_iff₀ hden' hpos, mul_comm ((2 ^ e.toNat : Nat) : ℚ)]
  norm_cast

/-! ## Quotients -/

theorem roundDiv_mul_left {k : Nat} (hk : 0 < k) (num den : Nat) :
    roundDiv (k * num) (k * den) = roundDiv num den := by
  unfold roundDiv
  rw [Nat.mul_div_mul_left _ _ hk, Nat.mul_mod_mul_left, Nat.mul_left_comm 2 k]
  have hlt : k * (2 * (num % den)) < k * den ↔ 2 * (num % den) < den := Nat.mul_lt_mul_left hk
  have hgt : k * den < k * (2 * (num % den)) ↔ den < 2 * (num % den) := Nat.mul_lt_mul_left hk
  simp only [hlt, hgt]

/-- A quotient is rounded as a number. -/
theorem roundDiv_congr {a b c d : Nat} (hb : 0 < b) (hd : 0 < d) (h : a * d = c * b) :
    roundDiv a b = roundDiv c d := by
  rw [← roundDiv_mul_left hd a b, ← roundDiv_mul_left hb c d, Nat.mul_comm d a, h, Nat.mul_comm c b,
    Nat.mul_comm d b]

theorem roundDiv_mul_self {den : Nat} (hden : 0 < den) (n : Nat) : roundDiv (n * den) den = n := by
  unfold roundDiv
  rw [Nat.mul_div_cancel _ hden, Nat.mul_mod_left]
  exact if_pos hden

theorem le_roundDiv {num den n : Nat} (hden : 0 < den) (h : (n : ℚ) ≤ (num : ℚ) / den) :
    n ≤ roundDiv num den := by
  have hmul : n * den ≤ num := by
    rw [le_div_iff₀ (by positivity)] at h
    exact_mod_cast h
  have hle : n ≤ num / den := (Nat.le_div_iff_mul_le hden).2 hmul
  unfold roundDiv
  dsimp only
  split_ifs <;> omega

theorem roundDiv_le {num den n : Nat} (hden : 0 < den) (h : (num : ℚ) / den ≤ n) :
    roundDiv num den ≤ n := by
  have hmul : num ≤ n * den := by
    rw [div_le_iff₀ (by positivity)] at h
    exact_mod_cast h
  rcases Nat.eq_or_lt_of_le hmul with rfl | hlt
  · exact (roundDiv_mul_self hden n).le
  · have hquotient : num / den < n := (Nat.div_lt_iff_lt_mul hden).2 hlt
    unfold roundDiv
    dsimp only
    split_ifs <;> omega

/-- What is nearer to an odd number than to the next one is not rounded past it; the half between
them is, since it goes to the even one. -/
theorem roundDiv_le_iff_of_odd {num den n : Nat} (hden : 0 < den) (hodd : n % 2 = 1) :
    roundDiv num den ≤ n ↔ (num : ℚ) / den < n + 1 / 2 := by
  have hhalf : (num : ℚ) / den < n + 1 / 2 ↔ 2 * num < 2 * (den * n) + den := by
    have hpos : (0 : ℚ) < den := by positivity
    have hcast : 2 * num < 2 * (den * n) + den ↔ 2 * (num : ℚ) < 2 * (den * n) + den := by
      norm_cast
    rw [hcast, div_lt_iff₀ hpos]
    constructor <;> intro h <;> linarith
  have hsplit : den * (num / den) + num % den = num := Nat.div_add_mod num den
  have hrest : num % den < den := Nat.mod_lt num hden
  rw [hhalf]
  unfold roundDiv
  dsimp only
  rcases Nat.lt_trichotomy (num / den) n with hlt | heq | hgt
  · have hmul : den * (num / den) + den ≤ den * n := Nat.mul_le_mul_left den hlt
    split_ifs <;> omega
  · rw [heq] at hsplit ⊢
    split_ifs <;> omega
  · have hmul : den * n + den ≤ den * (num / den) := Nat.mul_le_mul_left den hgt
    split_ifs <;> omega

namespace Binary64

/-- A quotient lies between the powers that the lengths of its two numbers give. -/
theorem zpow_log2_sub_bounds {num den : Nat} (hnum : 0 < num) (hden : 0 < den) :
    (2 : ℚ) ^ ((num.log2 : Int) - den.log2 - 1) ≤ (num : ℚ) / den ∧
      (num : ℚ) / den < 2 ^ ((num.log2 : Int) - den.log2 + 1) := by
  have hnumLow : (2 : ℚ) ^ num.log2 ≤ num := mod_cast Nat.log2_self_le hnum.ne'
  have hnumHigh : (num : ℚ) < 2 ^ (num.log2 + 1) := mod_cast Nat.lt_log2_self
  have hdenLow : (2 : ℚ) ^ den.log2 ≤ den := mod_cast Nat.log2_self_le hden.ne'
  have hdenHigh : (den : ℚ) < 2 ^ (den.log2 + 1) := mod_cast Nat.lt_log2_self
  have hden' : (0 : ℚ) < den := by positivity
  constructor
  · have hsplit : (2 : ℚ) ^ ((num.log2 : Int) - den.log2 - 1) =
        2 ^ num.log2 / 2 ^ (den.log2 + 1) := by
      rw [sub_sub, zpow_sub₀ (by norm_num)]
      norm_cast
    rw [hsplit]
    exact div_le_div₀ (by positivity) hnumLow hden' hdenHigh.le
  · have hsplit : (2 : ℚ) ^ ((num.log2 : Int) - den.log2 + 1) =
        2 ^ (num.log2 + 1) / 2 ^ den.log2 := by
      rw [sub_add_eq_add_sub, zpow_sub₀ (by norm_num)]
      norm_cast
    rw [hsplit]
    exact div_lt_div₀ hnumHigh hdenLow (by positivity) (by positivity)

/-- **The exponent is the logarithm of the quotient.** -/
theorem binaryExponent_eq_log {num den : Nat} (hnum : 0 < num) (hden : 0 < den) :
    binaryExponent num den = Int.log 2 ((num : ℚ) / den) := by
  have hpos : (0 : ℚ) < (num : ℚ) / den := by positivity
  obtain ⟨hlow, hhigh⟩ := zpow_log2_sub_bounds hnum hden
  rw [← Nat.cast_two, Int.zpow_le_iff_le_log (by decide) hpos] at hlow
  rw [← Nat.cast_two, Int.lt_zpow_iff_log_lt (by decide) hpos] at hhigh
  have htest := mul_pow_lt_mul_pow_iff num hden ((num.log2 : Int) - den.log2)
  rw [← Nat.cast_two (R := ℚ), Int.lt_zpow_iff_log_lt (by decide) hpos] at htest
  unfold binaryExponent
  dsimp only
  by_cases h : num * Nat.pow 2 (-((num.log2 : Int) - den.log2)).toNat <
      den * Nat.pow 2 ((num.log2 : Int) - den.log2).toNat
  · rw [if_pos h]
    have hlt := htest.1 h
    omega
  · rw [if_neg h]
    have hge := mt htest.2 h
    omega

theorem scaled_pos {den : Nat} (hden : 0 < den) (unit : Int) : 0 < den * Nat.pow 2 unit.toNat :=
  Nat.mul_pos hden (Nat.two_pow_pos _)

/-- **The nearest magnitude depends on the quotient alone.** -/
theorem nearestMagnitude_congr {a b c d : Nat} (ha : 0 < a) (hb : 0 < b) (hc : 0 < c) (hd : 0 < d)
    (h : (a : ℚ) / b = (c : ℚ) / d) : nearestMagnitude a b = nearestMagnitude c d := by
  have hcross : a * d = c * b := by
    rw [div_eq_div_iff (by positivity) (by positivity)] at h
    exact_mod_cast h
  have hexponent : binaryExponent a b = binaryExponent c d := by
    rw [binaryExponent_eq_log ha hb, binaryExponent_eq_log hc hd, h]
  unfold nearestMagnitude
  rw [hexponent]
  generalize max (-1074) (binaryExponent c d - 52) = unit
  dsimp only
  have hround : roundDiv (a * Nat.pow 2 (-unit).toNat) (b * Nat.pow 2 unit.toNat) =
      roundDiv (c * Nat.pow 2 (-unit).toNat) (d * Nat.pow 2 unit.toNat) := by
    refine roundDiv_congr (scaled_pos hb unit) (scaled_pos hd unit) ?_
    rw [Nat.mul_mul_mul_comm, hcross, Nat.mul_mul_mul_comm]
  rw [hround]

/-! ## The range of the format -/

/-- The bound of the range in units of the last place of the largest numbers. -/
theorem integerBound_eq : (integerBound : ℚ) = ((2 ^ 53 - 1 : Nat) + 1 / 2) * 2 ^ (971 : Int) := by
  have hcast : ∀ n k : Nat, ((n * Nat.pow 2 k : Nat) : ℚ) = n * 2 ^ k := by
    intro n k
    rw [Nat.pow_eq, Nat.cast_mul, Nat.cast_pow, Nat.cast_two]
  have hbound : (integerBound : ℚ) = (Nat.pow 2 54 - 1 : Nat) * 2 ^ 970 := by
    -- The exponent is hidden, so that the power is not computed.
    obtain ⟨k, hk⟩ : ∃ k, k = 970 := ⟨_, rfl⟩
    rw [integerBound, ← hk]
    exact hcast _ k
  have hpow : (2 : ℚ) ^ (971 : Int) = 2 * 2 ^ 970 := by
    rw [← pow_succ']
    exact zpow_natCast 2 971
  rw [hpow, hbound]
  generalize (2 : ℚ) ^ 970 = w
  norm_num
  ring

theorem zpow_le_integerBound {e : Int} (he : e ≤ 1023) : (2 : ℚ) ^ e ≤ integerBound := by
  have hunit : (0 : ℚ) < 2 ^ (971 : Int) := zpow_pos (by norm_num) _
  calc (2 : ℚ) ^ e ≤ 2 ^ ((52 : Nat) + 971 : Int) := zpow_le_zpow_right₀ (by norm_num) (by omega)
    _ = 2 ^ 52 * 2 ^ (971 : Int) := by rw [zpow_add₀ (by norm_num), zpow_natCast]
    _ ≤ integerBound := by
      rw [integerBound_eq]
      exact mul_le_mul_of_nonneg_right (by norm_num) hunit.le

theorem integerBound_le_zpow {e : Int} (he : 1024 ≤ e) : integerBound ≤ (2 : ℚ) ^ e := by
  have hunit : (0 : ℚ) < 2 ^ (971 : Int) := zpow_pos (by norm_num) _
  calc (integerBound : ℚ) ≤ 2 ^ 53 * 2 ^ (971 : Int) := by
        rw [integerBound_eq]
        exact mul_le_mul_of_nonneg_right (by norm_num) hunit.le
    _ = 2 ^ ((53 : Nat) + 971 : Int) := by rw [zpow_add₀ (by norm_num), zpow_natCast]
    _ ≤ 2 ^ e := zpow_le_zpow_right₀ (by norm_num) (by omega)

section Scaled

variable {num den : Nat} {e unit : Int}

/-- The quotient that is rounded counts units of the last place. -/
theorem scaled_div (num den : Nat) (unit : Int) :
    ((num * Nat.pow 2 (-unit).toNat : Nat) : ℚ) / (den * Nat.pow 2 unit.toNat : Nat) =
      (num : ℚ) / den / 2 ^ unit := by
  have hpow := pow_toNat_div_pow_toNat (b := 2) (by decide) unit
  rw [Nat.cast_two] at hpow
  rw [← hpow, Nat.cast_mul, Nat.cast_mul, div_div_div_eq]
  rfl

theorem roundDiv_scaled_le (hden : 0 < den) (h : (num : ℚ) / den < 2 ^ (e + 1))
    (hunit : e - 52 ≤ unit) :
    roundDiv (num * Nat.pow 2 (-unit).toNat) (den * Nat.pow 2 unit.toNat) ≤ 2 ^ 53 := by
  refine roundDiv_le (scaled_pos hden unit) ?_
  rw [scaled_div, div_le_iff₀ (zpow_pos (by norm_num) _), Nat.cast_pow, Nat.cast_two,
    ← zpow_natCast, ← zpow_add₀ (by norm_num)]
  exact h.le.trans (zpow_le_zpow_right₀ (by norm_num) (by omega))

theorem le_roundDiv_scaled (hden : 0 < den) (h : 2 ^ e ≤ (num : ℚ) / den) (hunit : unit + 52 ≤ e) :
    2 ^ 52 ≤ roundDiv (num * Nat.pow 2 (-unit).toNat) (den * Nat.pow 2 unit.toNat) := by
  refine le_roundDiv (scaled_pos hden unit) ?_
  rw [scaled_div, le_div_iff₀ (zpow_pos (by norm_num) _), Nat.cast_pow, Nat.cast_two,
    ← zpow_natCast, ← zpow_add₀ (by norm_num)]
  exact (zpow_le_zpow_right₀ (by norm_num) (by omega)).trans h

/-- The largest numbers have 53 bits, and what is rounded past them is told by a half unit. -/
theorem roundDiv_scaled_le_iff (hden : 0 < den) (hunit : unit = 971) :
    roundDiv (num * Nat.pow 2 (-unit).toNat) (den * Nat.pow 2 unit.toNat) ≤ 2 ^ 53 - 1 ↔
      (num : ℚ) / den < integerBound := by
  rw [roundDiv_le_iff_of_odd (scaled_pos hden unit) (by decide), scaled_div,
    div_lt_iff₀ (zpow_pos (by norm_num) _), hunit, ← integerBound_eq]

theorem nearestMagnitude_le (num den : Nat) : nearestMagnitude num den ≤ infinity := min_le_left _ _

/-- **The range of the format** ends half way between its largest number and the next power of two:
exactly what lies below is rounded to a finite number. -/
theorem nearestMagnitude_lt_infinity_iff (hnum : 0 < num) (hden : 0 < den) :
    nearestMagnitude num den < infinity ↔ (num : ℚ) / den < integerBound := by
  have hpos : (0 : ℚ) < (num : ℚ) / den := by positivity
  have hlow : (2 : ℚ) ^ Int.log 2 ((num : ℚ) / den) ≤ (num : ℚ) / den := by
    simpa using Int.zpow_log_le_self (b := 2) (by decide) hpos
  have hhigh : (num : ℚ) / den < 2 ^ (Int.log 2 ((num : ℚ) / den) + 1) := by
    simpa using Int.lt_zpow_succ_log_self (b := 2) (by decide) ((num : ℚ) / den)
  unfold nearestMagnitude
  rw [binaryExponent_eq_log hnum hden]
  generalize Int.log 2 ((num : ℚ) / den) = e at hlow hhigh ⊢
  dsimp only
  -- Below the last binade nothing is rounded past it, above it everything is.
  rcases Int.lt_trichotomy e 1023 with he | rfl | he
  · have hround := roundDiv_scaled_le hden hhigh (le_max_right (-1074) _)
    refine iff_of_true ?_ (hhigh.trans_le (zpow_le_integerBound (by omega)))
    generalize roundDiv _ _ = significand at hround ⊢
    unfold infinity exponentUnit
    omega
  · -- The binade of the largest numbers, where the bound lies.
    rw [max_eq_right (by decide : (-1074 : Int) ≤ 1023 - 52),
      ← roundDiv_scaled_le_iff hden (by decide : (1023 - 52 : Int) = 971)]
    generalize roundDiv _ _ = significand
    unfold infinity exponentUnit
    omega
  · rw [max_eq_right (by omega : (-1074 : Int) ≤ e - 52)]
    have hround := le_roundDiv_scaled hden hlow (Int.sub_add_cancel e 52).le
    refine iff_of_false ?_ (not_lt.2 ((integerBound_le_zpow (by omega)).trans hlow))
    generalize roundDiv _ _ = significand at hround ⊢
    unfold infinity exponentUnit
    omega

end Scaled

/-! ## Numbers of the format -/

variable {x : Binary64}

/-- The absolute value of a finite word. -/
def value (x : Binary64) : ℚ := x.significand * 2 ^ x.exponent

theorem numerator_div_denominator : (x.numerator : ℚ) / x.denominator = x.value := by
  have hpow := pow_toNat_div_pow_toNat (b := 2) (by decide) x.exponent
  unfold value numerator denominator
  rw [Nat.cast_two] at hpow
  rw [← hpow, Nat.cast_mul, mul_div_assoc]
  rfl

/-- A word is its sign and its magnitude. -/
theorem ofMagnitude_magnitude (x : Binary64) : ofMagnitude x.negative x.magnitude = x := by
  obtain ⟨bits⟩ := x
  have hlt := bits.toNat_lt
  unfold ofMagnitude negative magnitude
  dsimp only
  congr 1
  rw [← UInt64.toNat_inj, UInt64.toNat_ofNat']
  unfold signUnit
  by_cases h : 0x8000000000000000 ≤ bits.toNat
  · rw [decide_eq_true h, if_pos rfl]
    omega
  · rw [decide_eq_false h, if_neg Bool.false_ne_true]
    omega

theorem magnitude_ofMagnitude (negative : Bool) {n : Nat} (h : n < signUnit) :
    (ofMagnitude negative n).magnitude = n := by
  unfold ofMagnitude magnitude
  dsimp only
  unfold signUnit at h ⊢
  rw [UInt64.toNat_ofNat']
  cases negative with
  | true => rw [if_pos rfl]; omega
  | false => rw [if_neg Bool.false_ne_true]; omega

theorem isFinite_ofMagnitude {negative : Bool} {n : Nat} (h : n ≤ infinity) :
    (ofMagnitude negative n).isFinite = true ↔ n < infinity := by
  rw [isFinite, decide_eq_true_iff, magnitude_ofMagnitude negative (h.trans_lt (by decide))]

/-- What the fields of a finite word can be: the significand has 53 bits, and fewer only at the
least exponent. -/
theorem scale_bounds (h : x.isFinite = true) :
    x.significand < 2 * exponentUnit ∧ 1 ≤ x.scale ∧ x.scale ≤ 2046 ∧
      (x.scale = 1 ∨ exponentUnit ≤ x.significand) ∧
      x.magnitude = (x.scale - 1) * exponentUnit + x.significand := by
  have hfinite : x.magnitude < 0x7FF * exponentUnit := of_decide_eq_true h
  unfold significand scale
  unfold exponentUnit at hfinite ⊢
  split <;> omega

theorem significand_pos (hne : x.magnitude ≠ 0) : 0 < x.significand := by
  unfold significand exponentUnit
  split <;> omega

theorem value_pos (hne : x.magnitude ≠ 0) : 0 < x.value := by
  have hsignificand : (0 : ℚ) < x.significand := mod_cast significand_pos hne
  exact mul_pos hsignificand (zpow_pos (by norm_num) _)

theorem value_of_magnitude_eq_zero (h : x.magnitude = 0) : x.value = 0 := by
  unfold value significand
  rw [h, if_pos (by decide), Nat.cast_zero, zero_mul]

theorem denominator_pos : 0 < x.denominator := Nat.two_pow_pos _

theorem numerator_pos (hne : x.magnitude ≠ 0) : 0 < x.numerator :=
  Nat.mul_pos (significand_pos hne) (Nat.two_pow_pos _)

/-- The binade of a finite number: its significand has 53 bits, and it may have fewer only at the
least exponent. -/
theorem log_value (h : x.isFinite = true) (hne : x.magnitude ≠ 0) :
    Int.log 2 x.value < x.exponent + 53 ∧ (x.scale = 1 ∨ x.exponent + 52 ≤ Int.log 2 x.value) := by
  obtain ⟨hlt, -, -, hge, -⟩ := scale_bounds h
  have hpos := value_pos hne
  have htwo : (0 : ℚ) < 2 ^ x.exponent := zpow_pos (by norm_num) _
  constructor
  · rw [← Int.lt_zpow_iff_log_lt (by decide) hpos, Nat.cast_two, Int.add_comm,
      zpow_add₀ (by norm_num)]
    refine mul_lt_mul_of_pos_right ?_ htwo
    have hbound : (x.significand : ℚ) < ((2 * exponentUnit : Nat) : ℚ) := mod_cast hlt
    exact hbound.trans_eq (by norm_num [exponentUnit])
  · refine hge.imp_right fun hge => ?_
    rw [← Int.zpow_le_iff_le_log (by decide) hpos, Nat.cast_two, Int.add_comm,
      zpow_add₀ (by norm_num)]
    refine mul_le_mul_of_nonneg_right ?_ htwo.le
    have hbound : ((exponentUnit : Nat) : ℚ) ≤ (x.significand : ℚ) := mod_cast hge
    exact Eq.trans_le (by norm_num [exponentUnit]) hbound

/-- The range of the format. -/
theorem value_bounds (h : x.isFinite = true) (hne : x.magnitude ≠ 0) :
    (2 : ℚ) ^ (-1074 : Int) ≤ x.value ∧ x.value < 2 ^ (1024 : Int) := by
  obtain ⟨-, hscaleLow, hscaleHigh, -, -⟩ := scale_bounds h
  have hexponent : x.exponent = (x.scale : Int) - 1075 := rfl
  constructor
  · have hone : (1 : ℚ) ≤ x.significand := mod_cast significand_pos hne
    have hleast : (2 : ℚ) ^ (-1074 : Int) ≤ 2 ^ x.exponent :=
      zpow_le_zpow_right₀ (by norm_num) (by omega)
    exact hleast.trans (le_mul_of_one_le_left (zpow_pos (by norm_num) _).le hone)
  · have hlog := (log_value h hne).1
    rw [← Nat.cast_two, Int.lt_zpow_iff_log_lt (by decide) (value_pos hne)]
    omega

/-- **A number of the format is the nearest one to itself.** -/
theorem nearestMagnitude_self (h : x.isFinite = true) (hne : x.magnitude ≠ 0) :
    nearestMagnitude x.numerator x.denominator = x.magnitude := by
  obtain ⟨-, hscale, -, -, hmagnitude⟩ := scale_bounds h
  obtain ⟨hhigh, hlow⟩ := log_value h hne
  have hfinite : x.magnitude < infinity := of_decide_eq_true h
  have hexponent : x.exponent = (x.scale : Int) - 1075 := rfl
  have hunit : max (-1074) (binaryExponent x.numerator x.denominator - 52) = x.exponent := by
    rw [binaryExponent_eq_log (numerator_pos hne) denominator_pos, numerator_div_denominator]
    omega
  have hround : roundDiv (x.numerator * Nat.pow 2 (-x.exponent).toNat)
      (x.denominator * Nat.pow 2 x.exponent.toNat) = x.significand := by
    have hswap : x.numerator * Nat.pow 2 (-x.exponent).toNat =
        x.significand * (x.denominator * Nat.pow 2 x.exponent.toNat) := by
      unfold numerator denominator
      rw [Nat.mul_assoc, Nat.mul_comm (Nat.pow 2 (-x.exponent).toNat)]
    rw [hswap]
    exact roundDiv_mul_self (Nat.mul_pos denominator_pos (Nat.two_pow_pos _)) _
  unfold nearestMagnitude
  dsimp only
  rw [hunit, hround]
  have hsteps : (x.exponent + 1074).toNat = x.scale - 1 := by omega
  rw [hsteps, ← hmagnitude]
  exact Nat.min_eq_right hfinite.le

end Binary64

/-! ## Decimals -/

namespace Decimal

variable {d d' : Decimal}

/-- The absolute value of a decimal. -/
def value (d : Decimal) : ℚ := d.digits * 10 ^ d.exponent

theorem value_eq_zero_iff : d.value = 0 ↔ d.digits = 0 := by
  have hpow : (10 : ℚ) ^ d.exponent ≠ 0 := zpow_ne_zero _ (by norm_num)
  unfold value
  rw [mul_eq_zero, or_iff_left hpow, Nat.cast_eq_zero]

theorem value_pos (h : d.digits ≠ 0) : 0 < d.value := by
  have hdigits : (0 : ℚ) < d.digits := mod_cast Nat.pos_of_ne_zero h
  exact mul_pos hdigits (zpow_pos (by norm_num) _)

theorem div_eq_value (d : Decimal) :
    ((d.digits * Nat.pow 10 d.exponent.toNat : Nat) : ℚ) / (Nat.pow 10 (-d.exponent).toNat : Nat) =
      d.value := by
  have hpow := pow_toNat_div_pow_toNat (b := 10) (by decide) d.exponent
  unfold value
  rw [Nat.cast_ofNat] at hpow
  rw [← hpow, Nat.cast_mul, mul_div_assoc]
  rfl

/-- The size of a decimal is the logarithm of its value. -/
theorem size_eq_log (h : d.digits ≠ 0) : d.size = Int.log 10 d.value + 1 := by
  have hpos := value_pos h
  have hten : (0 : ℚ) < 10 ^ d.exponent := zpow_pos (by norm_num) _
  have hlength : 0 < (Nat.toDigits 10 d.digits).length := Nat.length_toDigits_pos
  have hiff := fun k (hk : 0 < k) =>
    Nat.length_toDigits_le_iff (b := 10) (n := d.digits) (by decide) hk
  unfold size
  generalize (Nat.toDigits 10 d.digits).length = n at hlength hiff
  have hhigh : Int.log 10 d.value < n + d.exponent := by
    have hlt : (d.digits : ℚ) < ((10 ^ n : Nat) : ℚ) := mod_cast (hiff n hlength).1 (Nat.le_refl n)
    rw [← Int.lt_zpow_iff_log_lt (by decide) hpos, Nat.cast_ofNat, zpow_add₀ (by norm_num)]
    refine mul_lt_mul_of_pos_right (hlt.trans_eq ?_) hten
    rw [Nat.cast_pow, zpow_natCast, Nat.cast_ofNat]
  have hlow : ((n - 1 : Nat) : Int) + d.exponent ≤ Int.log 10 d.value := by
    have hle : 10 ^ (n - 1) ≤ d.digits := by
      by_cases hone : n = 1
      · rw [hone]
        exact Nat.pos_of_ne_zero h
      · have hnot := mt (hiff (n - 1) (by omega)).2 (by omega)
        omega
    have hle' : ((10 ^ (n - 1) : Nat) : ℚ) ≤ (d.digits : ℚ) := mod_cast hle
    rw [← Int.zpow_le_iff_le_log (by decide) hpos, Nat.cast_ofNat, zpow_add₀ (by norm_num)]
    refine mul_le_mul_of_nonneg_right (Eq.trans_le ?_ hle') hten.le
    rw [Nat.cast_pow, zpow_natCast, Nat.cast_ofNat]
  omega

/-- **Rounding depends on the number alone**, not on how its digits are placed. -/
theorem toBinary64_congr (hsign : d.negative = d'.negative) (hvalue : d.value = d'.value) :
    d.toBinary64 = d'.toBinary64 := by
  have hzero : d.digits = 0 ↔ d'.digits = 0 := by
    rw [← value_eq_zero_iff, ← value_eq_zero_iff, hvalue]
  unfold toBinary64
  by_cases h : d.digits = 0
  · rw [if_pos (.inl h), if_pos (.inl (hzero.1 h)), hsign]
  · have h' := mt hzero.2 h
    have hsize : d.size = d'.size := by rw [size_eq_log h, size_eq_log h', hvalue]
    have hnearest : Binary64.nearestMagnitude (d.digits * Nat.pow 10 d.exponent.toNat)
          (Nat.pow 10 (-d.exponent).toNat) =
        Binary64.nearestMagnitude (d'.digits * Nat.pow 10 d'.exponent.toNat)
          (Nat.pow 10 (-d'.exponent).toNat) := by
      have hten : ∀ k, 0 < Nat.pow 10 k := fun k => Nat.pow_pos (by decide)
      refine Binary64.nearestMagnitude_congr (Nat.mul_pos (Nat.pos_of_ne_zero h) (hten _)) (hten _)
        (Nat.mul_pos (Nat.pos_of_ne_zero h') (hten _)) (hten _) ?_
      rw [div_eq_value, div_eq_value, hvalue]
    simp only [h, h', false_or, hsize, hsign, hnearest]

theorem two_zpow_lt_ten_zpow : (2 : ℚ) ^ (1024 : Int) < ((10 : Nat) : ℚ) ^ (309 : Int) := by
  have hlt : 2 ^ 1024 < 10 ^ 309 := by decide +kernel
  exact_mod_cast hlt

/-- The size of a number of the format is not told to be beyond its range. -/
theorem size_of_value_eq {x : Binary64} (hfinite : x.isFinite = true) (hne : x.magnitude ≠ 0)
    (h : d.digits ≠ 0) (hvalue : d.value = x.value) : ¬ d.size < -323 ∧ ¬ 309 < d.size := by
  have hpos := value_pos h
  obtain ⟨hlow, hhigh⟩ := Binary64.value_bounds hfinite hne
  have hlow' : -324 ≤ Int.log 10 d.value := by
    have hpowers : (2 : ℚ) ^ (1074 : Int) ≤ 10 ^ (324 : Int) := by
      have hle : 2 ^ 1074 ≤ 10 ^ 324 := by decide +kernel
      exact_mod_cast hle
    rw [← Int.zpow_le_iff_le_log (by decide) hpos, hvalue, Nat.cast_ofNat]
    refine le_trans ?_ hlow
    rw [zpow_neg, zpow_neg]
    exact inv_anti₀ (zpow_pos (by norm_num) _) hpowers
  have hhigh' : Int.log 10 d.value < 309 := by
    rw [← Int.lt_zpow_iff_log_lt (by decide) hpos, hvalue]
    exact hhigh.trans two_zpow_lt_ten_zpow
  rw [size_eq_log h]
  omega

/-- **A number of the format is its own rounding.** -/
theorem toBinary64_eq_self {x : Binary64} (hfinite : x.isFinite = true)
    (hsign : d.negative = x.negative) (hvalue : d.value = x.value) : d.toBinary64 = x := by
  unfold toBinary64
  by_cases hne : x.magnitude = 0
  · rw [Binary64.value_of_magnitude_eq_zero hne, value_eq_zero_iff] at hvalue
    rw [if_pos (.inl hvalue), hsign, ← hne]
    exact x.ofMagnitude_magnitude
  · have h : d.digits ≠ 0 := by
      rw [Ne, ← value_eq_zero_iff, hvalue]
      exact (Binary64.value_pos hne).ne'
    obtain ⟨hlow, hhigh⟩ := size_of_value_eq hfinite hne h hvalue
    have hten : ∀ k, 0 < Nat.pow 10 k := fun k => Nat.pow_pos (by decide)
    have hnearest : Binary64.nearestMagnitude (d.digits * Nat.pow 10 d.exponent.toNat)
        (Nat.pow 10 (-d.exponent).toNat) = x.magnitude := by
      rw [← Binary64.nearestMagnitude_self hfinite hne]
      refine Binary64.nearestMagnitude_congr (Nat.mul_pos (Nat.pos_of_ne_zero h) (hten _)) (hten _)
        (Binary64.numerator_pos hne) Binary64.denominator_pos ?_
      rw [div_eq_value, Binary64.numerator_div_denominator, hvalue]
    rw [if_neg (not_or.2 ⟨h, hlow⟩), if_neg hhigh, hnearest, hsign]
    exact x.ofMagnitude_magnitude

/-- **A decimal is rounded to a finite number** exactly if it is below the bound. -/
theorem isFinite_toBinary64_iff :
    d.toBinary64.isFinite = true ↔ d.value < Binary64.integerBound := by
  have hbound : (1 : ℚ) ≤ Binary64.integerBound :=
    Binary64.zpow_le_integerBound (e := 0) (by decide)
  unfold toBinary64
  by_cases h : d.digits = 0
  · rw [if_pos (.inl h), value_eq_zero_iff.2 h, Binary64.isFinite_ofMagnitude (Nat.zero_le _)]
    exact iff_of_true (by decide) (zero_lt_one.trans_le hbound)
  · have hpos := value_pos h
    have hsize := size_eq_log h
    by_cases hlow : d.size < -323
    · have hvalue : d.value < 10 ^ (0 : Int) :=
        (Int.lt_zpow_iff_log_lt (b := 10) (by decide) hpos).2 (by omega)
      rw [if_pos (.inr hlow), Binary64.isFinite_ofMagnitude (Nat.zero_le _)]
      exact iff_of_true (by decide) (hvalue.trans_le hbound)
    · rw [if_neg (not_or.2 ⟨h, hlow⟩)]
      by_cases hhigh : 309 < d.size
      · -- Told by its size alone, and the power of ten is beyond the bound.
        have hvalue : ((10 : Nat) : ℚ) ^ (309 : Int) ≤ d.value :=
          (Int.zpow_le_iff_le_log (by decide) hpos).2 (by omega)
        have hge : Binary64.integerBound ≤ d.value :=
          (Binary64.integerBound_le_zpow (Int.le_refl _)).trans
            (two_zpow_lt_ten_zpow.le.trans hvalue)
        rw [if_pos hhigh, Binary64.isFinite_ofMagnitude (Nat.le_refl _)]
        exact iff_of_false (Nat.lt_irrefl _) (not_lt.2 hge)
      · have hten : ∀ k, 0 < Nat.pow 10 k := fun k => Nat.pow_pos (by decide)
        rw [if_neg hhigh, Binary64.isFinite_ofMagnitude (Binary64.nearestMagnitude_le _ _),
          Binary64.nearestMagnitude_lt_infinity_iff
            (Nat.mul_pos (Nat.pos_of_ne_zero h) (hten _)) (hten _), div_eq_value]

end Decimal

end TagLang
