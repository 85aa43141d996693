import TagLang.Json.Reader
import TagLang.Json.Writer
import TagLang.Proofs.Binary64.Text

/-!
# Scalars of JSON text

Strings, numbers and words are read as what they were written for. A string ends at its own closing
quote, whatever follows it (`delimits_quote`). A number ends where a character follows that no
number has, as it does in every JSON text (`lexes_intText`, `lexes_floatText`). The one thing that
is lost is a number that is not finite: it is written as `null`.
-/

namespace TagLang.Json

/-! ## Cutting a text into lexemes -/

section

variable {done : List Lexeme} {c : Char} {text rest : List Char}

theorem lexemesFrom_space (hc : isSpace c = true) :
    lexemesFrom done (c :: text) = lexemesFrom done text := by
  rw [lexemesFrom, if_pos hc]

theorem lexemesFrom_lexeme {l : Lexeme} (hc : isSpace c = false)
    (h : lexeme? c text = some (l, rest)) :
    lexemesFrom done (c :: text) = lexemesFrom (l :: done) rest := by
  rw [lexemesFrom, if_neg (by rw [hc]; exact Bool.false_ne_true)]
  split <;> simp_all

end

/-- Whether neither a number nor a word goes on with a text. -/
def stops : List Char → Bool
  | [] => true
  | c :: _ => !isNumberChar c && !c.isAlpha

/-- A text is cut into lexemes if no number and no word goes on behind it. -/
def Lexes (text : List Char) (lexemes : List Lexeme) : Prop :=
  ∀ done rest, stops rest = true →
    lexemesFrom done (text ++ rest) = lexemesFrom (lexemes.reverse ++ done) rest

/-- A text is cut into lexemes, whatever follows it. -/
def Delimits (text : List Char) (lexemes : List Lexeme) : Prop :=
  ∀ done rest, lexemesFrom done (text ++ rest) = lexemesFrom (lexemes.reverse ++ done) rest

theorem not_of_stops {rest : List Char} (h : stops rest = true) :
    ∀ c ∈ rest.head?, isNumberChar c = false ∧ c.isAlpha = false := by
  cases rest with
  | nil => rintro c ⟨⟩
  | cons d rest =>
    rintro _ ⟨⟩
    unfold stops at h
    rwa [Bool.and_eq_true, Bool.not_eq_true', Bool.not_eq_true'] at h

section

variable {a b : List Char} {x y : List Lexeme}

theorem Delimits.lexes (h : Delimits a x) : Lexes a x := fun done rest _ => h done rest

theorem lexes_nil : Lexes [] [] := fun _ _ _ => rfl

theorem Delimits.append (ha : Delimits a x) (hb : Delimits b y) : Delimits (a ++ b) (x ++ y) := by
  intro done rest
  rw [List.append_assoc, ha, hb, List.reverse_append, List.append_assoc]

theorem Delimits.append_lexes (ha : Delimits a x) (hb : Lexes b y) : Lexes (a ++ b) (x ++ y) := by
  intro done rest hrest
  rw [List.append_assoc, ha, hb _ _ hrest, List.reverse_append, List.append_assoc]

theorem Lexes.append_delimits (ha : Lexes a x) (hb : Delimits b y) (hne : b ≠ [])
    (hstops : stops b = true) : Delimits (a ++ b) (x ++ y) := by
  intro done rest
  have hstops' : stops (b ++ rest) = true := by
    obtain ⟨c, b, rfl⟩ := List.exists_cons_of_ne_nil hne
    exact hstops
  rw [List.append_assoc, ha _ _ hstops', hb, List.reverse_append, List.append_assoc]

end

theorem delimits_spaces {text : List Char} (h : ∀ c ∈ text, isSpace c = true) :
    Delimits text [] := by
  intro done rest
  induction text with
  | nil => rfl
  | cons c text ih =>
    rw [List.forall_mem_cons] at h
    rw [List.cons_append, lexemesFrom_space h.1]
    exact ih h.2

theorem delimits_singleton {c : Char} {l : Lexeme} (hc : isSpace c = false)
    (h : ∀ rest, lexeme? c rest = some (l, rest)) : Delimits [c] [l] := by
  intro done rest
  exact lexemesFrom_lexeme hc (h rest)

/-! ## Strings -/

/-- A control character is read from its four digits. -/
theorem unit?_control : ∀ n < 0x20,
    unit? '0' '0' (Nat.digitChar (n / 16)) (Nat.digitChar (n % 16)) = some n ∧
      isHighSurrogate n = false ∧ isLowSurrogate n = false := by
  decide

/-- **One character is read** from what is written for it. -/
theorem readString_encodeChar (done : List Char) (c : Char) (text : List Char) :
    readString done (encodeChar c ++ text) = readString (c :: done) text := by
  fun_cases encodeChar c with
  | case1 | case2 | case3 | case4 | case5 | case6 | case7 => rfl
  | case8 _ _ _ _ _ _ _ _ hcontrol =>
    obtain ⟨hunit, hhigh, hlow⟩ := unit?_control c.toNat hcontrol
    show readString done ('\\' :: 'u' :: '0' :: '0' :: Nat.digitChar (c.toNat / 16) ::
      Nat.digitChar (c.toNat % 16) :: text) = _
    rw [readString, hunit]
    simp only [hhigh, hlow, Bool.false_eq_true, if_false, Char.ofNat_toNat]
  | case9 _ hquote hslash _ _ _ _ _ hcontrol =>
    rw [List.singleton_append, readString, if_neg hcontrol]
    · exact hquote
    · exact fun _ _ _ _ _ hc _ => hslash hc
    · exact fun _ _ hc _ => hslash hc

theorem readString_encode (done text rest : List Char) :
    readString done (text.flatMap encodeChar ++ '"' :: rest) =
      some (String.ofList (done.reverse ++ text), rest) := by
  induction text generalizing done with
  | nil => rw [List.append_nil]; rfl
  | cons c text ih =>
    rw [List.flatMap_cons, List.append_assoc, readString_encodeChar, ih, List.reverse_cons,
      List.append_assoc]
    rfl

/-- **A string is read back**, and it ends at its own quote. -/
theorem delimits_quote (text : String) : Delimits (quote text).toList [.scalar (.str text)] := by
  intro done rest
  have htext : (quote text).toList ++ rest =
      '"' :: (text.toList.flatMap encodeChar ++ '"' :: rest) := by
    unfold quote
    simp
  have hlexeme : lexeme? '"' (text.toList.flatMap encodeChar ++ '"' :: rest) =
      some (.scalar (.str text), rest) := by
    unfold lexeme?
    rw [readString_encode, List.reverse_nil, List.nil_append, String.ofList_toList]
    rfl
  rw [htext]
  exact lexemesFrom_lexeme rfl hlexeme

/-! ## Numbers and words -/

theorem isNumberChar_of_isDigit {c : Char} (h : c.isDigit = true) : isNumberChar c = true := by
  unfold isNumberChar
  rw [h]
  rfl

/-- The characters that start neither a number nor a word. -/
def marks : List Char := ['[', ']', '\x7b', '\x7d', ',', ':', '"', ' ', '\t', '\n', '\r']

theorem isSpace_of_not_mem_marks {c : Char} (h : c ∉ marks) : isSpace c = false := by
  refine Bool.eq_false_iff.2 fun hspace => h ?_
  unfold isSpace at hspace
  simp only [Bool.or_eq_true, beq_iff_eq] at hspace
  rcases hspace with ((rfl | rfl) | rfl) | rfl <;> decide

theorem lexeme?_of_not_mem_marks {c : Char} (h : c ∉ marks) (rest : List Char) :
    lexeme? c rest =
      if c.isDigit || c == '-' then
        (numeral? (c :: rest.takeWhile isNumberChar)).map fun value =>
          (.scalar value, rest.dropWhile isNumberChar)
      else
        (word? (c :: rest.takeWhile Char.isAlpha)).map fun value =>
          (.scalar value, rest.dropWhile Char.isAlpha) := by
  rw [lexeme?]
  all_goals
    rintro rfl
    exact h (by decide)

theorem lexes_numeral {c : Char} {run : List Char} {value : Json}
    (hc : (c.isDigit || c == '-') = true) (hrun : ∀ d ∈ run, isNumberChar d = true)
    (hvalue : numeral? (c :: run) = some value) : Lexes (c :: run) [.scalar value] := by
  intro done rest hrest
  have hnone : ∀ d ∈ marks, ¬ (d.isDigit || d == '-') = true := List.any_eq_false.1 rfl
  have hmark : c ∉ marks := fun hmem => hnone c hmem hc
  obtain ⟨htake, hdrop⟩ := takeWhile_append_of_stop hrun fun d hd => (not_of_stops hrest d hd).1
  rw [List.cons_append]
  refine lexemesFrom_lexeme (isSpace_of_not_mem_marks hmark) ?_
  rw [lexeme?_of_not_mem_marks hmark, if_pos hc, htake, hdrop, hvalue]
  rfl

theorem lexes_word {c : Char} {run : List Char} {value : Json} (hmark : c ∉ marks)
    (hc : ¬ (c.isDigit || c == '-') = true) (hrun : ∀ d ∈ run, d.isAlpha = true)
    (hvalue : word? (c :: run) = some value) : Lexes (c :: run) [.scalar value] := by
  intro done rest hrest
  obtain ⟨htake, hdrop⟩ := takeWhile_append_of_stop hrun fun d hd => (not_of_stops hrest d hd).2
  rw [List.cons_append]
  refine lexemesFrom_lexeme (isSpace_of_not_mem_marks hmark) ?_
  rw [lexeme?_of_not_mem_marks hmark, if_neg hc, htake, hdrop, hvalue]
  rfl

theorem lexes_null : Lexes "null".toList [.scalar .null] := by
  rw [String.toList_ofList]
  exact lexes_word (by decide) (by decide) (List.all_eq_true.1 rfl) rfl

theorem lexes_true : Lexes "true".toList [.scalar (.bool true)] := by
  rw [String.toList_ofList]
  exact lexes_word (by decide) (by decide) (List.all_eq_true.1 rfl) rfl

theorem lexes_false : Lexes "false".toList [.scalar (.bool false)] := by
  rw [String.toList_ofList]
  exact lexes_word (by decide) (by decide) (List.all_eq_true.1 rfl) rfl

/-- How a numeral is cut up: its sign, the digits in front, and what follows them. -/
theorem numeral?_eq (negative : Bool) {whole : List Char} (rest : List Char) (hne : whole ≠ [])
    (hdigits : ∀ c ∈ whole, c.isDigit = true)
    (hleading : whole = ['0'] ∨ whole.head? ≠ some '0')
    (hrest : ∀ c ∈ rest.head?, c.isDigit = false) (hfraction : goodFraction rest = true) :
    numeral? (signText negative ++ (whole ++ rest)) =
      if rest.isEmpty then
        if negative && Nat.ofDigitChars 10 whole 0 == 0 then some (.float (.ofMagnitude true 0))
        else if Nat.ofDigitChars 10 whole 0 < Binary64.integerBound then
          some (.int (Text.signed negative (Nat.ofDigitChars 10 whole 0)))
        else none
      else (Decimal.ofText? (signText negative ++ (whole ++ rest))).bind fun decimal =>
        if decimal.toBinary64.isFinite then some (.float decimal.toBinary64) else none := by
  obtain ⟨htake, hdrop⟩ := takeWhile_append_of_stop hdigits hrest
  have hgood : ¬ (whole.isEmpty || (whole.head? == some '0' && decide (1 < whole.length)) ||
      !goodFraction rest) = true := by
    rw [hfraction]
    rcases hleading with rfl | hleading
    · decide
    · simp [hne, hleading]
  unfold numeral?
  split
  next sign unsigned hsplit =>
    have hboth : sign = negative ∧ unsigned = whole ++ rest := by
      cases negative with
      | true =>
        obtain ⟨rfl, rfl⟩ := Prod.mk.inj hsplit
        exact ⟨rfl, rfl⟩
      | false =>
        split at hsplit
        · next more hcons =>
          obtain ⟨c, digits, rfl⟩ := List.exists_cons_of_ne_nil hne
          have hdigit := hdigits c List.mem_cons_self
          rw [(List.cons.inj hcons).1] at hdigit
          cases hdigit
        · obtain ⟨rfl, rfl⟩ := Prod.mk.inj hsplit
          exact ⟨rfl, rfl⟩
    obtain ⟨rfl, rfl⟩ := hboth
    dsimp only
    rw [htake, hdrop, if_neg hgood]
    congr 1
    cases Decimal.ofText? (signText sign ++ (whole ++ rest)) <;> rfl

/-- What starts with a digit and has only characters of numbers is cut off as one lexeme. -/
theorem lexes_signed {negative : Bool} {c : Char} {run : List Char} {value : Json}
    (hc : c.isDigit = true) (hrun : ∀ d ∈ run, isNumberChar d = true)
    (hvalue : numeral? (signText negative ++ c :: run) = some value) :
    Lexes (signText negative ++ c :: run) [.scalar value] := by
  cases negative with
  | true =>
    exact lexes_numeral rfl (List.forall_mem_cons.2 ⟨isNumberChar_of_isDigit hc, hrun⟩) hvalue
  | false => exact lexes_numeral (by rw [hc]; rfl) hrun hvalue

/-- **An integer is read back.** -/
theorem lexes_intText {n : Int} (h : n.natAbs < Binary64.integerBound) :
    Lexes (Text.intText n).toList [.scalar (.int n)] := by
  have hdigits := Text.isDigit_of_mem_toDigits (n := n.natAbs)
  have hne := Nat.toDigits_ne_nil (b := 10) (n := n.natAbs)
  have hleading : Nat.toDigits 10 n.natAbs = ['0'] ∨
      (Nat.toDigits 10 n.natAbs).head? ≠ some '0' := by
    rcases Nat.eq_zero_or_pos n.natAbs with hzero | hpos
    · rw [hzero]
      exact .inl rfl
    · exact .inr (Text.head?_toDigits_ne hpos)
  have hvalue : numeral? (signText (decide (n < 0)) ++ Nat.toDigits 10 n.natAbs) =
      some (.int n) := by
    have heq := numeral?_eq (decide (n < 0)) [] hne hdigits hleading (by rintro c ⟨⟩) rfl
    rw [List.append_nil, Nat.ofDigitChars_ten_toDigits, List.isEmpty_nil, if_pos rfl] at heq
    have hzero : ¬ (decide (n < 0) && n.natAbs == 0) = true := by
      rw [Bool.and_eq_true, decide_eq_true_iff, beq_iff_eq]
      omega
    rw [heq, if_neg hzero, if_pos h, Text.signed_natAbs]
  obtain ⟨c, run, hcons⟩ := List.exists_cons_of_ne_nil hne
  rw [hcons, List.forall_mem_cons] at hdigits
  rw [Text.toList_intText]
  rw [hcons] at hvalue ⊢
  exact lexes_signed hdigits.1 (fun d hd => isNumberChar_of_isDigit (hdigits.2 d hd)) hvalue

section

variable {numeral : DecimalNumeral} {negative : Bool} {x : Binary64}

/-- A point has a digit behind it. -/
theorem goodFraction_of_isStandard (h : numeral.IsStandard negative) :
    goodFraction (numeral.fractionText ++ numeral.exponentText) = true := by
  have hletter := numeral.head?_exponentText
  have hdigits := numeral.isDigit_fraction
  unfold DecimalNumeral.fractionText
  cases hfraction : numeral.fraction with
  | none =>
    show goodFraction numeral.exponentText = true
    cases htail : numeral.exponentText with
    | nil => rfl
    | cons c tail =>
      rcases hletter c (by rw [htail]; rfl) with rfl | rfl <;> rfl
  | some fraction =>
    have hne : fraction ≠ [] := fun hnil => h.fraction_ne (by rw [hfraction, hnil])
    obtain ⟨c, more, rfl⟩ := List.exists_cons_of_ne_nil hne
    rw [hfraction] at hdigits
    exact Base.isDigit_decimal_iff.1 (hdigits c List.mem_cons_self)

theorem isNumberChar_of_mem_unsigned (numeral : DecimalNumeral) :
    ∀ c ∈ numeral.unsigned, isNumberChar c = true := by
  have hmarks : ∀ d ∈ ['.', 'e', 'E', '+', '-'], isNumberChar d = true := List.all_eq_true.1 rfl
  intro c hc
  rcases numeral.forall_mem_unsigned c hc with hdigit | hmark
  · exact isNumberChar_of_isDigit (Base.isDigit_decimal_iff.1 hdigit)
  · exact hmarks c hmark

/-- A numeral with a point or an exponent is the number that it rounds to. -/
theorem numeral?_float (h : numeral.IsStandard negative) (hx : numeral.value.toBinary64 = x)
    (hfinite : x.isFinite = true) : numeral? numeral.text = some (.float x) := by
  have hstop : ∀ c ∈ (numeral.fractionText ++ numeral.exponentText).head?, c.isDigit = false := by
    intro c hc
    rcases numeral.head?_fractionText_append c hc with rfl | rfl | rfl <;> rfl
  have heq := numeral?_eq negative _ h.whole_ne
    (fun c hc => Base.isDigit_decimal_iff.1 (numeral.isDigit_whole c hc)) h.leading hstop
    (goodFraction_of_isStandard h)
  have htext : signText negative ++
      (numeral.whole ++ (numeral.fractionText ++ numeral.exponentText)) = numeral.text := by
    rw [← h.sign_eq]
    rfl
  rw [htext, if_neg (mt List.isEmpty_iff.1 h.marked), numeral.ofText?_text] at heq
  rw [heq, Option.bind_some, hx, if_pos hfinite]

end

/-- **A finite number is read back**, to the last bit and with its sign. -/
theorem lexes_floatText (x : Binary64) :
    Lexes (floatText x).toList [.scalar (if x.isFinite then .float x else .null)] := by
  unfold floatText
  by_cases hfinite : x.isFinite = true
  · rw [if_pos hfinite, if_pos hfinite]
    obtain ⟨numeral, hstandard, htext, hx⟩ := Binary64.exists_isStandard numberStyle hfinite
    have hvalue := numeral?_float hstandard hx hfinite
    have hchars := isNumberChar_of_mem_unsigned numeral
    obtain ⟨c, more, hunsigned, hdigit⟩ := hstandard.exists_digit
    rw [htext]
    rw [DecimalNumeral.text, hstandard.sign_eq, hunsigned] at hvalue ⊢
    rw [hunsigned] at hchars
    exact lexes_signed hdigit (List.forall_mem_cons.1 hchars).2 hvalue
  · rw [if_neg hfinite, if_neg hfinite]
    exact lexes_null

end TagLang.Json
