import TagLang.Proofs.Binary64.Rounding
import TagLang.Proofs.Compile.Induction
import TagLang.Proofs.Reading.Grammar

/-!
# Numbers come from numerals

The floats and complex numbers in nodes that are read from tokens are what identifiers stand for
(`Derives.isIdentified`). One that is not finite is written with a numeral that is too large for
the format (`Literal.hasLargeNumeral_of_node?`): nothing else makes an infinity.
-/

namespace TagLang

/-! ## Numerals -/

/-- Whether a node is a float or a complex number. -/
def Node.isNumber : Node → Bool
  | .float _ | .complex _ _ => true
  | _ => false

/-- Whether a node is no number that is not finite. -/
def Node.isFiniteValue : Node → Bool
  | .float x => x.isFinite
  | .complex re im => re.isFinite && im.isFinite
  | _ => true

theorem Node.isNumber_of_isFiniteValue {n : Node} (h : n.isFiniteValue = false) :
    n.isNumber = true := by
  cases n with
  | float | complex => rfl
  | symbol | keyword | string | integer | list | element => cases h

namespace Literal

/-- A decimal numeral in a text is at least `Binary64.integerBound`. -/
def HasLargeNumeral (text : List Char) : Prop :=
  ∃ numeral d, numeral <:+: text ∧ Decimal.ofText? numeral = some d ∧
    (Binary64.integerBound : ℚ) ≤ d.value

theorem HasLargeNumeral.mono {text whole : List Char} (h : HasLargeNumeral text)
    (hpart : text <:+: whole) : HasLargeNumeral whole := by
  obtain ⟨numeral, d, hnumeral, hread, hlarge⟩ := h
  exact ⟨numeral, d, hnumeral.trans hpart, hread, hlarge⟩

theorem hasLargeNumeral_of_decimal? {text : List Char} {x : Binary64} (h : decimal? text = some x)
    (hx : x.isFinite = false) : HasLargeNumeral text := by
  obtain ⟨d, hread, rfl⟩ := Option.map_eq_some_iff.1 h
  refine ⟨text, d, List.infix_rfl, hread, ?_⟩
  rw [← not_lt, ← Decimal.isFinite_toBinary64_iff, hx]
  exact Bool.false_ne_true

/-- Splitting a sum loses nothing. -/
theorem append_of_splitSum {passed reversed re im : List Char}
    (h : splitSum passed reversed = some (re, im)) : re ++ im = reversed.reverse ++ passed := by
  fun_induction splitSum passed reversed with
  | case1 passed c d rest hsign =>
    obtain ⟨rfl, rfl⟩ := Prod.mk.inj (Option.some.inj h)
    simp
  | case2 passed c d rest hsign ih =>
    rw [ih h]
    simp
  | case3 => cases h

/-! What makes a number that is not finite, reader by reader. -/

theorem isFiniteValue_of_integer? {text : List Char} {literal : Literal} {n : Node}
    (h : integer? text = some literal) (hnode : literal.node? = some n) :
    n.isFiniteValue = true := by
  obtain ⟨value, -, rfl⟩ := Option.map_eq_some_iff.1 h
  obtain ⟨value, -, rfl⟩ := Option.map_eq_some_iff.1 hnode
  rfl

theorem isFiniteValue_of_keyword? {text : List Char} {literal : Literal} {n : Node}
    (h : keyword? text = some literal) (hnode : literal.node? = some n) :
    n.isFiniteValue = true := by
  unfold keyword? at h
  split at h
  · obtain rfl := Option.some.inj h
    obtain rfl := Option.some.inj hnode
    rfl
  · cases h

theorem hasLargeNumeral_of_complex? {text : List Char} {literal : Literal} {n : Node}
    (h : complex? text = some literal) (hnode : literal.node? = some n)
    (hn : n.isFiniteValue = false) : HasLargeNumeral text := by
  unfold complex? at h
  split at h
  · cases h
  · next c reversed hreversed =>
    have hpart : reversed.reverse <:+: text := by
      refine ⟨[], [c], ?_⟩
      rw [List.nil_append, ← List.reverse_cons, ← hreversed, List.reverse_reverse]
    split at h
    · split at h
      · next x hdecimal =>
        obtain rfl := Option.some.inj h
        obtain rfl := Option.some.inj hnode
        exact (hasLargeNumeral_of_decimal? hdecimal hn).mono hpart
      · obtain ⟨⟨re, im⟩, hsplit, h⟩ := Option.bind_eq_some_iff.1 h
        obtain ⟨x, hre, h⟩ := Option.bind_eq_some_iff.1 h
        obtain ⟨y, him, h⟩ := Option.bind_eq_some_iff.1 h
        obtain rfl := Option.some.inj h
        obtain rfl := Option.some.inj hnode
        have happend := append_of_splitSum hsplit
        rw [List.append_nil] at happend
        rw [← happend] at hpart
        rcases Bool.and_eq_false_iff.1 hn with hn | hn
        · exact (hasLargeNumeral_of_decimal? hre hn).mono
            ((List.prefix_append re im).isInfix.trans hpart)
        · exact (hasLargeNumeral_of_decimal? him hn).mono
            ((List.suffix_append re im).isInfix.trans hpart)
    · cases h

/-- **A number that is not finite is written with a numeral that is too large.** -/
theorem hasLargeNumeral_of_node? {text : String} {n : Node} (h : (classify text).node? = some n)
    (hn : n.isFiniteValue = false) : HasLargeNumeral text.toList := by
  unfold classify at h
  dsimp only at h
  cases hliteral : (integer? text.toList <|> (decimal? text.toList).map Literal.float <|>
      complex? text.toList <|> keyword? text.toList) with
  | none =>
    rw [hliteral] at h
    obtain rfl := Option.some.inj h
    cases hn
  | some literal =>
    rw [hliteral] at h
    simp only [Option.orElse_eq_orElse, Option.orElse_eq_or, Option.or_eq_some_iff] at hliteral
    rcases hliteral with hread | ⟨-, hread | ⟨-, hread | ⟨-, hread⟩⟩⟩
    · rw [isFiniteValue_of_integer? hread h] at hn
      cases hn
    · obtain ⟨x, hdecimal, rfl⟩ := Option.map_eq_some_iff.1 hread
      obtain rfl := Option.some.inj h
      exact hasLargeNumeral_of_decimal? hdecimal hn
    · exact hasLargeNumeral_of_complex? hread h hn
    · rw [isFiniteValue_of_keyword? hread h] at hn
      cases hn

/-- What an identifier stands for has no parts. -/
theorem all_of_node? {literal : Literal} {n : Node} (h : literal.node? = some n) : n.all = [n] := by
  have hleaf := isLeaf_of_node? h
  cases n with
  | list | element => cases hleaf
  | _ => rfl

end Literal

/-! ## Where numbers come from -/

/-- All nodes in what the grammar derives. -/
def Phrase.all : Phrase → List Node
  | .term node => node.all
  | .terms nodes => nodes.flatMap Node.all
  | .attributes fields => (fields.map Prod.snd).flatMap Node.all

/-- A node is what an identifier stands for. -/
def IsIdentified (ts : List Token) (n : Node) : Prop :=
  ∃ t ∈ ts, t.kind = .identifier ∧ Node.ofIdentifier? t.text = some n

theorem IsIdentified.mono {ts us : List Token} {n : Node} (h : IsIdentified ts n) (hsub : ts ⊆ us) :
    IsIdentified us n := by
  obtain ⟨t, ht, hkind, hnode⟩ := h
  exact ⟨t, hsub ht, hkind, hnode⟩

/-- A number in an element is in one of its children or attributes. -/
theorem Node.mem_all_element {e : Element Node} {n : Node} (h : n ∈ (Node.element e).all)
    (hn : n.isNumber = true) :
    n ∈ e.children.flatMap all ∨ n ∈ (e.attributes.map Prod.snd).flatMap all := by
  rw [all_eq] at h
  rcases List.mem_cons.1 h with rfl | h
  · cases hn
  · obtain ⟨part, hpart, h⟩ := List.mem_flatMap.1 h
    rcases mem_parts_element hpart with hpart | hpart
    · exact .inl (List.mem_flatMap.2 ⟨part, hpart, h⟩)
    · exact .inr (List.mem_flatMap.2 ⟨part, hpart, h⟩)

/-- **Every number in what the grammar derives is what an identifier stands for**, rule by rule. -/
theorem Derives.isIdentified {options : ParseOptions} {depth : Nat} {phrase : Phrase}
    {ts : List Token} (h : Derives options depth phrase ts) :
    ∀ n ∈ phrase.all, n.isNumber = true → IsIdentified ts n := by
  induction h with
  | string hkind =>
    intro n hmem hn
    obtain rfl := List.mem_singleton.1 hmem
    cases hn
  | @identifier depth t node hkind hnode =>
    intro n hmem hn
    rw [Phrase.all, Literal.all_of_node? hnode] at hmem
    obtain rfl := List.mem_singleton.1 hmem
    exact ⟨t, List.mem_cons_self, hkind, hnode⟩
  | @list depth opening closing items ts hopen _ hclose ih =>
    intro n hmem hn
    rw [Phrase.all, Node.all_eq] at hmem
    rcases List.mem_cons.1 hmem with rfl | hmem
    · cases hn
    · refine (ih n hmem hn).mono fun t ht => ?_
      exact List.mem_cons_of_mem _ (List.mem_append_left _ ht)
  | @childless depth opening tag closing fields ts hopen htag _ hclose ih =>
    intro n hmem hn
    rw [Phrase.all] at hmem
    rcases Node.mem_all_element hmem hn with hmem | hmem
    · cases hmem
    · refine (ih n hmem hn).mono fun t ht => ?_
      simp [ht]
  | @element depth opening tag bracket closing closingName closingBracket fields children ts us
      hopen htag _ hbracket _ hclosing hclosingName hclosingBracket hstrict ihfields ihchildren =>
    intro n hmem hn
    rw [Phrase.all] at hmem
    rcases Node.mem_all_element hmem hn with hmem | hmem
    · refine (ihchildren n hmem hn).mono fun t ht => ?_
      simp [ht]
    · refine (ihfields n hmem hn).mono fun t ht => ?_
      simp [ht]
  | noTerms =>
    intro n hmem
    cases hmem
  | @moreTerms depth nodes node ts us _ _ ihnodes ihnode =>
    intro n hmem hn
    rw [Phrase.all, List.flatMap_append, List.flatMap_singleton] at hmem
    rcases List.mem_append.1 hmem with hmem | hmem
    · exact (ihnodes n hmem hn).mono (List.subset_append_left ts us)
    · exact (ihnode n hmem hn).mono (List.subset_append_right ts us)
  | noAttributes =>
    intro n hmem
    cases hmem
  | @moreAttributes depth fields key sign node ts us _ hkey hsign _ ihfields ihnode =>
    intro n hmem hn
    obtain ⟨value, hvalue, hin⟩ := List.mem_flatMap.1 hmem
    rcases Fields.mem_values_insert hvalue with hvalue | rfl
    · have hold : n ∈ (Phrase.attributes fields).all := List.mem_flatMap.2 ⟨value, hvalue, hin⟩
      exact (ihfields n hold hn).mono (List.subset_append_left ts _)
    · refine (ihnode n hin hn).mono fun t ht => ?_
      simp [ht]

/-- **Where infinity comes from.** A number in nodes that are read from a text and that is not
finite is an identifier of the text with a numeral that is too large. -/
theorem Node.exists_tokens_of_parse {options : ParseOptions} {source : String} {nodes : List Node}
    (h : Node.parse options source = .ok nodes) :
    ∃ tokens, lex source = .ok tokens ∧ ∀ n ∈ nodes.flatMap all, n.isFiniteValue = false →
      ∃ t ∈ tokens, t.kind = .identifier ∧ Literal.HasLargeNumeral t.text.toList := by
  unfold Node.parse at h
  split at h
  · next tokens hlex =>
    refine ⟨tokens, hlex, fun n hmem hn => ?_⟩
    obtain ⟨t, ht, hkind, hnode⟩ :=
      (derives_of_ofTokens_eq_ok h).isIdentified n hmem (isNumber_of_isFiniteValue hn)
    exact ⟨t, ht, hkind, Literal.hasLargeNumeral_of_node? hnode hn⟩
  · cases h

end TagLang
