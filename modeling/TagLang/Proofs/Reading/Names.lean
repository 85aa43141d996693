import TagLang.Proofs.Reading.Grammar
import TagLang.Proofs.Token.Positions

/-!
# Names come from identifiers

`Node.names` lists the names in a node: its symbols, also those of parameter lists, the names of its
elements and those of their attributes. In nodes that are read from tokens, each of them is the text
of an identifier (`Derives.isIdentifierText_names`). So a name in nodes that are read from a text is
not empty and has no blank in it (`Node.isWord_of_parse`).
-/

namespace TagLang

/-! ## Names in nodes -/

mutual

/-- All names in a node. -/
def Node.names : Node → List String
  | .symbol name => [name]
  | .list items => Node.namesOfAll items
  | .element ⟨name, attributes, children, _⟩ =>
    name :: (Node.namesOfFields attributes ++ Node.namesOfAll children)
  | _ => []

def Node.namesOfAll : List Node → List String
  | [] => []
  | node :: rest => node.names ++ Node.namesOfAll rest

def Node.namesOfFields : List (String × Node) → List String
  | [] => []
  | (key, node) :: rest => key :: (node.names ++ Node.namesOfFields rest)

end

namespace Node

theorem namesOfAll_eq_flatMap (nodes : List Node) : namesOfAll nodes = nodes.flatMap names := by
  induction nodes with
  | nil => rfl
  | cons n nodes ih => rw [namesOfAll, ih, List.flatMap_cons]

/-- An attribute that replaces another brings no name but its own and those of its value. -/
theorem mem_namesOfFields_insert {fields : Fields Node} {key name : String} {node : Node}
    (h : name ∈ namesOfFields (Fields.insert fields key node)) :
    name ∈ namesOfFields fields ∨ name = key ∨ name ∈ node.names := by
  induction fields with
  | nil => simpa [Fields.insert, namesOfFields] using h
  | cons field fields ih =>
    obtain ⟨old, value⟩ := field
    rw [Fields.insert] at h
    split at h
    · simp only [namesOfFields, List.mem_cons, List.mem_append] at h ⊢
      rcases h with h | h | h
      · exact .inr (.inl h)
      · exact .inr (.inr h)
      · exact .inl (.inr (.inr h))
    · simp only [namesOfFields, List.mem_cons, List.mem_append] at h ⊢
      rcases h with h | h | h
      · exact .inl (.inl h)
      · exact .inl (.inr (.inl h))
      · exact (ih h).imp_left fun h => .inr (.inr h)

end Node

/-! ## Symbols -/

namespace Literal

variable {text : List Char} {literal : Literal} {name : String}

theorem integer?_ne_symbol : integer? text ≠ some (.symbol name) := by
  intro h
  obtain ⟨n, -, hn⟩ := Option.map_eq_some_iff.1 h
  cases hn

theorem complex?_ne_symbol : complex? text ≠ some (.symbol name) := by
  intro h
  unfold complex? at h
  split at h
  · cases h
  · split at h
    · split at h
      · cases h
      · obtain ⟨parts, -, h⟩ := Option.bind_eq_some_iff.1 h
        obtain ⟨re, -, h⟩ := Option.bind_eq_some_iff.1 h
        obtain ⟨im, -, h⟩ := Option.bind_eq_some_iff.1 h
        cases h
    · cases h

theorem keyword?_ne_symbol : keyword? text ≠ some (.symbol name) := by
  intro h
  unfold keyword? at h
  split at h
  · cases h
  · cases h

/-- A text that stands for a symbol is the name of the symbol. -/
theorem eq_of_classify_eq_symbol {text : String} (h : classify text = .symbol name) :
    name = text := by
  unfold classify at h
  dsimp only at h
  cases hother : (integer? text.toList <|> (decimal? text.toList).map Literal.float <|>
      complex? text.toList <|> keyword? text.toList) with
  | none =>
    rw [hother] at h
    exact (Literal.symbol.inj h).symm
  | some literal =>
    rw [hother] at h
    obtain rfl : literal = .symbol name := h
    simp only [Option.orElse_eq_orElse, Option.orElse_eq_or, Option.or_eq_some_iff] at hother
    rcases hother with h | ⟨-, h | ⟨-, h | ⟨-, h⟩⟩⟩
    · exact absurd h integer?_ne_symbol
    · obtain ⟨x, -, hx⟩ := Option.map_eq_some_iff.1 h
      cases hx
    · exact absurd h complex?_ne_symbol
    · exact absurd h keyword?_ne_symbol

/-- An identifier is the only name in its node. -/
theorem eq_of_mem_names {text : String} {node : Node} (h : (classify text).node? = some node)
    (hname : name ∈ node.names) : name = text := by
  cases hliteral : classify text with
  | symbol ident =>
    rw [hliteral] at h
    obtain rfl := Option.some.inj h
    obtain rfl := List.mem_singleton.1 hname
    exact eq_of_classify_eq_symbol hliteral
  | integer n base =>
    rw [hliteral] at h
    obtain ⟨value, -, rfl⟩ := Option.map_eq_some_iff.1 h
    cases hname
  | float x | complex re im | keyword text =>
    rw [hliteral] at h
    obtain rfl := Option.some.inj h
    cases hname

end Literal

/-! ## Names in what is read -/

/-- The names in what the grammar derives. -/
def Phrase.names : Phrase → List String
  | .term node => node.names
  | .terms nodes => Node.namesOfAll nodes
  | .attributes fields => Node.namesOfFields fields

/-- A name is the text of an identifier. -/
def IsIdentifierText (ts : List Token) (name : String) : Prop :=
  ∃ t ∈ ts, t.kind = .identifier ∧ t.text = name

theorem IsIdentifierText.mono {ts us : List Token} {name : String} (h : IsIdentifierText ts name)
    (hsub : ts ⊆ us) : IsIdentifierText us name := by
  obtain ⟨t, ht, hkind, htext⟩ := h
  exact ⟨t, hsub ht, hkind, htext⟩

/-- Every name in what the grammar derives is written, rule by rule. -/
theorem Derives.isIdentifierText_names {options : ParseOptions} {depth : Nat} {phrase : Phrase}
    {ts : List Token} (h : Derives options depth phrase ts) :
    ∀ name ∈ phrase.names, IsIdentifierText ts name := by
  induction h with
  | string hkind =>
    intro name hname
    cases hname
  | @identifier depth t node hkind hnode =>
    intro name hname
    exact ⟨t, List.mem_cons_self, hkind, (Literal.eq_of_mem_names hnode hname).symm⟩
  | @list depth opening closing items ts hopen _ hclose ih =>
    intro name hname
    refine (ih name hname).mono fun t ht => ?_
    exact List.mem_cons_of_mem _ (List.mem_append_left _ ht)
  | @childless depth opening tag closing fields ts hopen htag _ hclose ih =>
    intro name hname
    rcases List.mem_cons.1 hname with rfl | hname
    · exact ⟨tag, List.mem_cons_of_mem _ List.mem_cons_self, htag, rfl⟩
    · rcases List.mem_append.1 hname with hname | hname
      · refine (ih name hname).mono fun t ht => ?_
        exact List.mem_cons_of_mem _ (List.mem_cons_of_mem _ (List.mem_append_left _ ht))
      · cases hname
  | @element depth opening tag bracket closing closingName closingBracket fields children ts us
      hopen htag _ hbracket _ hclosing hclosingName hclosingBracket hstrict ihfields ihchildren =>
    intro name hname
    rcases List.mem_cons.1 hname with rfl | hname
    · exact ⟨tag, List.mem_cons_of_mem _ List.mem_cons_self, htag, rfl⟩
    · rcases List.mem_append.1 hname with hname | hname
      · refine (ihfields name hname).mono fun t ht => ?_
        exact List.mem_cons_of_mem _ (List.mem_cons_of_mem _ (List.mem_append_left _ ht))
      · refine (ihchildren name hname).mono fun t ht => ?_
        simp [ht]
  | noTerms =>
    intro name hname
    cases hname
  | @moreTerms depth nodes node ts us _ _ ihnodes ihnode =>
    intro name hname
    rw [Phrase.names, Node.namesOfAll_eq_flatMap, List.flatMap_append, List.flatMap_singleton,
      ← Node.namesOfAll_eq_flatMap] at hname
    rcases List.mem_append.1 hname with hname | hname
    · exact (ihnodes name hname).mono (List.subset_append_left ts us)
    · exact (ihnode name hname).mono (List.subset_append_right ts us)
  | noAttributes =>
    intro name hname
    cases hname
  | @moreAttributes depth fields key sign node ts us _ hkey hsign _ ihfields ihnode =>
    intro name hname
    rcases Node.mem_namesOfFields_insert hname with hname | rfl | hname
    · exact (ihfields name hname).mono (List.subset_append_left ts _)
    · exact ⟨key, List.mem_append_right ts List.mem_cons_self, hkey, rfl⟩
    · refine (ihnode name hname).mono fun t ht => ?_
      simp [ht]

/-! ## Names are words -/

/-- A text that is there and has no blank in it. -/
structure Text.IsWord (text : String) : Prop where
  ne_empty : text ≠ ""
  chars : ∀ c ∈ text.toList, Text.isBlank c = false

theorem isWord_of_mem_lex {source : String} {tokens : List Token} (h : lex source = .ok tokens) :
    ∀ t ∈ tokens, t.kind = .identifier → Text.IsWord t.text := by
  intro t ht hkind
  have hword := (munches_of_lex h).mem_language .identifier rfl t ht hkind
  rw [Lexeme.mem_language_iff] at hword
  generalize htext : t.text.toList = text at hword
  cases hword with
  | identifier hchars =>
    constructor
    · intro hempty
      rw [hempty] at htext
      cases htext
    · intro c hc
      rw [htext] at hc
      exact Bool.not_eq_true _ ▸ (isIdentifierChar_iff.1 (hchars c hc)).2

/-- **Every name in nodes that are read from a text is a word.** -/
theorem Node.isWord_of_parse {options : ParseOptions} {source : String} {nodes : List Node}
    (h : Node.parse options source = .ok nodes) : ∀ name ∈ namesOfAll nodes, Text.IsWord name := by
  unfold Node.parse at h
  split at h
  · next tokens hlex =>
    intro name hname
    obtain ⟨t, ht, hkind, rfl⟩ := (derives_of_ofTokens_eq_ok h).isIdentifierText_names name hname
    exact isWord_of_mem_lex hlex t ht hkind
  · cases h

theorem Node.ne_empty_of_parse {options : ParseOptions} {source : String} {nodes : List Node}
    (h : Node.parse options source = .ok nodes) : ∀ name ∈ namesOfAll nodes, name ≠ "" :=
  fun name hname => (isWord_of_parse h name hname).ne_empty

end TagLang
