import TagLang.Node.Reader
import TagLang.Program.Text
import TagLang.Proofs.Program.Plain
import TagLang.Proofs.Reading.Decimals
import TagLang.Proofs.Token.Lines
import TagLang.Proofs.Token.Quoted

/-!
# Literals of programs are tokens

The text of a string in a program is one token of the tag syntax, and the token means the string
(`Expr.lex_text_str`). The text of a finite float is one token as well, an identifier that stands
for a float with the same bits (`Expr.lex_text_float`): it is made of characters that every
identifier may have, and a point or an exponent keeps it from being an integer.

A string is written in one pass over its characters. The same text comes about if one character
after the other is replaced in the whole text, provided that the backslash comes first
(`Text.Quoted.encode_eq_replaceAll`): what a replacement puts in is a backslash and a character that
is not replaced later.
-/

namespace TagLang

namespace Text.Quoted

/-- Puts a text in the place of every occurrence of a character. -/
def replace (text : List Char) (change : Char × List Char) : List Char :=
  text.flatMap fun c => if c = change.1 then change.2 else [c]

/-- Makes one change of a whole text after the other. -/
def replaceAll (changes : List (Char × List Char)) (text : List Char) : List Char :=
  changes.foldl replace text

/-- The changes to a text that goes between quotes, in their order. -/
def escapeChanges : List (Char × List Char) :=
  [('\\', ['\\', '\\']), ('"', ['\\', '"']), ('\n', ['\\', 'n']), ('\r', ['\\', 'r']),
    ('\t', ['\\', 't']), ('\x00', ['\\', '0'])]

/-- Changes do not look beyond a character, so they can be made character by character. -/
theorem replaceAll_eq_flatMap (changes : List (Char × List Char)) (text : List Char) :
    replaceAll changes text = text.flatMap fun c => replaceAll changes [c] := by
  induction changes generalizing text with
  | nil => exact (List.flatMap_singleton' text).symm
  | cons change changes ih =>
    have hfirst : ∀ text, replaceAll (change :: changes) text =
        replaceAll changes (replace text change) := fun _ => rfl
    rw [hfirst, ih, replace, List.flatMap_assoc]
    congr 1
    funext c
    rw [hfirst, ih (replace [c] change), replace, List.flatMap_singleton]

/-- A character that no change is about stays. -/
theorem replaceAll_singleton {changes : List (Char × List Char)} {c : Char}
    (h : ∀ change ∈ changes, c ≠ change.1) : replaceAll changes [c] = [c] := by
  induction changes with
  | nil => rfl
  | cons change changes ih =>
    rw [List.forall_mem_cons] at h
    have hfirst : replace [c] change = [c] := by
      rw [replace, List.flatMap_singleton, if_neg h.1]
    rw [replaceAll, List.foldl_cons, hfirst]
    exact ih h.2

theorem encodeChar_eq_replaceAll (c : Char) : encodeChar c = replaceAll escapeChanges [c] := by
  unfold encodeChar
  split
  case h_7 hslash hquote hline hreturn htab hnul =>
    refine (replaceAll_singleton ?_).symm
    simp only [escapeChanges, List.forall_mem_cons]
    exact ⟨hslash, hquote, hline, hreturn, htab, hnul, List.forall_mem_nil _⟩
  all_goals rfl

/-- **Writing in one pass** is replacing one character after the other, the backslash first. -/
theorem encode_eq_replaceAll (text : List Char) : encode text = replaceAll escapeChanges text := by
  rw [replaceAll_eq_flatMap, encode]
  congr 1
  funext c
  exact encodeChar_eq_replaceAll c

end Text.Quoted

/-- A text in quotes is read as a string, whatever follows it. -/
theorem Piece.quoted_encode (text rest : List Char) :
    Piece.quoted (Text.Quoted.encode text ++ '"' :: rest) =
      .token (.string (String.ofList text)) ('"' :: (Text.Quoted.encode text ++ ['"'])) rest := by
  have hsplit : splitQuoted [] (Text.Quoted.encode text ++ '"' :: rest) =
      some (Text.Quoted.encode text, rest) := by
    rw [Text.Quoted.encode_eq_textOf,
      Lexeme.splitQuoted_textOf Text.Quoted.legal_of_mem_map_ofChar, splitQuoted, List.append_nil,
      List.reverse_reverse]
  rw [quoted, hsplit]
  dsimp only
  rw [Text.Quoted.decode_encode]

/-! ## Runs are identifiers -/

/-- The characters of names and numerals are ASCII. -/
theorem toNat_lt_of_isRunChar {c : Char} (h : isRunChar c = true) : c.toNat < 128 := by
  have hle : ∀ d : Char, d.toNat < 128 → c.val ≤ d.val → c.toNat < 128 :=
    fun d hd hcd => Nat.lt_of_le_of_lt (UInt32.le_iff_toNat_le.1 hcd) hd
  rcases Bool.or_eq_true_iff.1 h with h | h
  · rcases Bool.or_eq_true_iff.1 h with h | h
    · rcases Bool.or_eq_true_iff.1 h with h | h
      · exact hle 'Z' (by decide) (of_decide_eq_true h).2
      · exact hle 'z' (by decide) (of_decide_eq_true (Bool.and_eq_true_iff.1 h).2)
    · exact hle '9' (by decide) (of_decide_eq_true (Bool.and_eq_true_iff.1 h).2)
  · have hmarks : ∀ d ∈ ['_', '.', '+', '-'], decide (d.toNat < 128) = true :=
      List.all_eq_true.1 rfl
    exact of_decide_eq_true (hmarks c (List.contains_iff_mem.1 h))

theorem Piece.isIdentifierChar_of_isRunChar {c : Char} (h : isRunChar c = true) :
    isIdentifierChar c = true := by
  have hascii : ∀ n ∈ List.range 128,
      (!isRunChar (Char.ofNat n) || isIdentifierChar (Char.ofNat n)) = true :=
    List.all_eq_true.1 (by decide +kernel)
  have hc := hascii c.toNat (List.mem_range.2 (toNat_lt_of_isRunChar h))
  rw [Char.ofNat_toNat, h] at hc
  exact hc

/-- Characters of identifiers alone are one identifier. -/
theorem Piece.ofText_identifier {c : Char} {rest : List Char}
    (h : ∀ d ∈ c :: rest, isIdentifierChar d = true) :
    Piece.ofText c rest = .token .identifier (c :: rest) [] := by
  obtain ⟨hc, hrest⟩ := List.forall_mem_cons.1 h
  have hraw : ∀ r, c = 'r' → rest ≠ '"' :: r := by
    rintro r - rfl
    exact absurd (hrest '"' List.mem_cons_self) (by decide)
  have hstop : ∀ d ∈ ([] : List Char).head?, isIdentifierChar d = false := by rintro d ⟨⟩
  obtain ⟨htake, hdrop⟩ := takeWhile_append_of_stop hrest hstop
  rw [List.append_nil] at htake hdrop
  have hmatch := longestMatch_identifier hc hraw
  rw [htake, hdrop] at hmatch
  exact (stands_ofText c rest).unique (.lexeme hmatch (.token rfl))

/-! ## Texts of one token -/

/-- A text that is a single token as a whole is cut up into that token. -/
theorem lex_of_token {source : String} {c : Char} {rest : List Char} {kind : Token.Kind}
    (hsource : source.toList = c :: rest)
    (hpiece : Piece.ofText c rest = .token kind source.toList []) :
    lex source = .ok [⟨kind, source, 0, source.utf8ByteSize, .start⟩] := by
  have hstop : (Location.start.after source.toList).offset = source.utf8ByteSize := by
    rw [Location.offset_after, String.ofList_toList]
    exact Nat.zero_add _
  have htokens : tokenize source = ⟨[⟨kind, source, 0, source.utf8ByteSize, .start⟩], none⟩ := by
    rw [tokenize]
    nth_rewrite 1 [hsource]
    rw [tokenizeFrom_token hpiece, tokenizeFrom, hstop, String.ofList_toList]
    rfl
  rw [lex, htokens]

/-- **The text of a string is one token**, which spans the text and means the string. The text is
what six replacements make of the string, in quotes. -/
theorem Expr.lex_text_str (s : String) :
    (Expr.str s).text = "\"" ++
      String.ofList (Text.Quoted.replaceAll Text.Quoted.escapeChanges s.toList) ++ "\"" ∧
    lex (Expr.str s).text =
      .ok [⟨.string s, (Expr.str s).text, 0, (Expr.str s).text.utf8ByteSize, .start⟩] := by
  have htext : (Expr.str s).text = Text.Quoted.quote s := by rw [Expr.text]
  have hchars := Text.Quoted.toList_quote s
  rw [htext]
  refine ⟨?_, lex_of_token hchars ?_⟩
  · rw [← Text.Quoted.encode_eq_replaceAll, Text.Quoted.quote]
  · rw [hchars, Piece.ofText, Piece.quoted_encode, String.ofList_toList]

/-- A text of a single identifier is read as the node that the identifier stands for. -/
theorem Node.parse_of_identifier {source : String} {t : Token} {node : Node}
    (hlex : lex source = .ok [t]) (hkind : t.kind = .identifier)
    (hnode : Node.ofIdentifier? t.text = some node) (options : ParseOptions) :
    Node.parse options source = .ok [node] := by
  have hstep : Reading.step options Reading.start t = .ok ⟨[node], [], .term⟩ := by
    simp only [Reading.step, Reading.start, Reading.term, hkind, hnode, Reading.deliver]
  rw [Node.parse, hlex]
  dsimp only
  rw [Node.ofTokens, List.foldlM_cons, hstep]
  rfl

/-- **The text of a finite float is one token**, an identifier, which spans the text and stands for
the float with the same 64 bits. So the text is read as this float, and as nothing else. -/
theorem Expr.lex_text_float {x : Binary64} (h : x.isFinite = true) :
    lex (Expr.float x).text =
      .ok [⟨.identifier, (Expr.float x).text, 0, (Expr.float x).text.utf8ByteSize, .start⟩] ∧
    Node.ofIdentifier? (Expr.float x).text = some (.float x) ∧
    ∀ options, Node.parse options (Expr.float x).text = .ok [.float x] := by
  have htext : (Expr.float x).text = x.text numberStyle := by rw [Expr.text, floatText, if_pos h]
  have hrun := isNumberRun_text numberStyle h
  obtain ⟨c, rest, hcons⟩ := List.exists_cons_of_ne_nil hrun.ne_nil
  have hchars : ∀ d ∈ c :: rest, Piece.isIdentifierChar d = true :=
    fun d hd => Piece.isIdentifierChar_of_isRunChar (hrun.chars d (hcons ▸ hd))
  have hlex := lex_of_token hcons (hcons ▸ Piece.ofText_identifier hchars)
  have hnode : Node.ofIdentifier? (x.text numberStyle) = some (.float x) := by
    rw [Node.ofIdentifier?, Literal.classify_text numberStyle h, Literal.node?]
  rw [htext]
  exact ⟨hlex, hnode, Node.parse_of_identifier hlex rfl hnode⟩

/-- The negative number that is nearest to zero, and a whole number. -/
theorem Expr.lex_text_float_extremes :
    (Binary64.mk 0x8000000000000001).isFinite = true ∧
      (Expr.float ⟨0x8000000000000001⟩).text = "-5e-324" ∧
      lex "-5e-324" = .ok [⟨.identifier, "-5e-324", 0, 7, .start⟩] ∧
      Node.parse ⟨true⟩ "-5e-324" = .ok [.float ⟨0x8000000000000001⟩] ∧
    (Binary64.mk 0x4341C37937E08000).isFinite = true ∧
      (Expr.float ⟨0x4341C37937E08000⟩).text = "1e16" ∧
      Node.ofIdentifier? "1e16" = some (.float ⟨0x4341C37937E08000⟩) := by
  have hsmall : (Expr.float ⟨0x8000000000000001⟩).text = "-5e-324" := by decide +kernel
  have hwhole : (Expr.float ⟨0x4341C37937E08000⟩).text = "1e16" := by decide +kernel
  have hsmall' := Expr.lex_text_float (x := ⟨0x8000000000000001⟩) (by decide)
  have hwhole' := Expr.lex_text_float (x := ⟨0x4341C37937E08000⟩) (by decide)
  rw [hsmall] at hsmall'
  rw [hwhole] at hwhole'
  exact ⟨by decide, hsmall, hsmall'.1, hsmall'.2.2 _, by decide, hwhole, hwhole'.2.1⟩

end TagLang
