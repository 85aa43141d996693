import TagLang.Proofs.Token.LongestMatch

/-!
# Written strings

`Text.Quoted.encode` writes every character as one of the characters and escapes that a string is
made of (`StringUnit.ofChar`), and each of them means the character that was written. So what is
written between quotes is read back (`Text.Quoted.decode_encode`), and a text in quotes can be told
from whatever follows it (`Text.Quoted.quote_append_inj`).
-/

namespace TagLang

namespace StringUnit

/-- How a character is written between quotes. -/
def ofChar : Char → StringUnit
  | '\\' => .escape '\\'
  | '"' => .escape '"'
  | '\n' => .escape 'n'
  | '\r' => .escape 'r'
  | '\t' => .escape 't'
  | '\x00' => .escape '0'
  | c => .plain c

/-- A written character is a legal unit with its own text and meaning. -/
theorem ofChar_spec (c : Char) :
    (ofChar c).text = Text.Quoted.encodeChar c ∧ (ofChar c).Legal ∧ (ofChar c).value? = some c := by
  by_cases hescaped : c ∈ ['\\', '"', '\n', '\r', '\t', '\x00']
  · simp only [List.mem_cons, List.not_mem_nil, or_false] at hescaped
    rcases hescaped with rfl | rfl | rfl | rfl | rfl | rfl
    all_goals
      refine ⟨rfl, ?_, rfl⟩
      change (_ : Char) ≠ '\n'
      decide
  · simp only [List.mem_cons, List.not_mem_nil, or_false, not_or] at hescaped
    obtain ⟨hslash, hquote, hline, hreturn, htab, hnul⟩ := hescaped
    have hunit : ofChar c = .plain c := by rw [ofChar] <;> assumption
    have htext : Text.Quoted.encodeChar c = [c] := by rw [Text.Quoted.encodeChar] <;> assumption
    rw [hunit, htext]
    exact ⟨rfl, ⟨hquote, hslash⟩, rfl⟩

end StringUnit

namespace Text.Quoted

open StringUnit (ofChar ofChar_spec textOf)

theorem encode_eq_textOf (text : List Char) : encode text = textOf (text.map ofChar) := by
  rw [encode, textOf, List.flatMap_map]
  congr 1
  funext c
  exact (ofChar_spec c).1.symm

theorem legal_of_mem_map_ofChar {text : List Char} : ∀ u ∈ text.map ofChar, u.Legal := by
  intro u hu
  obtain ⟨c, -, rfl⟩ := List.mem_map.1 hu
  exact (ofChar_spec c).2.1

/-- **What is written between quotes is read back.** -/
theorem decode_encode (text : List Char) : decode (encode text) = .ok text := by
  rw [encode_eq_textOf]
  refine StringUnit.decode_textOf legal_of_mem_map_ofChar ?_
  rw [List.map_map]
  exact List.map_congr_left fun c _ => (ofChar_spec c).2.2

theorem toList_quote (text : String) :
    (quote text).toList = '"' :: (encode text.toList ++ ['"']) := by
  simp [quote]

/-- A quote does not go on with the characters and escapes of a string. -/
theorem eq_nil_of_quote_eq {units : List StringUnit} (h : ∀ u ∈ units, u.Legal)
    {rest more : List Char} (heq : '"' :: rest = textOf units ++ more) : units = [] := by
  cases units with
  | nil => rfl
  | cons u units =>
    rw [StringUnit.textOf_cons, List.append_assoc] at heq
    exact absurd heq.symm (h u List.mem_cons_self).text_ne

/-- **A text in quotes can be told from what follows it.** -/
theorem quote_append_inj {text other : String} {rest more : List Char}
    (h : (quote text).toList ++ rest = (quote other).toList ++ more) :
    text = other ∧ rest = more := by
  rw [toList_quote, toList_quote, encode_eq_textOf, encode_eq_textOf] at h
  rw [List.cons_append, List.cons_append, List.append_assoc, List.append_assoc] at h
  have hinside := (List.cons.inj h).2
  have hsame : text.toList.map ofChar = other.toList.map ofChar := by
    have hlegal : ∀ {chars : List Char} {units units' : List StringUnit},
        chars.map ofChar = units ++ units' → ∀ u ∈ units', u.Legal := fun hunits u hu =>
      legal_of_mem_map_ofChar u (hunits ▸ List.mem_append_right _ hu)
    rcases StringUnit.textOf_append_eq legal_of_mem_map_ofChar legal_of_mem_map_ofChar hinside with
      ⟨units, hunits, hquote⟩ | ⟨units, hunits, hquote⟩
    · rw [hunits, eq_nil_of_quote_eq (hlegal hunits) hquote, List.append_nil]
    · rw [hunits, eq_nil_of_quote_eq (hlegal hunits) hquote, List.append_nil]
  have hdecode : decode (encode text.toList) = decode (encode other.toList) := by
    rw [encode_eq_textOf, encode_eq_textOf, hsame]
  rw [decode_encode, decode_encode] at hdecode
  rw [hsame] at hinside
  refine ⟨String.toList_injective (Except.ok.inj hdecode), ?_⟩
  exact (List.cons.inj (List.append_cancel_left hinside)).2

end Text.Quoted

end TagLang
