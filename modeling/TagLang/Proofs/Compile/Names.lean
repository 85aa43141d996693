import TagLang.Compile.Names

/-!
# Made-up names are told apart

A made-up name is a stem and a numeral. Numerals of different numbers differ, so names of one kind
with different numbers differ, and no name that starts otherwise than the stems do is made up.
-/

namespace TagLang

theorem Text.natText_injective {i j : Nat} (h : Text.natText i = Text.natText j) : i = j := by
  have hd : Nat.toDigits 10 i = Nat.toDigits 10 j := String.ofList_injective h
  rw [← Nat.ofDigitChars_ten_toDigits (n := i), hd, Nat.ofDigitChars_ten_toDigits]

namespace NameSupply

/-- A name of the form that the supply gives out. -/
def Generated (name : String) : Prop :=
  ∃ k, name = funcName k ∨ name = varName k

theorem funcName_injective {i j : Nat} (h : funcName i = funcName j) : i = j :=
  Text.natText_injective ((String.append_right_inj _).1 h)

theorem varName_injective {i j : Nat} (h : varName i = varName j) : i = j :=
  Text.natText_injective ((String.append_right_inj _).1 h)

/-- The stems differ in their seventh character. -/
theorem funcName_ne_varName {i j : Nat} : funcName i ≠ varName j := by
  intro h
  have hstem := congrArg (fun name => name.toList[6]?) h
  simp [funcName, varName] at hstem

/-- Every made-up name starts with an underscore. -/
theorem Generated.head? {name : String} (h : Generated name) : name.toList.head? = some '_' := by
  obtain ⟨k, rfl | rfl⟩ := h
  · simp [funcName]
  · simp [varName]

theorem not_generated_keyword : ¬ Generated "Keyword" := by
  intro h
  exact absurd h.head? (by decide)

end NameSupply

end TagLang
