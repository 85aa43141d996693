import TagLang.Text.Numeral

/-!
# Names for temporaries

Functions and variables that the compiler makes up get numbered names from one supply, so that no
two of them are the same.
-/

namespace TagLang

/-- How many names have been drawn. The count has no bound; one of 32 bits gives the same names as
long as fewer than `2 ^ 32` are drawn. -/
structure NameSupply where
  drawn : Nat := 0
  deriving DecidableEq, Repr, Inhabited

namespace NameSupply

def funcName (n : Nat) : String := "_temp_func_" ++ Text.natText n

def varName (n : Nat) : String := "_temp_var_" ++ Text.natText n

/-- Draws a name for a function. -/
def func (supply : NameSupply) : String × NameSupply :=
  (funcName (supply.drawn + 1), ⟨supply.drawn + 1⟩)

/-- Draws a name for a variable. -/
def var (supply : NameSupply) : String × NameSupply :=
  (varName (supply.drawn + 1), ⟨supply.drawn + 1⟩)

end NameSupply

end TagLang
