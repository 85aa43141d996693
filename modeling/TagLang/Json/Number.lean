import TagLang.Binary64.Decimal
import TagLang.Json.Basic

/-!
# Numbers in JSON values

Any JSON number can be taken as a binary64 number; an integer is rounded to the nearest one.
-/

namespace TagLang

/-- The binary64 number nearest to an integer. -/
def Binary64.ofInt (n : Int) : Binary64 :=
  Decimal.toBinary64 ⟨decide (n < 0), n.natAbs, 0⟩

def Json.number? : Json → Option Binary64
  | .int n => some (Binary64.ofInt n)
  | .float x => some x
  | _ => none

end TagLang
