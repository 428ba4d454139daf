import Wireform.Text.Numeral
import Wireform.Text.Visible

/-!
Characters in quotation marks, as messages show them. Only characters beyond the first 65536 are
ever shown, so neither the quotation mark nor a control character needs a form of its own.
-/

namespace Wireform.Text

/-- A character in quotation marks: itself if it is visible, and else its number. -/
def quoted (c : Char) : String :=
  if isVisible c then s!"'{c}'" else s!"'\\u\x7b{digits 16 1 c.toNat}\x7d'"

end Wireform.Text
