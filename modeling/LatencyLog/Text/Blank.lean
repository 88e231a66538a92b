/-! # Blank characters

* `isBlank`: the 25 characters with the property White_Space.
* `trim`: a text without the blank characters at its ends.
-/

namespace LatencyLog.Text

set_option autoImplicit false

/-- The character has the property White_Space. -/
def isBlank (c : Char) : Bool :=
  let code := c.toNat
  (decide (0x09 ≤ code) && decide (code ≤ 0x0D)) || code == 0x20 || code == 0x85 ||
    code == 0xA0 || code == 0x1680 || (decide (0x2000 ≤ code) && decide (code ≤ 0x200A)) ||
    code == 0x2028 || code == 0x2029 || code == 0x202F || code == 0x205F || code == 0x3000

/-- A text without the blank characters at its ends. -/
def trim (text : List Char) : List Char :=
  ((text.dropWhile isBlank).reverse.dropWhile isBlank).reverse

theorem isBlank_of_isWhitespace {c : Char} (h : c.isWhitespace = true) : isBlank c = true := by
  simp only [Char.isWhitespace, Bool.or_eq_true, decide_eq_true_eq] at h
  rcases h with ((h | h) | h) | h <;> subst h <;> decide

end LatencyLog.Text
