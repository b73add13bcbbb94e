/-! # Blanks

Two sets of blanks are in use: the few characters that separate words of an input, and the larger
set that patterns call white space.
-/

namespace GrammarGraph.Text

/-- A blank of the input: tab, linefeed, vertical tab, form feed or space. -/
def isBlank (c : Char) : Bool :=
  c == '\t' || c == '\n' || c == '\x0b' || c == '\x0c' || c == ' '

/-- White space in the sense of the Unicode property. -/
def isSpace (c : Char) : Bool :=
  let n := c.toNat
  (0x09 ≤ n && n ≤ 0x0D) || n == 0x20 || n == 0x85 || n == 0xA0 || n == 0x1680 ||
    (0x2000 ≤ n && n ≤ 0x200A) || n == 0x2028 || n == 0x2029 || n == 0x202F ||
    n == 0x205F || n == 0x3000

/-- Every blank of the input is white space for patterns. -/
theorem isSpace_of_isBlank {c : Char} (h : isBlank c = true) : isSpace c = true := by
  simp only [isBlank, Bool.or_eq_true, beq_iff_eq] at h
  rcases h with (((rfl | rfl) | rfl) | rfl) | rfl <;> decide

/-- The converse fails at a carriage return. -/
example : isBlank '\r' = false ∧ isSpace '\r' = true := by decide

end GrammarGraph.Text
