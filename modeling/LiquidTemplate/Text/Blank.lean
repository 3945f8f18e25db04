import LiquidTemplate.Text.Basic
import LiquidTemplate.Text.CharRange

/-!
# Blank characters

A character is blank when it has the Unicode property `White_Space`. Text between tags is trimmed
of blanks on both sides, and blanks separate the parts of a tag head.
-/

namespace LiquidTemplate.Text

/-- The ranges of the property `White_Space`. -/
def blankRanges : List CharRange :=
  [(0x9, 0xD), (0x20, 0x20), (0x85, 0x85), (0xA0, 0xA0), (0x1680, 0x1680), (0x2000, 0x200A),
   (0x2028, 0x2029), (0x202F, 0x202F), (0x205F, 0x205F), (0x3000, 0x3000)]

/-- Whether the character has the property `White_Space`. -/
def isBlank (c : Char) : Bool := CharRange.anyHolds c.toNat blankRanges

theorem isBlank_iff {c : Char} :
    isBlank c = true ↔ ∃ r ∈ blankRanges, r.1 ≤ c.toNat ∧ c.toNat ≤ r.2 :=
  CharRange.anyHolds_iff (by decide : CharRange.AscendingFrom 0 blankRanges)

/-- Space, tab, line feed, form feed and carriage return. -/
def isAsciiBlank (c : Char) : Bool :=
  c = ' ' || c = '\t' || c = '\n' || c = '\x0c' || c = '\r'

/-- Without the blanks in front. -/
def trimStart (t : Text) : Text := t.dropWhile isBlank

/-- Without the blanks at the end. -/
def trimEnd (t : Text) : Text := (t.reverse.dropWhile isBlank).reverse

/-- Without the blanks on both sides. -/
def trim (t : Text) : Text := trimEnd (trimStart t)

/-- The blanks in front. -/
def leadingBlanks (t : Text) : Text := t.takeWhile isBlank

theorem leadingBlanks_append_trimStart (t : Text) : leadingBlanks t ++ trimStart t = t :=
  List.takeWhile_append_dropWhile

theorem length_trimStart_le (t : Text) : (trimStart t).length ≤ t.length :=
  (List.dropWhile_sublist isBlank).length_le

end LiquidTemplate.Text
