import LiquidTemplate.Text.Blank
import LiquidTemplate.Text.Alphanumeric

/-!
# Markup between Liquid delimiters

A `-` right behind the opening delimiter, or right before the closing one, asks for the blanks
around the construct to be trimmed. These markers are no part of the markup: `Markup.ofInner` takes
them off and `Markup.chars` puts them back. The markup of a tag begins with the tag's name
(`Tag.ofMarkup`).
-/

namespace LiquidTemplate

/-- Whether a delimiter asks for the blanks beside it to be trimmed (`Whitespace`). -/
inductive Trim where
  | keep
  | trim
deriving DecidableEq, Repr

namespace Trim

/-- How the marker is written. -/
def chars : Trim → Text
  | keep => []
  | trim => ['-']

end Trim

/-- The markers at the two ends of a construct. -/
structure Trims where
  start : Trim
  stop : Trim
deriving DecidableEq, Repr

/-- No markers. -/
def Trims.none : Trims := ⟨.keep, .keep⟩

/-- What stands between two delimiters: the text, with its trim markers told apart. -/
structure Markup where
  trims : Trims
  text : Text
deriving DecidableEq, Repr

namespace Markup

/-- Takes a marker off the front, as `extract` does first. -/
def splitStart : Text → Trim × Text
  | '-' :: rest => (.trim, rest)
  | t => (.keep, t)

/-- Takes a marker off the end, as `extract` does with what the first marker leaves. -/
def splitStop (t : Text) : Text × Trim :=
  let (marker, rest) := splitStart t.reverse
  match marker with
  | .trim => (rest.reverse, .trim)
  | .keep => (t, .keep)

/-- Reads the text between two delimiters. A single `-` counts once, as the marker in front. -/
def ofInner (inner : Text) : Markup :=
  let (start, rest) := splitStart inner
  let (text, stop) := splitStop rest
  ⟨⟨start, stop⟩, text⟩

/-- The text between the delimiters, markers included. -/
def chars (m : Markup) : Text := m.trims.start.chars ++ m.text ++ m.trims.stop.chars

/-- The text without blanks around it (`normalized_markup`). -/
def normalized (m : Markup) : Text := Text.trim m.text

theorem chars_splitStart (t : Text) : (splitStart t).1.chars ++ (splitStart t).2 = t := by
  unfold splitStart; split <;> rfl

theorem splitStop_chars (t : Text) : (splitStop t).1 ++ (splitStop t).2.chars = t := by
  have h := chars_splitStart t.reverse
  unfold splitStop
  generalize splitStart t.reverse = parts at h
  obtain ⟨marker, rest⟩ := parts
  cases marker with
  | trim =>
    have := congrArg List.reverse h
    simpa [Trim.chars] using this
  | keep => simp [Trim.chars]

/-- Reading markers loses nothing. -/
@[simp] theorem chars_ofInner (inner : Text) : (ofInner inner).chars = inner := by
  have h₁ := chars_splitStart inner
  have h₂ := splitStop_chars (splitStart inner).2
  simp only [ofInner, chars, List.append_assoc]
  rw [h₂, h₁]

/-- The markup of the construct that covers `s`, and where its text stands (`extract`). There is
none unless `s` has room for two delimiters of two bytes each and what is between them lies in the
source on character boundaries. -/
def extract? (source : Text) (s : Span) : Option (Markup × Span) := do
  guard (s.start + 4 ≤ s.stop)
  let inner ← Text.slice? source ⟨s.start + 2, s.stop - 2⟩
  let markup := ofInner inner
  let start := s.start + 2 + Text.size markup.trims.start.chars
  return (markup, ⟨start, start + Text.size markup.text⟩)

end Markup

/-! ## Tags -/

/-- A Liquid tag: its name, the markup behind the name, and its trim markers (`TagParts`). -/
structure Tag where
  name : Text
  markup : Text
  trims : Trims
deriving DecidableEq, Repr

namespace Tag

/-- Characters of a tag name. -/
def isNameChar (c : Char) : Bool := Text.isAlphanumeric c || c = '_'

/-- Splits trimmed markup behind the name: `#`, or a run of name characters that may be empty. -/
def splitName : Text → Text × Text
  | '#' :: rest => (['#'], rest)
  | t => (t.takeWhile isNameChar, t.dropWhile isNameChar)

/-- The name and the markup behind it, both without blanks in front (`split_tag`). -/
def split (t : Text) : Text × Text :=
  let (name, rest) := splitName (Text.trimStart t)
  (name, Text.trimStart rest)

def ofMarkup (m : Markup) : Tag :=
  let (name, markup) := split m.text
  ⟨name, markup, m.trims⟩

/-- Reads the text between `{%` and `%}`. -/
def ofInner (inner : Text) : Tag := ofMarkup (Markup.ofInner inner)

theorem splitName_append (t : Text) : (splitName t).1 ++ (splitName t).2 = t := by
  unfold splitName; split
  · rfl
  · exact List.takeWhile_append_dropWhile

/-! ## Labels -/

/-- The name of the tag that labels something, if there is one. -/
def labelName? (label : Option Tag) : Option Text := label.map name

/-- The markup of a label; without a tag there is none. -/
def labelMarkup (label : Option Tag) : Text := label.elim [] markup

/-- The trim markers of a label; without a tag there are none. -/
def labelTrims (label : Option Tag) : Trims := label.elim .none trims

end Tag

end LiquidTemplate
