import LiquidTemplate.Text.Basic

/-!
# JSON values and their text

Objects keep their fields in the order in which they were given. There are two layouts of the same
value: compact, with no blanks, and indented, with two spaces a level and one item or field a line.
The writer is one function for both; it keeps what is written so far in reverse, so its cost is
linear in the text and only nesting uses the call stack.
-/

namespace LiquidTemplate

/-- A JSON value whose numbers are natural. -/
inductive Json where
  | null
  | bool (value : Bool)
  | number (value : Nat)
  | string (value : Text)
  | array (items : List Json)
  | object (fields : List (String × Json))
deriving Repr

namespace Json

/-- Blanks between the parts of a value. -/
inductive Layout where
  | compact
  | indented
deriving DecidableEq, Repr

/-- What stands before an item at a nesting level, and before the bracket that closes one. -/
def Layout.lineBreak : Layout → Nat → Text
  | .compact, _ => []
  | .indented, level => '\n' :: List.replicate (2 * level) ' '

/-- What stands between a field's name and its value. -/
def Layout.colon : Layout → Text
  | .compact => [':']
  | .indented => [':', ' ']

/-- A hexadecimal digit, in lower case. -/
def hexDigit (n : Nat) : Char := Nat.digitChar (n % 16)

/-- How a character is written inside a string. Only the quote, the backslash and characters below
the space are escaped. -/
def escape (c : Char) : Text :=
  if c = '"' then ['\\', '"']
  else if c = '\\' then ['\\', '\\']
  else if c = '\n' then ['\\', 'n']
  else if c = '\r' then ['\\', 'r']
  else if c = '\t' then ['\\', 't']
  else if c = '\x08' then ['\\', 'b']
  else if c = '\x0c' then ['\\', 'f']
  else if c.toNat < 0x20 then
    ['\\', 'u', '0', '0', hexDigit (c.toNat / 16), hexDigit c.toNat]
  else [c]

/-- A string with its quotes. -/
def quote (t : Text) : Text := '"' :: (t.flatMap escape ++ ['"'])

/-- Puts a text behind what is written so far, which is kept in reverse. -/
def emit (t written : Text) : Text := t.reverseAux written

mutual

/-- Writes a value behind `written`. -/
def write (layout : Layout) (level : Nat) : Json → Text → Text
  | null, written => emit "null".toList written
  | bool true, written => emit "true".toList written
  | bool false, written => emit "false".toList written
  | number n, written => emit (Nat.toDigits 10 n) written
  | string t, written => emit (quote t) written
  | array [], written => emit ['[', ']'] written
  | array (item :: items), written =>
    let written := emit ('[' :: layout.lineBreak (level + 1)) written
    let written := write layout (level + 1) item written
    let written := writeItems layout (level + 1) items written
    emit (layout.lineBreak level ++ [']']) written
  | object [], written => emit ['\x7b', '\x7d'] written
  | object ((name, value) :: fields), written =>
    let written := emit ('\x7b' :: layout.lineBreak (level + 1)) written
    let written := emit (quote name.toList ++ layout.colon) written
    let written := write layout (level + 1) value written
    let written := writeFields layout (level + 1) fields written
    emit (layout.lineBreak level ++ ['\x7d']) written

/-- Writes the items behind the first, each with a comma in front. -/
def writeItems (layout : Layout) (level : Nat) : List Json → Text → Text
  | [], written => written
  | item :: items, written =>
    let written := emit (',' :: layout.lineBreak level) written
    writeItems layout level items (write layout level item written)

/-- Writes the fields behind the first, each with a comma in front. -/
def writeFields (layout : Layout) (level : Nat) : List (String × Json) → Text → Text
  | [], written => written
  | (name, value) :: fields, written =>
    let written := emit (',' :: layout.lineBreak level) written
    let written := emit (quote name.toList ++ layout.colon) written
    writeFields layout level fields (write layout level value written)

end

/-- The text of a value. -/
def render (layout : Layout) (value : Json) : Text := (write layout 0 value []).reverse

end Json

end LiquidTemplate
