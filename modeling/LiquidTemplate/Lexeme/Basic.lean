import LiquidTemplate.Lexeme.Delimiter
import LiquidTemplate.Markup
import LiquidTemplate.Keyword

/-!
# Lexemes

The units a template is split into. A lexeme holds the text it was cut from, part by part, and no
offsets: `Lexeme.chars` puts the parts back together, so splitting a template into lexemes can be
stated to lose nothing, and moving a template in a larger one changes none of its lexemes.
-/

namespace LiquidTemplate

/-- The name of an HTML tag. -/
inductive TagName where
  | fixed (name : Text)
  /-- A drop, given by what stands between its delimiters. -/
  | dynamic (inner : Text)
deriving DecidableEq, Repr

namespace TagName

def chars : TagName → Text
  | fixed name => name
  | dynamic inner => Delimiter.drop.enclose inner

end TagName

/-- The quotes around an attribute value. -/
inductive Quote where
  | single
  | double
deriving DecidableEq, Repr

namespace Quote

def char : Quote → Char
  | single => '\''
  | double => '"'

/-- The quote that a character is. -/
def ofChar? (c : Char) : Option Quote :=
  if c = '"' then some double else if c = '\'' then some single else none

/-- A quote, or nothing, as text. -/
def chars : Option Quote → Text
  | some q => [q.char]
  | none => []

theorem char_of_ofChar? {c : Char} {q : Quote} (h : ofChar? c = some q) : q.char = c := by
  unfold ofChar? at h
  split at h
  · cases h; simp [char, *]
  · split at h
    · cases h; simp [char, *]
    · cases h

end Quote

/-- A part of an attribute value (`ValuePiece`). -/
inductive Piece where
  /-- Text, Liquid tags included. -/
  | text (value : Text)
  /-- A drop, given by what stands between its delimiters. -/
  | drop (inner : Text)
deriving DecidableEq, Repr

def Piece.chars : Piece → Text
  | text value => value
  | drop inner => Delimiter.drop.enclose inner

/-- An attribute value (`AttributeValue`). -/
structure Value where
  quote : Option Quote
  pieces : List Piece
deriving DecidableEq, Repr

namespace Value

/-- The value without its quotes. -/
def content (v : Value) : Text := v.pieces.flatMap Piece.chars

def chars (v : Value) : Text := Quote.chars v.quote ++ v.content ++ Quote.chars v.quote

end Value

/-- An equals sign with the blanks around it, and a value. -/
structure Assignment where
  before : Text
  after : Text
  value : Value
deriving DecidableEq, Repr

def Assignment.chars (a : Assignment) : Text := a.before ++ ['='] ++ a.after ++ a.value.chars

/-- An attribute of a tag, with the blanks in front of it (`RawAttribute`). -/
structure Attribute where
  gap : Text
  name : Text
  assignment : Option Assignment
deriving DecidableEq, Repr

namespace Attribute

/-- What stands behind the name. -/
def assigned (a : Attribute) : Text :=
  match a.assignment with
  | some assignment => assignment.chars
  | none => []

/-- The attribute without the blanks in front. -/
def body (a : Attribute) : Text := a.name ++ a.assigned

def chars (a : Attribute) : Text := a.gap ++ a.body

end Attribute

/-- A start tag from `<` to `>` (`TagHead`). -/
structure Head where
  name : TagName
  attributes : List Attribute
  /-- The blanks before the end of the tag. -/
  gap : Text
  selfClosing : Bool
deriving DecidableEq, Repr

namespace Head

/-- How the tag ends. -/
def closing (h : Head) : Text := if h.selfClosing then ['/', '>'] else ['>']

/-- The tag behind its `<`. -/
def tail (h : Head) : Text :=
  h.name.chars ++ h.attributes.flatMap Attribute.chars ++ h.gap ++ h.closing

def chars (h : Head) : Text := '<' :: h.tail

/-- The name of the element if its body is kept verbatim. -/
def rawName? (h : Head) : Option Text :=
  match h.name with
  | .fixed name => if !h.selfClosing && Keyword.isRawElement name then some name else none
  | .dynamic _ => none

/-- The name of the element if it is void. -/
def voidName? (h : Head) : Option Text :=
  match h.name with
  | .fixed name => if Keyword.isVoidElement name then some name else none
  | .dynamic _ => none

end Head

/-- A unit of a template (`TokenKind`). -/
inductive Lexeme where
  | text (value : Text)
  /-- Given by what stands between the delimiters, as are tags. -/
  | drop (inner : Text)
  | tag (inner : Text)
  | startTag (head : Head)
  /-- Here `gap` is the blanks before `>`. -/
  | endTag (name : TagName) (gap : Text)
  | comment (body : Text)
  /-- The word `doctype` is kept as written; `raw` is what stands between it and `>`. -/
  | doctype (keyword raw : Text)
  /-- The name in the end tag is kept as written; `closeRest` is what stands between it and
  `>`. -/
  | rawElement (head : Head) (body closeName closeRest : Text)
  /-- Both tags are given by what stands between their delimiters. -/
  | rawTag (opening body closing : Text)
  /-- The rest of a template that cannot be split. -/
  | invalid (flaw : Flaw) (rest : Text)
deriving DecidableEq, Repr

namespace Lexeme

/-- The text a lexeme was cut from. -/
def chars : Lexeme → Text
  | text value => value
  | drop inner => Delimiter.drop.enclose inner
  | tag inner => Delimiter.tag.enclose inner
  | startTag head => head.chars
  | endTag name gap => ['<', '/'] ++ name.chars ++ gap ++ ['>']
  | comment body => Delimiter.comment.enclose body
  | doctype keyword raw => ['<', '!'] ++ keyword ++ raw ++ ['>']
  | rawElement head body closeName closeRest =>
    head.chars ++ body ++ ['<', '/'] ++ closeName ++ closeRest ++ ['>']
  | rawTag opening body closing =>
    Delimiter.tag.enclose opening ++ body ++ Delimiter.tag.enclose closing
  | invalid _ rest => rest

/-- Number of bytes covered. -/
def size (l : Lexeme) : Nat := Text.size l.chars

end Lexeme

end LiquidTemplate
