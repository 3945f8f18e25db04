import LiquidTemplate.Token.Basic

/-!
# Where the parts of a token stand

A lexeme has no offsets, but its parts cover it from end to end, so the token's start fixes where
each of them stands. `Token.parts` lists these spans, in the shape of the token.
-/

namespace LiquidTemplate

/-- The bytes that a text covers from `start` on. -/
def Span.ofText (start : Nat) (t : Text) : Span := ⟨start, start + Text.size t⟩

/-! ## Items inside a head -/

namespace Value

/-- The pieces of a value that starts at `start`. -/
def piecesAt (start : Nat) (v : Value) : List (Located Piece) :=
  Located.locate (fun p => Text.size p.chars) (start + Text.size (Quote.chars v.quote)) v.pieces

end Value

namespace Attribute

/-- The value of an attribute whose name starts at `start`. -/
def valueAt? (start : Nat) (a : Attribute) : Option (Located Value) :=
  a.assignment.map fun s =>
    ⟨start + Text.size a.name + Text.size s.before + 1 + Text.size s.after, s.value⟩

end Attribute

namespace Head

/-- Where the name stands in a head that starts at `start`. -/
def nameSpan (start : Nat) (h : Head) : Span := .ofText (start + 1) h.name.chars

/-- The attributes of a head that starts at `start`, each with the start of its name. -/
def attributesAt (start : Nat) (h : Head) : List (Located Attribute) :=
  (Located.locate (fun a => Text.size a.chars) (h.nameSpan start).stop h.attributes).map
    fun a => ⟨a.start + Text.size a.item.gap, a.item⟩

end Head

/-! ## Spans -/

/-- A drop or a run of text in a value. -/
structure PieceParts where
  isDrop : Bool
  whole : Span
deriving DecidableEq, Repr

structure ValueParts where
  /-- Quotes included. -/
  whole : Span
  quote : Option Quote
  pieces : List PieceParts
deriving DecidableEq, Repr

structure AttributeParts where
  whole : Span
  name : Span
  value : Option ValueParts
deriving DecidableEq, Repr

/-- The name of a tag. -/
structure NameParts where
  isDynamic : Bool
  whole : Span
deriving DecidableEq, Repr

structure HeadParts where
  whole : Span
  name : NameParts
  attributes : List AttributeParts
  selfClosing : Bool
deriving DecidableEq, Repr

/-- The spans of the parts of a token. -/
inductive Parts where
  | text
  | drop
  | tag
  | startTag (head : HeadParts)
  | endTag (name : NameParts)
  | comment (body : Span)
  /-- What stands behind the word `doctype`, without blanks around it. -/
  | doctype (value : Span)
  | rawElement (head : HeadParts) (body close : Span)
  | rawTag (opening body close : Span)
  | invalid (flaw : Flaw)
deriving DecidableEq, Repr

namespace PieceParts

def ofPiece (p : Located Piece) : PieceParts :=
  ⟨match p.item with
    | .text _ => false
    | .drop _ => true,
   .ofText p.start p.item.chars⟩

end PieceParts

namespace ValueParts

def ofValue (v : Located Value) : ValueParts :=
  ⟨.ofText v.start v.item.chars, v.item.quote,
   (v.item.piecesAt v.start).map PieceParts.ofPiece⟩

end ValueParts

namespace AttributeParts

def ofAttribute (a : Located Attribute) : AttributeParts :=
  ⟨.ofText a.start a.item.body, .ofText a.start a.item.name,
   (a.item.valueAt? a.start).map ValueParts.ofValue⟩

end AttributeParts

namespace NameParts

def ofName (start : Nat) (name : TagName) : NameParts :=
  ⟨match name with
    | .fixed _ => false
    | .dynamic _ => true,
   .ofText start name.chars⟩

end NameParts

namespace HeadParts

def ofHead (start : Nat) (h : Head) : HeadParts :=
  ⟨.ofText start h.chars, .ofName (start + 1) h.name,
   (h.attributesAt start).map AttributeParts.ofAttribute, h.selfClosing⟩

end HeadParts

namespace Token

/-- The parts of a token. -/
def parts (t : Token) : Parts :=
  match t.item with
  | .text _ => .text
  | .drop _ => .drop
  | .tag _ => .tag
  | .startTag head => .startTag (.ofHead t.start head)
  | .endTag name _ => .endTag (.ofName (t.start + 2) name)
  | .comment body => .comment (.ofText (t.start + Text.size Delimiter.comment.opening) body)
  | .doctype keyword raw =>
    let start := t.start + 2 + Text.size keyword
    .doctype (.ofText (start + Text.size (Text.leadingBlanks raw)) (Text.trim raw))
  | .rawElement head body _ _ =>
    let body := Span.ofText (t.start + Text.size head.chars) body
    .rawElement (.ofHead t.start head) body ⟨body.stop, t.stop⟩
  | .rawTag opening body _ =>
    let opening := Span.ofText t.start (Delimiter.tag.enclose opening)
    let body := Span.ofText opening.stop body
    .rawTag opening body ⟨body.stop, t.stop⟩
  | .invalid flaw _ => .invalid flaw

end Token

end LiquidTemplate
