import LiquidTemplate.Token.Parts

/-!
# The syntax tree

A document is a list of nodes. Elements hold attributes and nodes, blocks hold branches, and the
branches hold nodes; what cannot stand in a place has no constructor there. Every node knows the
bytes it covers, delimiters included.
-/

namespace LiquidTemplate

/-- A Liquid output, written `{{ … }}` (`LiquidDrop`). -/
structure DropNode where
  markup : Markup
  position : Span
deriving DecidableEq, Repr

/-- A part of an attribute value. -/
inductive PartNode where
  | text (value : Text) (position : Span)
  | drop (drop : DropNode)
deriving DecidableEq, Repr

/-- The value of an attribute, which may have no parts if it has quotes. -/
structure ValueNode where
  quote : Option Quote
  parts : List PartNode
deriving DecidableEq, Repr

/-- An attribute; without an equals sign it has no value. -/
structure AttributeNode where
  name : Text
  value : Option ValueNode
  position : Span
deriving DecidableEq, Repr

/-- The name of an element, as written in its start tag. -/
inductive ElementName where
  | fixed (name : Text)
  | dynamic (drop : DropNode)
deriving DecidableEq, Repr

mutual

inductive Node where
  | text (value : Text) (position : Span)
  | drop (drop : DropNode)
  /-- A Liquid tag that opens and closes nothing. -/
  | tag (tag : Tag) (position : Span)
  | comment (body : Text) (position : Span)
  | doctype (value : Text) (position : Span)
  /-- A Liquid tag with a verbatim body; `closing` is the trim markers of its end tag, here and in
  `block`. -/
  | rawTag (tag : Tag) (body : Text) (closing : Trims) (position : Span)
  | rawElement (name body : Text) (attributes : List AttributeNode) (position : Span)
  | voidElement (name : Text) (attributes : List AttributeNode) (position : Span)
  | selfClosingElement (name : ElementName) (attributes : List AttributeNode) (position : Span)
  | element (name : ElementName) (attributes : List AttributeNode) (children : List Node)
      (position : Span)
  | block (tag : Tag) (branches : List Branch) (closing : Trims) (position : Span)

/-- A part of a block. The first has no label; each other one is labelled by the tag that starts
it. -/
inductive Branch where
  | mk (label : Option Tag) (children : List Node) (position : Span)

end

/-- A template and its top-level nodes. -/
structure Document where
  source : Text
  children : List Node

/-- A document covers all of its template. -/
def Document.position (d : Document) : Span := .ofText 0 d.source

/-! ## Nodes from the parts of tokens -/

namespace DropNode

/-- The drop that starts at `start` and encloses `inner` (`drop` of the builder). -/
def ofInner (start : Nat) (inner : Text) : DropNode :=
  ⟨.ofInner inner, .ofText start (Delimiter.drop.enclose inner)⟩

end DropNode

namespace PartNode

def ofPiece (p : Located Piece) : PartNode :=
  match p.item with
  | .text value => .text value (.ofText p.start value)
  | .drop inner => .drop (.ofInner p.start inner)

end PartNode

namespace ValueNode

def ofValue (v : Located Value) : ValueNode :=
  ⟨v.item.quote, (v.item.piecesAt v.start).map PartNode.ofPiece⟩

end ValueNode

namespace AttributeNode

def ofAttribute (a : Located Attribute) : AttributeNode :=
  ⟨a.item.name, (a.item.valueAt? a.start).map ValueNode.ofValue, .ofText a.start a.item.body⟩

/-- The attributes of a head that starts at `start` (`attributes`). -/
def ofHead (start : Nat) (h : Head) : List AttributeNode :=
  (h.attributesAt start).map ofAttribute

end AttributeNode

namespace ElementName

/-- The name of a head that starts at `start` (`element_name`). -/
def ofHead (start : Nat) (h : Head) : ElementName :=
  match h.name with
  | .fixed name => .fixed name
  | .dynamic inner => .dynamic (.ofInner (start + 1) inner)

end ElementName

namespace Node

/-- The text node of a run of text, without the blanks around it; a blank run has none (`text` of
the builder). -/
def ofText? (start : Nat) (t : Text) : Option Node :=
  let value := Text.trim t
  if value.isEmpty then none
  else some (.text value (.ofText (start + Text.size (Text.leadingBlanks t)) value))

end Node

end LiquidTemplate
