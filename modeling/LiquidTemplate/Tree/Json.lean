import LiquidTemplate.Tree.Node
import LiquidTemplate.Json

/-!
# The syntax tree as JSON

Each node is an object that begins with its type and ends with its position; what it holds is nested
in it. Nesting is limited: `room` counts the levels that are left below a node, and a tree that
needs more has no JSON form.
-/

namespace LiquidTemplate

open Json (string number bool null array object)

def Span.toJson (s : Span) : Json := object [("start", number s.start), ("end", number s.stop)]

def Trim.toJson (t : Trim) : Json := string t.chars

/-- The trim markers of a construct. -/
def Trims.fields (t : Trims) : List (String × Json) :=
  [("whitespaceStart", t.start.toJson), ("whitespaceEnd", t.stop.toJson)]

/-- The trim markers of an end tag. -/
def Trims.closingFields (t : Trims) : List (String × Json) :=
  [("delimiterWhitespaceStart", t.start.toJson), ("delimiterWhitespaceEnd", t.stop.toJson)]

namespace Json

/-- A node of the syntax tree. -/
def ofNode (type : String) (fields : List (String × Json)) (position : Span) : Json :=
  object (("type", string type.toList) :: (fields ++ [("position", position.toJson)]))

/-- Writes what a node holds one level below it. -/
def below? {α : Type} (write : Nat → α → Option Json) (room : Nat) : List α → Option (List Json)
  | [] => some []
  | x :: xs =>
    match room with
    | 0 => none
    | room + 1 => do return (← write room x) :: (← below? write (room + 1) xs)

end Json

open Json (ofNode below?)

def DropNode.toJson (d : DropNode) : Json :=
  ofNode "LiquidDrop" (("markup", string d.markup.text) :: d.markup.trims.fields) d.position

def PartNode.toJson : PartNode → Json
  | text value position => ofNode "TextNode" [("value", string value)] position
  | drop d => d.toJson

namespace AttributeNode

/-- The quote of the value, as a text of one character. -/
def quoteToJson (a : AttributeNode) : Json :=
  match a.value.bind ValueNode.quote with
  | some q => string [q.char]
  | none => null

/-- The parts of the value. -/
def parts (a : AttributeNode) : List PartNode := (a.value.map ValueNode.parts).getD []

def toJson? (room : Nat) (a : AttributeNode) : Option Json := do
  let value ← below? (fun _ p => some p.toJson) room a.parts
  return ofNode "AttributeNode"
    [("name", string a.name), ("value", array value), ("quote", a.quoteToJson),
     ("hasEquals", bool a.value.isSome)] a.position

/-- The attributes of an element. -/
def listToJson? (room : Nat) (as : List AttributeNode) : Option Json :=
  return array (← below? toJson? room as)

end AttributeNode

def ElementName.toJson? (room : Nat) : ElementName → Option Json
  | fixed name => some (string name)
  | dynamic d =>
    match room with
    | 0 => none
    | _ + 1 => some d.toJson

mutual

/-- The JSON form of a node that may have `room` levels below it (`serialize` of `NodeView`). -/
def Node.toJson? (room : Nat) : Node → Option Json
  | .text value position => some (ofNode "TextNode" [("value", string value)] position)
  | .drop d => some d.toJson
  | .tag tag position =>
    some (ofNode "LiquidTag"
      ([("name", string tag.name), ("markup", string tag.markup)] ++ tag.trims.fields ++
        Trims.none.closingFields) position)
  | .comment body position => some (ofNode "HtmlComment" [("body", string body)] position)
  | .doctype value position =>
    some (ofNode "HtmlDoctype" [("legacyDoctypeString", string value)] position)
  | .rawTag tag body closing position =>
    some (ofNode "LiquidRawTag"
      ([("name", string tag.name), ("markup", string tag.markup), ("body", string body)] ++
        tag.trims.fields ++ closing.closingFields) position)
  | .rawElement name body attributes position => do
    return ofNode "HtmlRawNode"
      [("name", string name), ("body", string body),
       ("attributes", ← AttributeNode.listToJson? room attributes)] position
  | .voidElement name attributes position => do
    return ofNode "HtmlVoidElement"
      [("name", string name), ("attributes", ← AttributeNode.listToJson? room attributes)] position
  | .selfClosingElement name attributes position => do
    return ofNode "HtmlSelfClosingElement"
      [("name", ← name.toJson? room),
       ("attributes", ← AttributeNode.listToJson? room attributes)] position
  | .element name attributes children position => do
    return ofNode "HtmlElement"
      [("name", ← name.toJson? room),
       ("attributes", ← AttributeNode.listToJson? room attributes),
       ("children", array (← Node.belowToJson? room children))] position
  | .block tag branches closing position => do
    let branches ← Branch.belowToJson? room branches
    return ofNode "LiquidTag"
      ([("name", string tag.name), ("markup", string tag.markup), ("children", array branches)] ++
        tag.trims.fields ++ closing.closingFields) position

def Branch.toJson? (room : Nat) : Branch → Option Json
  | .mk label children position => do
    let children ← Node.belowToJson? room children
    return ofNode "LiquidBranch"
      ([("name", (Tag.labelName? label).elim null string),
        ("markup", string (Tag.labelMarkup label)), ("children", array children)] ++
        (Tag.labelTrims label).fields) position

/-- The nodes that an element or a branch holds. -/
def Node.belowToJson? (room : Nat) : List Node → Option (List Json)
  | [] => some []
  | n :: ns =>
    match room with
    | 0 => none
    | room + 1 => do return (← n.toJson? room) :: (← Node.belowToJson? (room + 1) ns)

/-- The branches of a block. -/
def Branch.belowToJson? (room : Nat) : List Branch → Option (List Json)
  | [] => some []
  | b :: bs =>
    match room with
    | 0 => none
    | room + 1 => do return (← b.toJson? room) :: (← Branch.belowToJson? (room + 1) bs)

end

namespace Document

/-- How many levels below the document can be written (`MAX_SERIALIZE_DEPTH`). -/
def maxDepth : Nat := 256

/-- The JSON form of a document (`serialize`); `none` if it is nested too deeply. -/
def toJson? (d : Document) : Option Json := do
  return ofNode "Document" [("children", array (← Node.belowToJson? maxDepth d.children))]
    d.position

/-- What is said of a document without a JSON form. -/
def depthMessage : Text :=
  "node nesting exceeds the serializable depth of ".toList ++ Nat.toDigits 10 maxDepth

/-- The text of a document's JSON form (`render_ast`). -/
def render? (layout : Json.Layout) (d : Document) : Option Text :=
  d.toJson?.map (Json.render layout)

end Document

end LiquidTemplate
