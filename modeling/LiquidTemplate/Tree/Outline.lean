import LiquidTemplate.Tree.Node
import LiquidTemplate.Tree.Ordered

/-!
# The outline of a document

Seen from outside, a syntax tree is an ordered tree in which every node has a kind, a position and a
role in the node that holds it. What a node holds is listed in the order in which it stands in the
template: a dynamic name, attributes, the parts of a value, children.
-/

namespace LiquidTemplate

/-- What a node is to the node that holds it. -/
inductive Role where
  | name
  | attr
  | part
  | child
deriving DecidableEq, Repr

/-- What a node is, apart from the nodes it holds. An element without a name of its own has a
dynamic one. -/
inductive Kind where
  | document
  | text (value : Text)
  | drop (markup : Markup)
  | tag (tag : Tag)
  | comment (body : Text)
  | doctype (value : Text)
  | rawTag (tag : Tag) (body : Text) (closing : Trims)
  | rawElement (name body : Text)
  | voidElement (name : Text)
  | selfClosingElement (name : Option Text)
  | element (name : Option Text)
  | attr (name : Text) (quote : Option Quote) (hasEquals : Bool)
  | block (tag : Tag) (closing : Trims)
  | branch (label : Option Tag)
deriving DecidableEq, Repr

/-- The name of a kind (`type_name`). -/
def Kind.typeName : Kind → String
  | document => "Document"
  | text _ => "TextNode"
  | drop _ => "LiquidDrop"
  | tag _ => "LiquidTag"
  | comment _ => "HtmlComment"
  | doctype _ => "HtmlDoctype"
  | rawTag _ _ _ => "LiquidRawTag"
  | rawElement _ _ => "HtmlRawNode"
  | voidElement _ => "HtmlVoidElement"
  | selfClosingElement _ => "HtmlSelfClosingElement"
  | element _ => "HtmlElement"
  | attr _ _ _ => "AttributeNode"
  | block _ _ => "LiquidTag"
  | branch _ => "LiquidBranch"

/-- A node of the outline. -/
structure Entry where
  role : Role
  kind : Kind
  position : Span
deriving DecidableEq, Repr

/-- A node that holds none. -/
def Tree.leaf {α : Type} (value : α) : Tree α := .node value []

def DropNode.outline (role : Role) (d : DropNode) : Tree Entry :=
  .leaf ⟨role, .drop d.markup, d.position⟩

def PartNode.outline : PartNode → Tree Entry
  | text value position => .leaf ⟨.part, .text value, position⟩
  | drop d => d.outline .part

def AttributeNode.outline (a : AttributeNode) : Tree Entry :=
  .node ⟨.attr, .attr a.name (a.value.bind ValueNode.quote) a.value.isSome, a.position⟩
    (((a.value.map ValueNode.parts).getD []).map PartNode.outline)

namespace ElementName

/-- The name, if it is written out. -/
def fixed? : ElementName → Option Text
  | fixed name => some name
  | dynamic _ => none

/-- The node of a dynamic name. -/
def outline : ElementName → List (Tree Entry)
  | fixed _ => []
  | dynamic d => [d.outline .name]

end ElementName

mutual

def Node.outline : Node → Tree Entry
  | .text value position => .leaf ⟨.child, .text value, position⟩
  | .drop d => d.outline .child
  | .tag tag position => .leaf ⟨.child, .tag tag, position⟩
  | .comment body position => .leaf ⟨.child, .comment body, position⟩
  | .doctype value position => .leaf ⟨.child, .doctype value, position⟩
  | .rawTag tag body closing position => .leaf ⟨.child, .rawTag tag body closing, position⟩
  | .rawElement name body attributes position =>
    .node ⟨.child, .rawElement name body, position⟩ (attributes.map AttributeNode.outline)
  | .voidElement name attributes position =>
    .node ⟨.child, .voidElement name, position⟩ (attributes.map AttributeNode.outline)
  | .selfClosingElement name attributes position =>
    .node ⟨.child, .selfClosingElement name.fixed?, position⟩
      (name.outline ++ attributes.map AttributeNode.outline)
  | .element name attributes children position =>
    .node ⟨.child, .element name.fixed?, position⟩
      (name.outline ++ attributes.map AttributeNode.outline ++ Node.outlineAll children)
  | .block tag branches closing position =>
    .node ⟨.child, .block tag closing, position⟩ (Branch.outlineAll branches)

def Branch.outline : Branch → Tree Entry
  | .mk label children position =>
    .node ⟨.child, .branch label, position⟩ (Node.outlineAll children)

def Node.outlineAll : List Node → List (Tree Entry)
  | [] => []
  | n :: ns => n.outline :: Node.outlineAll ns

def Branch.outlineAll : List Branch → List (Tree Entry)
  | [] => []
  | b :: bs => b.outline :: Branch.outlineAll bs

end

theorem Node.outlineAll_append (ns ms : List Node) :
    Node.outlineAll (ns ++ ms) = Node.outlineAll ns ++ Node.outlineAll ms := by
  induction ns with
  | nil => rfl
  | cons n ns ih => rw [List.cons_append, Node.outlineAll, Node.outlineAll, ih, List.cons_append]

theorem Branch.outlineAll_append (bs cs : List Branch) :
    Branch.outlineAll (bs ++ cs) = Branch.outlineAll bs ++ Branch.outlineAll cs := by
  induction bs with
  | nil => rfl
  | cons b bs ih =>
    rw [List.cons_append, Branch.outlineAll, Branch.outlineAll, ih, List.cons_append]

/-- The outline of a document, with the document at the root. -/
def Document.outline (d : Document) : Tree Entry :=
  .node ⟨.child, .document, d.position⟩ (Node.outlineAll d.children)

end LiquidTemplate
