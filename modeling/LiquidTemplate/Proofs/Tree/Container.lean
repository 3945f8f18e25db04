import LiquidTemplate.Tree.Outline

/-!
# Containers

The nodes that hold child nodes: the document, elements, blocks and their branches. A document lists
all of its own, itself included (`Document.containers`).
-/

namespace LiquidTemplate

/-- The bytes a node covers. -/
def Node.position (n : Node) : Span := n.outline.value.position

def Branch.position (b : Branch) : Span := b.outline.value.position

/-- A node that may have children. -/
inductive Container where
  | document (document : Document)
  | element (name : ElementName) (attributes : List AttributeNode) (children : List Node)
      (position : Span)
  | block (tag : Tag) (branches : List Branch) (closing : Trims) (position : Span)
  | branch (label : Option Tag) (children : List Node) (position : Span)

namespace Container

def position : Container → Span
  | document d => d.position
  | element _ _ _ position | block _ _ _ position | branch _ _ position => position

/-- Where the children stand. -/
def childSpans : Container → List Span
  | document d => d.children.map Node.position
  | element _ _ children _ | branch _ children _ => children.map Node.position
  | block _ branches _ _ => branches.map Branch.position

end Container

mutual

/-- The containers in the subtree of a node. -/
def Node.containers : Node → List Container
  | .element name attributes children position =>
    .element name attributes children position :: Node.containersAll children
  | .block tag branches closing position =>
    .block tag branches closing position :: Branch.containersAll branches
  | .text _ _ | .drop _ | .tag _ _ | .comment _ _ | .doctype _ _ | .rawTag _ _ _ _
  | .rawElement _ _ _ _ | .voidElement _ _ _ | .selfClosingElement _ _ _ => []

def Branch.containers : Branch → List Container
  | .mk label children position => .branch label children position :: Node.containersAll children

def Node.containersAll : List Node → List Container
  | [] => []
  | n :: ns => n.containers ++ Node.containersAll ns

def Branch.containersAll : List Branch → List Container
  | [] => []
  | b :: bs => b.containers ++ Branch.containersAll bs

end

def Document.containers (d : Document) : List Container :=
  .document d :: Node.containersAll d.children

theorem Node.containersAll_append (ns ms : List Node) :
    Node.containersAll (ns ++ ms) = Node.containersAll ns ++ Node.containersAll ms := by
  induction ns with
  | nil => rfl
  | cons n ns ih => simp [Node.containersAll, ih]

end LiquidTemplate
