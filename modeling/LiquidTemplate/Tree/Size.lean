import LiquidTemplate.Tree.Node

/-!
# Counting nodes

Attributes, parts of their values and dynamic names count as nodes, and so does a document.
-/

namespace LiquidTemplate

def ValueNode.size (v : ValueNode) : Nat := v.parts.length

/-- An attribute and the parts of its value. -/
def AttributeNode.size (a : AttributeNode) : Nat := 1 + (a.value.map ValueNode.size).getD 0

/-- Number of nodes in a list of attributes. -/
def AttributeNode.sizeAll (as : List AttributeNode) : Nat := as.foldr (fun a n => a.size + n) 0

def ElementName.size : ElementName → Nat
  | fixed _ => 0
  | dynamic _ => 1

mutual

/-- Number of nodes in a subtree. -/
def Node.size : Node → Nat
  | .text _ _ | .drop _ | .tag _ _ | .comment _ _ | .doctype _ _ | .rawTag _ _ _ _ => 1
  | .rawElement _ _ attributes _ => 1 + AttributeNode.sizeAll attributes
  | .voidElement _ attributes _ => 1 + AttributeNode.sizeAll attributes
  | .selfClosingElement name attributes _ => 1 + name.size + AttributeNode.sizeAll attributes
  | .element name attributes children _ =>
    1 + name.size + AttributeNode.sizeAll attributes + Node.sizeAll children
  | .block _ branches _ _ => 1 + Branch.sizeAll branches

def Branch.size : Branch → Nat
  | .mk _ children _ => 1 + Node.sizeAll children

def Node.sizeAll : List Node → Nat
  | [] => 0
  | n :: ns => n.size + Node.sizeAll ns

def Branch.sizeAll : List Branch → Nat
  | [] => 0
  | b :: bs => b.size + Branch.sizeAll bs

end

/-- Number of nodes of a document, itself included (`len`). -/
def Document.size (d : Document) : Nat := 1 + Node.sizeAll d.children

end LiquidTemplate
