import LiquidTemplate.Tree.Outline

/-!
# Numbered nodes

Each node of a document has a number: the document has 0, and all others are counted from 1 in the
order in which they are complete, so a node comes behind everything it holds. The arena lists a
record for each node, by number; a record refers to other nodes by their numbers.
-/

namespace LiquidTemplate

/-- A node, its parent and what it holds, by number. -/
structure Record where
  id : Nat
  parent : Option Nat
  entry : Entry
  contents : List (Role × Nat)
deriving DecidableEq, Repr

namespace Record

def ofNode (parent : Option Nat) : Tree (Nat × Entry) → Record
  | .node (id, entry) children =>
    ⟨id, parent, entry, children.map fun t => (t.value.2.role, t.value.1)⟩

/-- The numbers of all nodes that are held (`contents`). -/
def contentIds (r : Record) : List Nat := r.contents.map Prod.snd

/-- The numbers of the nodes held in one role. -/
def idsOf (r : Record) (role : Role) : List Nat :=
  r.contents.filterMap fun (role', id) => if role' = role then some id else none

def children (r : Record) : List Nat := r.idsOf .child

def attributes (r : Record) : List Nat := r.idsOf .attr

/-- The parts of an attribute's value. -/
def valueParts (r : Record) : List Nat := r.idsOf .part

/-- The drop that is the name of an element. -/
def nameDrop? (r : Record) : Option Nat := (r.idsOf .name).head?

mutual

/-- Puts the records of a tree in front of `done`, the last one first. -/
def ofTreeOnto (parent : Nat) (done : List Record) : Tree (Nat × Entry) → List Record
  | .node (id, entry) children =>
    ofNode (some parent) (.node (id, entry) children) :: ofTreesOnto id done children

def ofTreesOnto (parent : Nat) (done : List Record) : List (Tree (Nat × Entry)) → List Record
  | [] => done
  | t :: ts => ofTreesOnto parent (ofTreeOnto parent done t) ts

end

end Record

namespace Document

/-- The outline with each node's number. -/
def numbered (d : Document) : Tree (Nat × Entry) :=
  .node (0, d.outline.value) (Tree.numberAll 1 d.outline.children).1

/-- The records of all nodes, by number (`nodes`). -/
def records (d : Document) : List Record :=
  .ofNode none d.numbered :: (Record.ofTreesOnto 0 [] d.numbered.children).reverse

/-- Visits every node below the document in pre-order, each with the node that holds it (`walk`). -/
def walk (d : Document) : List ((Nat × Entry) × (Nat × Entry)) := d.numbered.walk

end Document

end LiquidTemplate
