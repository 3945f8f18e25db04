import LiquidTemplate.Tree.Outline
import LiquidTemplate.Tree.Size

/-!
# Counting the nodes of an outline

An outline has as many nodes as are counted in the tree itself (`Node.size_outline`).
-/

namespace LiquidTemplate

theorem Tree.sizeAll_append {α : Type} (ts us : List (Tree α)) :
    sizeAll (ts ++ us) = sizeAll ts + sizeAll us := by
  induction ts with
  | nil => simp [sizeAll]
  | cons t ts ih => simp [sizeAll, ih, Nat.add_assoc]

theorem PartNode.size_outline (p : PartNode) : p.outline.size = 1 := by
  cases p <;> rfl

theorem AttributeNode.size_outline (a : AttributeNode) : a.outline.size = a.size := by
  have hparts (parts : List PartNode) :
      Tree.sizeAll (parts.map PartNode.outline) = parts.length := by
    induction parts with
    | nil => rfl
    | cons p parts ih =>
      rw [List.map_cons, Tree.sizeAll, PartNode.size_outline, ih, List.length_cons, Nat.add_comm]
  obtain ⟨name, value, position⟩ := a
  cases value with
  | none => rfl
  | some v => simp [outline, Tree.size, hparts, size, ValueNode.size]

theorem AttributeNode.sizeAll_outline (as : List AttributeNode) :
    Tree.sizeAll (as.map AttributeNode.outline) = AttributeNode.sizeAll as := by
  induction as with
  | nil => rfl
  | cons a as ih => simpa [Tree.sizeAll, size_outline, sizeAll] using ih

theorem ElementName.sizeAll_outline (name : ElementName) :
    Tree.sizeAll name.outline = name.size := by
  cases name <;> rfl

mutual

theorem Node.size_outline : ∀ n : Node, n.outline.size = n.size
  | .text _ _ | .drop _ | .tag _ _ | .comment _ _ | .doctype _ _ | .rawTag _ _ _ _ => rfl
  | .rawElement _ _ attributes _ | .voidElement _ attributes _ => by
    simp only [Node.outline, Tree.size, AttributeNode.sizeAll_outline, Node.size]
  | .selfClosingElement name attributes _ => by
    simp only [Node.outline, Tree.size, Tree.sizeAll_append, AttributeNode.sizeAll_outline,
      ElementName.sizeAll_outline, Node.size, Nat.add_assoc]
  | .element name attributes children _ => by
    simp only [Node.outline, Tree.size, Tree.sizeAll_append, AttributeNode.sizeAll_outline,
      ElementName.sizeAll_outline, Node.sizeAll_outline children, Node.size, Nat.add_assoc]
  | .block _ branches _ _ => by
    simp only [Node.outline, Tree.size, Branch.sizeAll_outline branches, Node.size]

theorem Branch.size_outline : ∀ b : Branch, b.outline.size = b.size
  | .mk _ children _ => by
    simp only [Branch.outline, Tree.size, Node.sizeAll_outline children, Branch.size]

theorem Node.sizeAll_outline : ∀ ns : List Node,
    Tree.sizeAll (Node.outlineAll ns) = Node.sizeAll ns
  | [] => rfl
  | n :: ns => by
    simp only [Node.outlineAll, Tree.sizeAll, Node.size_outline n, Node.sizeAll_outline ns,
      Node.sizeAll]

theorem Branch.sizeAll_outline : ∀ bs : List Branch,
    Tree.sizeAll (Branch.outlineAll bs) = Branch.sizeAll bs
  | [] => rfl
  | b :: bs => by
    simp only [Branch.outlineAll, Tree.sizeAll, Branch.size_outline b, Branch.sizeAll_outline bs,
      Branch.sizeAll]

end

end LiquidTemplate
