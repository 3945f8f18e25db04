import LiquidTemplate.Proofs.Tree.Values
import LiquidTemplate.Tree.Outline

/-!
# Moving a tree in its template

A node that is moved covers the bytes `n` further on, and so does all it holds; nothing else of it
changes. The nodes of a token depend on where the token starts in no other way
(`AttributeNode.ofHead_add`, `Node.ofText?_add`), and moving a node moves every entry of its outline
(`Node.outline_shift`).
-/

namespace LiquidTemplate

/-! ## Located items -/

theorem Span.ofText_add (start n : Nat) (t : Text) :
    Span.ofText (start + n) t = (Span.ofText start t).shift n := by
  simp only [Span.ofText, Span.shift, Span.mk.injEq, true_and]
  omega

namespace Located

variable {α : Type}

/-- The same item, `n` bytes further on. -/
def shift (n : Nat) (x : Located α) : Located α := { x with start := x.start + n }

theorem locate_add (width : α → Nat) (start n : Nat) (items : List α) :
    locate width (start + n) items = (locate width start items).map (shift n) := by
  induction items generalizing start with
  | nil => rfl
  | cons x xs ih =>
    rw [locate_cons, locate_cons, List.map_cons, Nat.add_right_comm, ih]
    rfl

end Located

/-! ## Moving nodes -/

def DropNode.shift (n : Nat) (d : DropNode) : DropNode := { d with position := d.position.shift n }

def PartNode.shift (n : Nat) : PartNode → PartNode
  | text value position => text value (position.shift n)
  | drop d => drop (d.shift n)

def ValueNode.shift (n : Nat) (v : ValueNode) : ValueNode :=
  { v with parts := v.parts.map (PartNode.shift n) }

def AttributeNode.shift (n : Nat) (a : AttributeNode) : AttributeNode :=
  ⟨a.name, a.value.map (ValueNode.shift n), a.position.shift n⟩

def ElementName.shift (n : Nat) : ElementName → ElementName
  | fixed name => fixed name
  | dynamic d => dynamic (d.shift n)

mutual

/-- The same node, `n` bytes further on. -/
def Node.shift (n : Nat) : Node → Node
  | .text value position => .text value (position.shift n)
  | .drop d => .drop (d.shift n)
  | .tag tag position => .tag tag (position.shift n)
  | .comment body position => .comment body (position.shift n)
  | .doctype value position => .doctype value (position.shift n)
  | .rawTag tag body closing position => .rawTag tag body closing (position.shift n)
  | .rawElement name body attributes position =>
    .rawElement name body (attributes.map (AttributeNode.shift n)) (position.shift n)
  | .voidElement name attributes position =>
    .voidElement name (attributes.map (AttributeNode.shift n)) (position.shift n)
  | .selfClosingElement name attributes position =>
    .selfClosingElement (name.shift n) (attributes.map (AttributeNode.shift n)) (position.shift n)
  | .element name attributes children position =>
    .element (name.shift n) (attributes.map (AttributeNode.shift n)) (Node.shiftAll n children)
      (position.shift n)
  | .block tag branches closing position =>
    .block tag (Branch.shiftAll n branches) closing (position.shift n)

def Branch.shift (n : Nat) : Branch → Branch
  | .mk label children position => .mk label (Node.shiftAll n children) (position.shift n)

def Node.shiftAll (n : Nat) : List Node → List Node
  | [] => []
  | m :: ms => m.shift n :: Node.shiftAll n ms

def Branch.shiftAll (n : Nat) : List Branch → List Branch
  | [] => []
  | b :: bs => b.shift n :: Branch.shiftAll n bs

end

theorem Node.shiftAll_eq_map (n : Nat) (ms : List Node) :
    Node.shiftAll n ms = ms.map (shift n) := by
  induction ms with
  | nil => rfl
  | cons m ms ih => rw [Node.shiftAll, ih, List.map_cons]

theorem Branch.shiftAll_eq_map (n : Nat) (bs : List Branch) :
    Branch.shiftAll n bs = bs.map (shift n) := by
  induction bs with
  | nil => rfl
  | cons b bs ih => rw [Branch.shiftAll, ih, List.map_cons]

/-! ## Nodes from the parts of tokens -/

theorem DropNode.ofInner_add (start n : Nat) (inner : Text) :
    ofInner (start + n) inner = (ofInner start inner).shift n := by
  simp only [ofInner, shift, Span.ofText_add]

theorem PartNode.ofPiece_shift (n : Nat) (p : Located Piece) :
    ofPiece (p.shift n) = (ofPiece p).shift n := by
  obtain ⟨start, piece⟩ := p
  cases piece with
  | text value => simp only [ofPiece, Located.shift, shift, Span.ofText_add]
  | drop inner => simp only [ofPiece, Located.shift, shift, DropNode.ofInner_add]

theorem ValueNode.ofValue_shift (n : Nat) (v : Located Value) :
    ofValue (v.shift n) = (ofValue v).shift n := by
  obtain ⟨start, v⟩ := v
  simp only [ofValue, Located.shift, Value.piecesAt, shift]
  rw [Nat.add_right_comm, Located.locate_add, List.map_map, List.map_map]
  congr 1
  exact List.map_congr_left fun p _ => PartNode.ofPiece_shift n p

theorem Attribute.valueAt?_add (a : Attribute) (start n : Nat) :
    a.valueAt? (start + n) = (a.valueAt? start).map (Located.shift n) := by
  obtain ⟨gap, name, assignment⟩ := a
  cases assignment with
  | none => rfl
  | some s =>
    simp only [valueAt?, Option.map_some, Located.shift, Option.some.injEq, Located.mk.injEq,
      and_true]
    omega

theorem AttributeNode.ofAttribute_shift (n : Nat) (a : Located Attribute) :
    ofAttribute (a.shift n) = (ofAttribute a).shift n := by
  obtain ⟨start, a⟩ := a
  simp only [ofAttribute, Located.shift, Attribute.valueAt?_add, shift, Span.ofText_add,
    Option.map_map]
  congr 2
  exact funext fun v => ValueNode.ofValue_shift n v

theorem Head.attributesAt_add (h : Head) (start n : Nat) :
    h.attributesAt (start + n) = (h.attributesAt start).map (Located.shift n) := by
  have hstop : (h.nameSpan (start + n)).stop = (h.nameSpan start).stop + n := by
    simp only [nameSpan, Span.ofText]
    omega
  simp only [attributesAt]
  rw [hstop, Located.locate_add, List.map_map, List.map_map]
  refine List.map_congr_left fun a _ => ?_
  simp only [Function.comp_apply, Located.shift, Located.mk.injEq, and_true]
  omega

theorem AttributeNode.ofHead_add (start n : Nat) (h : Head) :
    ofHead (start + n) h = (ofHead start h).map (shift n) := by
  rw [ofHead, ofHead, Head.attributesAt_add, List.map_map, List.map_map]
  exact List.map_congr_left fun a _ => AttributeNode.ofAttribute_shift n a

theorem ElementName.ofHead_add (start n : Nat) (h : Head) :
    ofHead (start + n) h = (ofHead start h).shift n := by
  unfold ofHead
  split
  · rfl
  · simp only [shift]
    rw [Nat.add_right_comm, DropNode.ofInner_add]

theorem Node.ofText?_add (start n : Nat) (t : Text) :
    ofText? (start + n) t = (ofText? start t).map (shift n) := by
  simp only [ofText?]
  rw [Nat.add_right_comm, Span.ofText_add]
  split <;> rfl

/-! ## Outlines -/

/-- The entry of a node that is moved. -/
def Entry.shift (n : Nat) (e : Entry) : Entry := { e with position := e.position.shift n }

theorem DropNode.outline_shift (n : Nat) (role : Role) (d : DropNode) :
    (d.shift n).outline role = (d.outline role).map (Entry.shift n) := rfl

theorem PartNode.outline_shift (n : Nat) (p : PartNode) :
    (p.shift n).outline = p.outline.map (Entry.shift n) := by
  cases p <;> rfl

theorem AttributeNode.outline_shift (n : Nat) (a : AttributeNode) :
    (a.shift n).outline = a.outline.map (Entry.shift n) := by
  obtain ⟨name, value, position⟩ := a
  cases value with
  | none => rfl
  | some v =>
    simp only [outline, shift, Option.map_some, Option.getD_some, ValueNode.shift, List.map_map,
      Tree.map, Tree.mapAll_map]
    congr 1
    exact List.map_congr_left fun p _ => PartNode.outline_shift n p

theorem AttributeNode.map_outline_shift (n : Nat) (as : List AttributeNode) :
    (as.map (shift n)).map outline = Tree.mapAll (Entry.shift n) (as.map outline) := by
  rw [List.map_map, Tree.mapAll_map]
  exact List.map_congr_left fun a _ => AttributeNode.outline_shift n a

theorem ElementName.outline_shift (n : Nat) (name : ElementName) :
    (name.shift n).outline = Tree.mapAll (Entry.shift n) name.outline := by
  cases name <;> rfl

theorem ElementName.fixed?_shift (n : Nat) (name : ElementName) :
    (name.shift n).fixed? = name.fixed? := by
  cases name <;> rfl

mutual

/-- Moving a node moves every entry of its outline. -/
theorem Node.outline_shift (n : Nat) : ∀ m : Node,
    (m.shift n).outline = m.outline.map (Entry.shift n)
  | .text _ _ | .drop _ | .tag _ _ | .comment _ _ | .doctype _ _ | .rawTag _ _ _ _ => rfl
  | .rawElement _ _ attributes _ | .voidElement _ attributes _ => by
    simp only [Node.shift, Node.outline, Tree.map, AttributeNode.map_outline_shift]
    rfl
  | .selfClosingElement name attributes _ => by
    simp only [Node.shift, Node.outline, Tree.map, AttributeNode.map_outline_shift,
      ElementName.outline_shift, ElementName.fixed?_shift, Tree.mapAll_append]
    rfl
  | .element name attributes children _ => by
    simp only [Node.shift, Node.outline, Tree.map, AttributeNode.map_outline_shift,
      ElementName.outline_shift, ElementName.fixed?_shift, Tree.mapAll_append,
      Node.outlineAll_shiftAll n children]
    rfl
  | .block _ branches _ _ => by
    simp only [Node.shift, Node.outline, Tree.map, Branch.outlineAll_shiftAll n branches]
    rfl

theorem Branch.outline_shift (n : Nat) : ∀ b : Branch,
    (b.shift n).outline = b.outline.map (Entry.shift n)
  | .mk _ children _ => by
    simp only [Branch.shift, Branch.outline, Tree.map, Node.outlineAll_shiftAll n children]
    rfl

theorem Node.outlineAll_shiftAll (n : Nat) : ∀ ms : List Node,
    Node.outlineAll (Node.shiftAll n ms) = Tree.mapAll (Entry.shift n) (Node.outlineAll ms)
  | [] => rfl
  | m :: ms => by
    simp only [Node.shiftAll, Node.outlineAll, Tree.mapAll, Node.outline_shift n m,
      Node.outlineAll_shiftAll n ms]

theorem Branch.outlineAll_shiftAll (n : Nat) : ∀ bs : List Branch,
    Branch.outlineAll (Branch.shiftAll n bs) = Tree.mapAll (Entry.shift n) (Branch.outlineAll bs)
  | [] => rfl
  | b :: bs => by
    simp only [Branch.shiftAll, Branch.outlineAll, Tree.mapAll, Branch.outline_shift n b,
      Branch.outlineAll_shiftAll n bs]

end

end LiquidTemplate
