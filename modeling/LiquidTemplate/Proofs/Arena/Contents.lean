import LiquidTemplate.Proofs.Arena.Local

/-!
# Contents, role by role

A node holds its dynamic name first, then attributes, parts of a value and children, in this order.
So the contents of a record are what it holds in each role, one role behind the other
(`Document.contentsByRole_eq`).
-/

namespace LiquidTemplate

/-- The order of roles in what a node holds. -/
def Role.InOrder (roles : List Role) : Prop :=
  ∃ names attributes parts children, names ≤ 1 ∧
    roles = List.replicate names .name ++ List.replicate attributes .attr ++
      List.replicate parts .part ++ List.replicate children .child

/-- The node holds others in the order of their roles. -/
def Entry.HoldsInOrder (_ : Entry) (held : List Entry) : Prop := Role.InOrder (held.map Entry.role)

/-! ## Outlines -/

theorem Tree.map_role_eq_replicate {ts : List (Tree Entry)} {role : Role}
    (h : ∀ t ∈ ts, t.value.role = role) :
    (ts.map Tree.value).map Entry.role = List.replicate ts.length role := by
  rw [List.map_map, List.eq_replicate_iff]
  exact ⟨List.length_map _, List.forall_mem_map.2 h⟩

theorem AttributeNode.role_outline (a : AttributeNode) : a.outline.value.role = .attr := rfl

theorem PartNode.role_outline (p : PartNode) : p.outline.value.role = .part := by
  cases p <;> rfl

theorem Node.role_outline (n : Node) : n.outline.value.role = .child := by
  cases n <;> rfl

theorem Branch.role_outline (b : Branch) : b.outline.value.role = .child := by
  cases b; rfl

theorem Node.outlineAll_eq_map (ns : List Node) : outlineAll ns = ns.map outline := by
  induction ns with
  | nil => rfl
  | cons n ns ih => rw [outlineAll, ih, List.map_cons]

theorem Branch.outlineAll_eq_map (bs : List Branch) : outlineAll bs = bs.map outline := by
  induction bs with
  | nil => rfl
  | cons b bs ih => rw [outlineAll, ih, List.map_cons]

namespace Entry

variable {e : Entry}

theorem holdsInOrder_nil : e.HoldsInOrder [] := ⟨0, 0, 0, 0, Nat.zero_le _, rfl⟩

theorem holdsInOrder_parts (parts : List PartNode) :
    e.HoldsInOrder ((parts.map PartNode.outline).map Tree.value) := by
  refine ⟨0, 0, (parts.map PartNode.outline).length, 0, Nat.zero_le _, ?_⟩
  rw [Tree.map_role_eq_replicate (List.forall_mem_map.2 fun p _ => p.role_outline)]
  simp

/-- What an element holds. Its name, its attributes and its children may each be missing. -/
theorem holdsInOrder_element (name : ElementName) (attributes : List AttributeNode)
    {children : List (Tree Entry)} (h : ∀ t ∈ children, t.value.role = .child) :
    e.HoldsInOrder
      ((name.outline ++ attributes.map AttributeNode.outline ++ children).map Tree.value) := by
  refine ⟨name.outline.length, (attributes.map AttributeNode.outline).length, 0, children.length,
    ?_, ?_⟩
  · cases name <;> simp [ElementName.outline]
  · have hname : ∀ t ∈ name.outline, t.value.role = .name := by
      cases name <;> simp [ElementName.outline, DropNode.outline, Tree.leaf, Tree.value]
    have hattributes : ∀ t ∈ attributes.map AttributeNode.outline, t.value.role = .attr :=
      List.forall_mem_map.2 fun a _ => a.role_outline
    rw [List.map_append, List.map_append, List.map_append, List.map_append,
      Tree.map_role_eq_replicate hname, Tree.map_role_eq_replicate hattributes,
      Tree.map_role_eq_replicate h]
    simp

theorem holdsInOrder_attributes (attributes : List AttributeNode) :
    e.HoldsInOrder ((attributes.map AttributeNode.outline).map Tree.value) := by
  simpa [ElementName.outline] using
    holdsInOrder_element (e := e) (.fixed []) attributes (List.forall_mem_nil _)

theorem holdsInOrder_children {children : List (Tree Entry)}
    (h : ∀ t ∈ children, t.value.role = .child) : e.HoldsInOrder (children.map Tree.value) := by
  simpa [ElementName.outline] using holdsInOrder_element (e := e) (.fixed []) [] h

end Entry

open Entry in
theorem AttributeNode.everywhere_holdsInOrder (attributes : List AttributeNode) :
    Tree.EverywhereAll Entry.HoldsInOrder (attributes.map outline) := by
  refine Tree.everywhereAll_iff.2 (List.forall_mem_map.2 fun a _ => ⟨holdsInOrder_parts _, ?_⟩)
  refine Tree.everywhereAll_iff.2 (List.forall_mem_map.2 fun p _ => ?_)
  cases p <;> exact ⟨holdsInOrder_nil, trivial⟩

theorem ElementName.everywhere_holdsInOrder (name : ElementName) :
    Tree.EverywhereAll Entry.HoldsInOrder name.outline := by
  cases name with
  | fixed _ => trivial
  | dynamic _ => exact ⟨⟨Entry.holdsInOrder_nil, trivial⟩, trivial⟩

section

open Entry LiquidTemplate.Tree

mutual

theorem Node.everywhere_holdsInOrder : ∀ n : Node, n.outline.Everywhere HoldsInOrder
  | .text _ _ | .drop _ | .tag _ _ | .comment _ _ | .doctype _ _ | .rawTag _ _ _ _ =>
    ⟨holdsInOrder_nil, trivial⟩
  | .rawElement _ _ attributes _ | .voidElement _ attributes _ =>
    ⟨holdsInOrder_attributes attributes, AttributeNode.everywhere_holdsInOrder attributes⟩
  | .selfClosingElement name attributes _ => by
    refine ⟨?_, everywhereAll_append.2
      ⟨name.everywhere_holdsInOrder, AttributeNode.everywhere_holdsInOrder attributes⟩⟩
    simpa using holdsInOrder_element name attributes (List.forall_mem_nil _)
  | .element name attributes children _ => by
    refine ⟨holdsInOrder_element name attributes ?_, everywhereAll_append.2
      ⟨everywhereAll_append.2
        ⟨name.everywhere_holdsInOrder, AttributeNode.everywhere_holdsInOrder attributes⟩,
      Node.everywhereAll_holdsInOrder children⟩⟩
    rw [Node.outlineAll_eq_map]
    exact List.forall_mem_map.2 fun n _ => n.role_outline
  | .block _ branches _ _ => by
    refine ⟨holdsInOrder_children ?_, Branch.everywhereAll_holdsInOrder branches⟩
    rw [Branch.outlineAll_eq_map]
    exact List.forall_mem_map.2 fun b _ => b.role_outline

theorem Branch.everywhere_holdsInOrder : ∀ b : Branch, b.outline.Everywhere HoldsInOrder
  | .mk _ children _ => by
    refine ⟨holdsInOrder_children ?_, Node.everywhereAll_holdsInOrder children⟩
    rw [Node.outlineAll_eq_map]
    exact List.forall_mem_map.2 fun n _ => n.role_outline

theorem Node.everywhereAll_holdsInOrder : ∀ ns : List Node,
    EverywhereAll HoldsInOrder (Node.outlineAll ns)
  | [] => trivial
  | n :: ns => ⟨Node.everywhere_holdsInOrder n, Node.everywhereAll_holdsInOrder ns⟩

theorem Branch.everywhereAll_holdsInOrder : ∀ bs : List Branch,
    EverywhereAll HoldsInOrder (Branch.outlineAll bs)
  | [] => trivial
  | b :: bs => ⟨Branch.everywhere_holdsInOrder b, Branch.everywhereAll_holdsInOrder bs⟩

end

end

/-! ## Records -/

namespace Record

/-- What a record holds in each role, one role behind the other. -/
def contentsByRole (r : Record) : List Nat :=
  r.nameDrop?.toList ++ r.attributes ++ r.valueParts ++ r.children

/-- The numbers in slots that all have one role. -/
theorem filterMap_same_role {role : Role} {slots : List Slot} (h : ∀ c ∈ slots, c.1 = role)
    (wanted : Role) :
    slots.filterMap (fun (role', id) => if role' = wanted then some id else none) =
      if role = wanted then slots.map Prod.snd else [] := by
  induction slots with
  | nil => simp
  | cons slot slots ih =>
    obtain ⟨role', id⟩ := slot
    obtain ⟨rfl, hslots⟩ := List.forall_mem_cons.1 h
    rw [List.filterMap_cons, ih hslots]
    by_cases hw : role' = wanted <;> simp [hw]

theorem contentsByRole_eq {r : Record} (h : Role.InOrder (r.contents.map Prod.fst)) :
    r.contentsByRole = r.contentIds := by
  obtain ⟨names, attributes, parts, children, hnames, hroles⟩ := h
  obtain ⟨front, childSlots, hcontents, hfront, hchildren⟩ := List.map_eq_append_iff.1 hroles
  obtain ⟨front, partSlots, rfl, hfront, hparts⟩ := List.map_eq_append_iff.1 hfront
  obtain ⟨nameSlots, attributeSlots, rfl, hname, hattributes⟩ := List.map_eq_append_iff.1 hfront
  rw [List.eq_replicate_iff, List.length_map, List.forall_mem_map] at hname hattributes
  rw [List.eq_replicate_iff, List.length_map, List.forall_mem_map] at hparts hchildren
  have hhead : (nameSlots.map Prod.snd).head?.toList = nameSlots.map Prod.snd := by
    match nameSlots, hname.1 with
    | [], _ | [_], _ => rfl
    | _ :: _ :: slots, hlength => rw [List.length_cons, List.length_cons] at hlength; omega
  simp only [contentsByRole, nameDrop?, Record.attributes, valueParts, Record.children, idsOf,
    contentIds, hcontents, List.filterMap_append, filterMap_same_role hname.2,
    filterMap_same_role hattributes.2, filterMap_same_role hparts.2,
    filterMap_same_role hchildren.2]
  simpa using hhead

end Record

/-- Every record of a document holds others in the order of their roles. -/
theorem Document.contentsByRole_eq {d : Document} {r : Record} (hr : r ∈ d.records) :
    r.contentsByRole = r.contentIds := by
  have heverywhere : d.outline.Everywhere Entry.HoldsInOrder := by
    refine ⟨Entry.holdsInOrder_children ?_, Node.everywhereAll_holdsInOrder d.children⟩
    rw [Node.outlineAll_eq_map]
    exact List.forall_mem_map.2 fun n _ => n.role_outline
  obtain ⟨hslots, hroles⟩ := of_everywhere heverywhere r hr
  refine Record.contentsByRole_eq ?_
  rw [← hslots, List.map_map]
  rw [Entry.HoldsInOrder, List.map_map] at hroles
  exact hroles

end LiquidTemplate
