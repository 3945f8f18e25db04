import LiquidTemplate.Proofs.Coverage.Kinds
import LiquidTemplate.Proofs.Coverage.Order

/-!
# Trim markers in a document

The nodes of a document keep the trim markers that its tokens have, each of them once
(`Document.marks_perm`): those of an opening tag in the node that it opens, those of an end tag in
the node that it closes. Only the name in an end tag is kept nowhere.
-/

namespace LiquidTemplate

open LiquidTemplate.Tree (InOrder valuesAll valuesAll_append)

/-! ## Markers that nodes keep -/

/-- Which construct trim markers belong to: the one that starts here or, for an end tag, the one
that stops here. -/
inductive Site where
  | opening (start : Nat)
  | closing (stop : Nat)
deriving DecidableEq, Repr

namespace Site

/-- The construct starts, or the one that it ends stops, between two offsets. -/
def Within (start stop : Nat) : Site → Prop
  | opening x => start ≤ x ∧ x < stop
  | closing x => start < x ∧ x ≤ stop

end Site

/-- The trim markers of one construct. -/
abbrev Mark := Site × Trims

/-- The trim markers that a node of this kind keeps. -/
def Kind.marks (s : Span) : Kind → List Mark
  | .drop markup => [(.opening s.start, markup.trims)]
  | .tag t | .branch (some t) => [(.opening s.start, t.trims)]
  | .rawTag t _ trims | .block t trims =>
    [(.opening s.start, t.trims), (.closing s.stop, trims)]
  | _ => []

/-- Every marker belongs to what the node starts with or to what it stops with. -/
theorem Kind.site_of_mem_marks {s : Span} {k : Kind} {m : Mark} (h : m ∈ k.marks s) :
    m.1 = .opening s.start ∨ m.1 = .closing s.stop := by
  have hopening {trims : Trims} (h : m ∈ [(Site.opening s.start, trims)]) :
      m.1 = .opening s.start := by
    rw [List.mem_singleton.1 h]
  cases k with
  | drop markup => exact .inl (hopening h)
  | tag t => exact .inl (hopening h)
  | branch label =>
    cases label with
    | none => cases h
    | some t => exact .inl (hopening h)
  | rawTag _ _ _ | block _ _ =>
    rcases List.mem_cons.1 h with rfl | h
    · exact .inl rfl
    · exact .inr (by rw [List.mem_singleton.1 h])
  | _ => cases h

def Entry.marks (e : Entry) : List Mark := e.kind.marks e.position

/-- The trim markers that all nodes of trees keep. -/
def Tree.marksAll (ts : List (Tree Entry)) : List Mark := (valuesAll ts).flatMap Entry.marks

theorem Entry.within_of_mem_marks {e : Entry} {start stop : Nat} (hstart : start ≤ e.position.start)
    (hstop : e.position.stop ≤ stop) (hw : e.Wide) : ∀ m ∈ e.marks, m.1.Within start stop := by
  intro m hm
  rcases hw with hk | hlt
  · rw [marks, hk] at hm
    cases hm
  · rcases Kind.site_of_mem_marks hm with h | h
    · rw [h]
      exact ⟨hstart, Nat.lt_of_lt_of_le hlt hstop⟩
    · rw [h]
      exact ⟨Nat.lt_of_le_of_lt hstart hlt, hstop⟩

namespace Tree

theorem marksAll_append (ts us : List (Tree Entry)) :
    marksAll (ts ++ us) = marksAll ts ++ marksAll us := by
  rw [marksAll, valuesAll_append, List.flatMap_append]
  rfl

theorem marksAll_cons (t : Tree Entry) (ts : List (Tree Entry)) :
    marksAll (t :: ts) = marksAll [t] ++ marksAll ts :=
  marksAll_append [t] ts

theorem marksAll_node (e : Entry) (ts : List (Tree Entry)) :
    marksAll [.node e ts] = e.marks ++ marksAll ts := by
  simp [marksAll, valuesAll, values]

namespace InOrder

variable {start stop : Nat} {ts : List (Tree Entry)}

theorem marks_within (h : InOrder start stop ts) : ∀ m ∈ marksAll ts, m.1.Within start stop := by
  intro m hm
  obtain ⟨e, he, hm⟩ := List.mem_flatMap.1 hm
  obtain ⟨hstart, -, hstop, hw⟩ := within_valuesAll ts start stop h e he
  exact e.within_of_mem_marks hstart hstop hw m hm

end InOrder

end Tree

/-! ## Markers in tokens -/

/-- The nodes of a dynamic name and of the attributes. -/
def Head.outline (start : Nat) (h : Head) : List (Tree Entry) :=
  (ElementName.ofHead start h).outline ++ (AttributeNode.ofHead start h).map AttributeNode.outline

theorem Head.inOrder_outline {rest : Text} {h : Head} (hh : h.ReadBefore rest) (start : Nat) :
    InOrder start (start + Text.size h.chars) (h.outline start) :=
  (ElementName.inOrder_ofHead start h).append (AttributeNode.inOrder_ofHead hh start)

/-- A name that is written out has no node. -/
theorem ElementName.outline_of_fixed {h : Head} {name : Text} (start : Nat)
    (hn : h.name = .fixed name) : (ofHead start h).outline = [] := by
  rw [ofHead, hn]
  rfl

namespace Token

/-- The trim markers of a token that a document keeps. -/
def marks (t : Token) : List Mark :=
  match t.item with
  | .tag inner =>
    match Keyword.roleOf (Tag.ofInner inner).name with
    | .closes _ => [(.closing t.stop, (Tag.ofInner inner).trims)]
    | _ => [(.opening t.start, (Tag.ofInner inner).trims)]
  | .startTag head => Tree.marksAll (head.outline t.start)
  | _ => Tree.marksAll (t.leafNode?.map Node.outline).toList

/-- They stand in the token. -/
theorem marks_within {t : Token} (hr : t.item.Read) : ∀ m ∈ t.marks, m.1.Within t.start t.stop := by
  obtain ⟨start, item⟩ := t
  have hleaf : ∀ m ∈ Tree.marksAll ((leafNode? ⟨start, item⟩).map Node.outline).toList,
      m.1.Within start (start + item.size) := by
    cases hn : leafNode? ⟨start, item⟩ with
    | none => exact List.forall_mem_nil _
    | some n => exact (inOrder_leaf hn hr).marks_within
  cases item with
  | tag inner =>
    have hlt := start_lt_stop (t := ⟨start, .tag inner⟩) rfl
    intro m hm
    simp only [marks] at hm
    split at hm <;> rw [List.mem_singleton.1 hm]
    · exact ⟨hlt, Nat.le_refl _⟩
    · exact ⟨Nat.le_refl _, hlt⟩
  | startTag head =>
    obtain ⟨rest, hhead, -⟩ := hr rfl
    exact (head.inOrder_outline hhead start).marks_within
  | _ => exact hleaf

/-- A token that is a node by itself has the markers of the node. -/
theorem marks_leaf {t : Token} {n : Node} (h : t.leafNode? = some n) :
    t.marks = Tree.marksAll [n.outline] := by
  obtain ⟨start, item⟩ := t
  cases item with
  | tag inner =>
    simp only [leafNode?, Option.ite_none_right_eq_some, Option.some.injEq] at h
    obtain ⟨hrole, rfl⟩ := h
    simp only [marks, hrole]
    rfl
  | startTag head =>
    simp only [leafNode?] at h
    split at h
    · next name hv =>
      cases h
      have hname := ElementName.outline_of_fixed start (Head.isVoidElement_of_voidName? hv).1
      simp only [marks, Head.outline, hname]
      rw [Node.outline, Tree.marksAll_node]
      rfl
    · split at h
      · cases h
        rw [Node.outline, Tree.marksAll_node]
        rfl
      · cases h
  | _ =>
    simp only [marks, h]
    rfl

theorem marks_tag {t : Token} {inner : Text} (ht : t.item = .tag inner)
    (h : ∀ block, Keyword.roleOf (Tag.ofInner inner).name ≠ .closes block) :
    t.marks = [(.opening t.start, (Tag.ofInner inner).trims)] := by
  simp only [marks, ht]

theorem marks_closing {t : Token} {inner block : Text} (ht : t.item = .tag inner)
    (h : Keyword.roleOf (Tag.ofInner inner).name = .closes block) :
    t.marks = [(.closing t.stop, (Tag.ofInner inner).trims)] := by
  simp only [marks, ht, h]

theorem marks_rawTag (start : Nat) (opening body closing : Text) :
    marks ⟨start, .rawTag opening body closing⟩ =
      [(.opening start, (Tag.ofInner opening).trims)] ++
        [(.closing (stop ⟨start, .rawTag opening body closing⟩), (Tag.ofInner closing).trims)] :=
  rfl

theorem marks_blank {t : Token} {value : Text} (ht : t.item = .text value)
    (hv : Text.AllBlank value) : t.marks = [] := by
  simp only [marks, leafNode?, ht, Node.ofText?_eq_none_iff.2 hv]
  rfl

theorem marks_startTag {t : Token} {head : Head} (ht : t.item = .startTag head) :
    t.marks = Tree.marksAll (head.outline t.start) := by
  rw [marks, ht]

theorem marks_endTag {t : Token} {name : TagName} {gap : Text} (ht : t.item = .endTag name gap) :
    t.marks = [] := by
  simp only [marks, leafNode?, ht]
  rfl

end Token

/-! ## Markers in a document -/

namespace Nesting

mutual

theorem SequenceTree.marks_perm : ∀ {ts : List Token} {ns : List Node}, SequenceTree ts ns →
    (Tree.marksAll (Node.outlineAll ns)).Perm (ts.flatMap Token.marks)
  | _, _, .empty => .nil
  | _, _, .cons hi ht => by
    rw [Node.outlineAll_append, Tree.marksAll_append, List.flatMap_append]
    exact hi.marks_perm.append ht.marks_perm

theorem ItemTree.marks_perm : ∀ {ts : List Token} {ns : List Node}, ItemTree ts ns →
    (Tree.marksAll (Node.outlineAll ns)).Perm (ts.flatMap Token.marks)
  | _, _, .blank ht hv => by
    rw [List.flatMap_singleton, Token.marks_blank ht hv]
    exact .nil
  | _, _, .leaf hn => by
    rw [List.flatMap_singleton, Token.marks_leaf hn]
    exact .refl _
  | _, _, .element ht _ hus ht' _ => by
    rw [List.cons_append, List.flatMap_cons, List.flatMap_append, List.flatMap_singleton,
      Token.marks_startTag ht, Token.marks_endTag ht', List.append_nil, Node.outlineAll,
      Node.ofElement, Node.outline, Node.outlineAll, Tree.marksAll_node, Tree.marksAll_append]
    exact hus.marks_perm.append_left _
  | _, _, .block ht hrole hbs ht' hrole' => by
    have hopening := Token.marks_tag ht (by simp [hrole])
    rw [List.cons_append, List.flatMap_cons, List.flatMap_append, List.flatMap_singleton, hopening,
      Token.marks_closing ht' hrole', Node.outlineAll, Node.outline, Node.outlineAll,
      Tree.marksAll_node]
    -- the markers of the end tag are kept in front of those of the branches
    exact .cons _ ((hbs.marks_perm.cons _).trans (List.perm_append_singleton _ _).symm)

theorem BranchTrees.marks_perm : ∀ {name : Text} {label : Option Tag} {start stop : Nat}
    {ts : List Token} {branches : List Branch}, BranchTrees name label start ts stop branches →
    (Tree.marksAll (Branch.outlineAll branches)).Perm
      (Kind.marks ⟨start, stop⟩ (.branch label) ++ ts.flatMap Token.marks)
  | _, _, _, _, _, _, .last hus => by
    rw [Branch.outlineAll, Branch.outline, Branch.outlineAll, Tree.marksAll_node]
    exact hus.marks_perm.append_left _
  | _, label, start, stop, _, _, .more (t := t) hus ht hb hbs => by
    have hopening := Token.marks_tag ht (by simp [Keyword.roleOf_of_isBranchOf hb])
    have hlabel : Kind.marks ⟨start, t.start⟩ (.branch label) =
        Kind.marks ⟨start, stop⟩ (.branch label) := by cases label <;> rfl
    rw [Branch.outlineAll, Branch.outline, Tree.marksAll_cons, Tree.marksAll_node,
      List.flatMap_append, List.flatMap_cons, hopening, List.append_assoc]
    rw [← hlabel]
    exact (hus.marks_perm.append hbs.marks_perm).append_left _

end

end Nesting

namespace Record

mutual

theorem map_entry_layout_perm : ∀ (t : Tree Entry) (parent : Option Nat) (next : Nat),
    ((layout parent (t.number next).1).map Record.entry).Perm t.values
  | .node entry ts, parent, next => by
    rw [Tree.number_node_fst, layout, List.map_append, Tree.values]
    exact (List.perm_append_singleton _ _).trans (.cons _ (map_entry_layoutAll_perm ts _ _))

/-- The records of trees are their nodes, in another order. -/
theorem map_entry_layoutAll_perm : ∀ (ts : List (Tree Entry)) (parent : Option Nat) (next : Nat),
    ((layoutAll parent (Tree.numberAll next ts).1).map Record.entry).Perm (valuesAll ts)
  | [], _, _ => .nil
  | t :: ts, parent, next => by
    rw [Tree.numberAll_cons_fst, layoutAll, List.map_append, valuesAll]
    exact (map_entry_layout_perm t _ _).append (map_entry_layoutAll_perm ts _ _)

end

end Record

namespace Document

/-- The trim markers that the nodes of a document keep. -/
def marks (d : Document) : List Mark := d.records.flatMap fun r => r.entry.marks

/-- A document keeps the trim markers of its tokens. -/
theorem marks_perm {source : Text} {d : Document} (h : parse source = .ok d) :
    d.marks.Perm ((Token.ofText source).flatMap Token.marks) := by
  obtain ⟨rfl, ht⟩ := parse_eq_ok_iff_sequenceTree.1 h
  refine .trans ?_ ht.marks_perm
  have hmarks : d.marks = (d.records.map Record.entry).flatMap Entry.marks := by
    rw [marks, List.flatMap_map]
  rw [hmarks, records_eq, List.map_cons, List.flatMap_cons]
  exact (Record.map_entry_layoutAll_perm _ _ _).flatMap_right _

end Document

end LiquidTemplate
