import LiquidTemplate.Proofs.Coverage.Attributes
import LiquidTemplate.Proofs.Coverage.Marks
import LiquidTemplate.Proofs.Coverage.Subtrees

/-!
# Induction over the nodes of a document

A property of a node and the nodes it holds is shown for the nodes of items, for what the heads of
tags hold and for branches (`Nesting.HoldsOfItems`); the derivation of the document carries it to
all records (`Document.forall_records`).
-/

namespace LiquidTemplate

open LiquidTemplate.Tree (EverywhereAll everywhereAll_append)

variable {P : Entry → List Entry → Prop}

theorem Tree.everywhere_iff {t : Tree Entry} :
    t.Everywhere P ↔ P t.value (t.children.map Tree.value) ∧ EverywhereAll P t.children := by
  cases t
  exact Iff.rfl

/-! ## Tokens that are nodes by themselves -/

/-- The token is a node by itself, and this is the node. -/
inductive Token.IsLeaf : Token → Node → Prop
  | text {start : Nat} {value : Text} : Text.trim value ≠ [] →
    IsLeaf ⟨start, .text value⟩ (.text (Text.trim value)
      (.ofText (start + Text.size (Text.leadingBlanks value)) (Text.trim value)))
  | drop {start : Nat} {inner : Text} : IsLeaf ⟨start, .drop inner⟩ (.drop (.ofInner start inner))
  | tag {start : Nat} {inner : Text} : Keyword.roleOf (Tag.ofInner inner).name = .inline →
    IsLeaf ⟨start, .tag inner⟩ (.tag (.ofInner inner) (.ofText start (Lexeme.tag inner).chars))
  | voidElement {start : Nat} {head : Head} {name : Text} : head.voidName? = some name →
    IsLeaf ⟨start, .startTag head⟩
      (.voidElement name (AttributeNode.ofHead start head) (.ofText start head.chars))
  | selfClosingElement {start : Nat} {head : Head} : head.voidName? = none →
    head.selfClosing = true →
    IsLeaf ⟨start, .startTag head⟩ (.selfClosingElement (.ofHead start head)
      (AttributeNode.ofHead start head) (.ofText start head.chars))
  | comment {start : Nat} {body : Text} :
    IsLeaf ⟨start, .comment body⟩ (.comment body (.ofText start (Lexeme.comment body).chars))
  | doctype {start : Nat} {keyword raw : Text} :
    IsLeaf ⟨start, .doctype keyword raw⟩
      (.doctype (Text.trim raw) (.ofText start (Lexeme.doctype keyword raw).chars))
  | rawElement {start : Nat} {head : Head} {body closeName closeRest : Text} :
    IsLeaf ⟨start, .rawElement head body closeName closeRest⟩
      (.rawElement head.name.chars body (AttributeNode.ofHead start head)
        (.ofText start (Lexeme.rawElement head body closeName closeRest).chars))
  | rawTag {start : Nat} {opening body closing : Text} :
    IsLeaf ⟨start, .rawTag opening body closing⟩
      (.rawTag (.ofInner opening) body (Tag.ofInner closing).trims
        (.ofText start (Lexeme.rawTag opening body closing).chars))

theorem Token.isLeaf_of_leafNode? {t : Token} {n : Node} (h : t.leafNode? = some n) :
    t.IsLeaf n := by
  obtain ⟨start, item⟩ := t
  cases item with
  | text value =>
    simp only [leafNode?, Node.ofText?, Option.ite_none_left_eq_some, Option.some.injEq] at h
    obtain ⟨hne, rfl⟩ := h
    exact .text (by simpa using hne)
  | tag inner =>
    simp only [leafNode?, Option.ite_none_right_eq_some, Option.some.injEq] at h
    obtain ⟨hrole, rfl⟩ := h
    exact .tag hrole
  | startTag head =>
    simp only [leafNode?] at h
    split at h
    · next name hname =>
      cases h
      exact .voidElement hname
    · next hname =>
      split at h
      · next hclosing =>
        cases h
        exact .selfClosingElement hname hclosing
      · cases h
  | endTag _ _ => cases h
  | invalid _ _ => cases h
  | drop inner => cases h; exact .drop
  | comment body => cases h; exact .comment
  | doctype keyword raw => cases h; exact .doctype
  | rawElement head body closeName closeRest => cases h; exact .rawElement
  | rawTag opening body closing => cases h; exact .rawTag

/-- What a token that is a node by itself holds is in its head. -/
theorem Token.children_leaf {t : Token} {n : Node} (h : t.leafNode? = some n) :
    n.outline.children = [] ∨
      ∃ head ∈ t.item.head?, n.outline.children <:+ head.outline t.start := by
  cases isLeaf_of_leafNode? h with
  | voidElement => exact .inr ⟨_, rfl, List.suffix_append _ _⟩
  | selfClosingElement => exact .inr ⟨_, rfl, List.suffix_rfl⟩
  | rawElement => exact .inr ⟨_, rfl, List.suffix_append _ _⟩
  | _ => exact .inl rfl

theorem Token.everywhere_children {t : Token} {n : Node} (h : t.leafNode? = some n)
    (hhead : ∀ head ∈ t.item.head?, EverywhereAll P (head.outline t.start)) :
    EverywhereAll P n.outline.children := by
  rcases children_leaf h with hnil | ⟨head, hmem, hsuffix⟩
  · rw [hnil]
    trivial
  · have hall := Tree.everywhereAll_iff.1 (hhead head hmem)
    exact Tree.everywhereAll_iff.2 fun u hu => hall u (hsuffix.subset hu)

/-! ## Nodes of a document -/

namespace Nesting

variable {all : List Token}

/-- The property holds of the nodes of items, of everything that heads hold, and of branches. -/
structure HoldsOfItems (all : List Token) (P : Entry → List Entry → Prop) : Prop where
  node : ∀ {us : List Token} {n : Node}, us <:+: all → ItemTree us [n] →
    P n.outline.value (n.outline.children.map Tree.value)
  head : ∀ t ∈ all, ∀ head ∈ t.item.head?, EverywhereAll P (head.outline t.start)
  branch : ∀ {us : List Token} {ns : List Node} (label : Option Tag) (position : Span),
    us <:+: all → SequenceTree us ns →
      P ⟨.child, .branch label, position⟩ ((Node.outlineAll ns).map Tree.value)

mutual

theorem SequenceTree.everywhere (hP : HoldsOfItems all P) : ∀ {ts : List Token} {ns : List Node},
    SequenceTree ts ns → ts <:+: all → EverywhereAll P (Node.outlineAll ns)
  | _, _, .empty, _ => trivial
  | _, _, .cons hi ht, hts => by
    rw [Node.outlineAll_append, everywhereAll_append]
    exact ⟨hi.everywhere hP ((List.prefix_append _ _).isInfix.trans hts),
      ht.everywhere hP ((List.suffix_append _ _).isInfix.trans hts)⟩

theorem ItemTree.everywhere (hP : HoldsOfItems all P) : ∀ {ts : List Token} {ns : List Node},
    ItemTree ts ns → ts <:+: all → EverywhereAll P (Node.outlineAll ns)
  | _, _, .blank _ _, _ => trivial
  | _, _, .leaf (t := t) hn, hts => by
    have hhead := hP.head t (hts.subset List.mem_cons_self)
    exact ⟨Tree.everywhere_iff.2 ⟨hP.node hts (.leaf hn), Token.everywhere_children hn hhead⟩,
      trivial⟩
  | _, _, @ItemTree.element t _ head _ _ _ _ ht ho hus ht' hk, hts => by
    have hhead := hP.head t (hts.subset List.mem_cons_self) head (by rw [ht]; rfl)
    have hns := hus.everywhere hP ((List.infix_append [t] _ _).trans hts)
    exact ⟨Tree.everywhere_iff.2 ⟨hP.node hts (.element ht ho hus ht' hk),
      everywhereAll_append.2 ⟨hhead, hns⟩⟩, trivial⟩
  | _, _, .block (t := t) ht hr hbs ht' hr', hts => by
    have hbranches := hbs.everywhere hP ((List.infix_append [t] _ _).trans hts)
    exact ⟨Tree.everywhere_iff.2 ⟨hP.node hts (.block ht hr hbs ht' hr'), hbranches⟩, trivial⟩

theorem BranchTrees.everywhere (hP : HoldsOfItems all P) : ∀ {name : Text} {label : Option Tag}
    {start stop : Nat} {ts : List Token} {branches : List Branch},
    BranchTrees name label start ts stop branches → ts <:+: all →
    EverywhereAll P (Branch.outlineAll branches)
  | _, _, _, _, _, _, .last hus, hts => ⟨⟨hP.branch _ _ hts hus, hus.everywhere hP hts⟩, trivial⟩
  | _, _, _, _, _, _, .more (t := t) hus _ _ hbs, hts => by
    have hus' := (List.prefix_append _ _).isInfix.trans hts
    have hbs' := ((List.suffix_cons t _).trans (List.suffix_append _ _)).isInfix.trans hts
    exact ⟨⟨hP.branch _ _ hus' hus, hus.everywhere hP hus'⟩, hbs.everywhere hP hbs'⟩

end

end Nesting

/-- What holds of the document and of all items holds of each record and those that it holds. -/
theorem Document.forall_records {source : Text} {d : Document} (h : parse source = .ok d)
    (hdocument : P ⟨.child, .document, d.position⟩ ((Node.outlineAll d.children).map Tree.value))
    (hP : Nesting.HoldsOfItems (Token.ofText source) P) :
    ∀ r ∈ d.records, (d.held r).map Record.slot = r.contents ∧
      P r.entry ((d.held r).map Record.entry) := by
  obtain ⟨rfl, ht⟩ := parse_eq_ok_iff_sequenceTree.1 h
  exact of_everywhere ⟨hdocument, ht.everywhere hP List.infix_rfl⟩

end LiquidTemplate
