import LiquidTemplate.Proofs.Coverage.Marks

/-!
# Bodies in a document

The nodes of a document keep the bodies of its comments, raw elements and raw tags, each of them
once (`Document.bodies_perm`). So where such a token starts, there is one node with a body, and the
body is that of the token (`Document.bodiesAt_eq`).
-/

namespace LiquidTemplate

open LiquidTemplate.Tree (valuesAll valuesAll_append)

/-! ## Bodies that nodes keep -/

/-- The body that is kept as it is. -/
def Kind.body? : Kind → Option Text
  | .comment body | .rawTag _ body _ | .rawElement _ body => some body
  | _ => none

/-- The body of a node, with where the node starts. -/
def Entry.body? (e : Entry) : Option (Located Text) := e.kind.body?.map (⟨e.position.start, ·⟩)

namespace Tree

/-- The bodies that all nodes of trees keep. -/
def bodiesAll (ts : List (Tree Entry)) : List (Located Text) := (valuesAll ts).filterMap Entry.body?

theorem bodiesAll_append (ts us : List (Tree Entry)) :
    bodiesAll (ts ++ us) = bodiesAll ts ++ bodiesAll us := by
  rw [bodiesAll, valuesAll_append, List.filterMap_append]
  rfl

theorem bodiesAll_cons (t : Tree Entry) (ts : List (Tree Entry)) :
    bodiesAll (t :: ts) = bodiesAll [t] ++ bodiesAll ts :=
  bodiesAll_append [t] ts

theorem bodiesAll_node {e : Entry} {b : Option (Located Text)} (h : e.body? = b)
    (ts : List (Tree Entry)) : bodiesAll [.node e ts] = b.toList ++ bodiesAll ts := by
  simp only [bodiesAll, valuesAll, values, List.append_nil, List.filterMap_cons, h]
  cases b <;> rfl

end Tree

open LiquidTemplate.Tree (bodiesAll bodiesAll_append bodiesAll_cons bodiesAll_node)

theorem ElementName.bodies_outline (name : ElementName) : bodiesAll name.outline = [] := by
  cases name <;> rfl

theorem AttributeNode.bodies_map_outline (as : List AttributeNode) :
    bodiesAll (as.map outline) = [] := by
  refine List.filterMap_eq_nil_iff.2 (Tree.forall_mem_valuesAll_map fun a _ => ?_)
  refine List.forall_mem_cons.2 ⟨rfl, Tree.forall_mem_valuesAll_map fun p _ => ?_⟩
  cases p <;> exact List.forall_mem_singleton.2 rfl

/-! ## Bodies in tokens -/

def Lexeme.body? : Lexeme → Option Text
  | comment body | rawElement _ body _ _ | rawTag _ body _ => some body
  | _ => none

theorem Lexeme.isConstruct_of_body? {l : Lexeme} {body : Text} (h : l.body? = some body) :
    l.isConstruct = true := by
  cases l <;> first | rfl | cases h

namespace Token

/-- The body of a token, with where the token starts. -/
def body? (t : Token) : Option (Located Text) := t.item.body?.map (⟨t.start, ·⟩)

theorem body?_eq_none {t : Token} {l : Lexeme} (ht : t.item = l) (hl : l.body? = none) :
    t.body? = none := by
  rw [body?, ht, hl]
  rfl

/-- Tokens that start elsewhere have no body here. -/
theorem filter_bodies_eq_nil {ts : List Token} {start : Nat}
    (h : ∀ t ∈ ts, t.item.isConstruct = true → t.start ≠ start) :
    (ts.filterMap body?).filter (·.start = start) = [] := by
  refine List.filter_eq_nil_iff.2 fun x hx => ?_
  obtain ⟨t, ht, hbody⟩ := List.mem_filterMap.1 hx
  obtain ⟨body, hlexeme, rfl⟩ := Option.map_eq_some_iff.1 hbody
  simpa using h t ht (Lexeme.isConstruct_of_body? hlexeme)

/-- A token that is a node by itself has the body of the node. -/
theorem bodies_leaf {t : Token} {n : Node} (h : t.leafNode? = some n) :
    bodiesAll [n.outline] = t.body?.toList := by
  obtain ⟨start, item⟩ := t
  cases item with
  | text value =>
    simp only [leafNode?, Node.ofText?, Option.ite_none_left_eq_some, Option.some.injEq] at h
    obtain ⟨-, rfl⟩ := h
    rfl
  | tag inner =>
    simp only [leafNode?, Option.ite_none_right_eq_some, Option.some.injEq] at h
    obtain ⟨-, rfl⟩ := h
    rfl
  | startTag head =>
    simp only [leafNode?] at h
    split at h
    · cases h
      exact (bodiesAll_node rfl _).trans (AttributeNode.bodies_map_outline _)
    · split at h
      · cases h
        rw [Node.outline, bodiesAll_node rfl, bodiesAll_append, ElementName.bodies_outline,
          AttributeNode.bodies_map_outline]
        rfl
      · cases h
  | endTag _ _ => cases h
  | invalid _ _ => cases h
  | rawElement head body closeName closeRest =>
    cases h
    rw [Node.outline, bodiesAll_node rfl, AttributeNode.bodies_map_outline, List.append_nil]
    rfl
  | drop inner => cases h; rfl
  | comment body => cases h; rfl
  | doctype keyword raw => cases h; rfl
  | rawTag opening body closing => cases h; rfl

end Token

/-! ## Bodies in a document -/

namespace Nesting

mutual

theorem SequenceTree.bodies : ∀ {ts : List Token} {ns : List Node}, SequenceTree ts ns →
    bodiesAll (Node.outlineAll ns) = ts.filterMap Token.body?
  | _, _, .empty => rfl
  | _, _, .cons hi ht => by
    rw [Node.outlineAll_append, bodiesAll_append, List.filterMap_append, hi.bodies, ht.bodies]

theorem ItemTree.bodies : ∀ {ts : List Token} {ns : List Node}, ItemTree ts ns →
    bodiesAll (Node.outlineAll ns) = ts.filterMap Token.body?
  | _, _, .blank ht _ => by
    rw [List.filterMap_cons, Token.body?_eq_none ht rfl]
    rfl
  | _, _, .leaf (t := t) hn => by
    have hbodies : bodiesAll (Node.outlineAll [_]) = _ := Token.bodies_leaf hn
    rw [hbodies, List.filterMap_cons]
    cases t.body? <;> rfl
  | _, _, .element ht _ hus ht' _ => by
    rw [List.cons_append, List.filterMap_cons, List.filterMap_append, List.filterMap_cons,
      Token.body?_eq_none ht rfl, Token.body?_eq_none ht' rfl, Node.outlineAll, Node.ofElement,
      Node.outline, Node.outlineAll, bodiesAll_node rfl, bodiesAll_append, bodiesAll_append,
      ElementName.bodies_outline, AttributeNode.bodies_map_outline, hus.bodies]
    exact (List.append_nil _).symm
  | _, _, .block ht _ hbs ht' _ => by
    rw [List.cons_append, List.filterMap_cons, List.filterMap_append, List.filterMap_cons,
      Token.body?_eq_none ht rfl, Token.body?_eq_none ht' rfl, Node.outlineAll, Node.outline,
      Node.outlineAll, bodiesAll_node rfl, hbs.bodies]
    exact (List.append_nil _).symm

theorem BranchTrees.bodies : ∀ {name : Text} {label : Option Tag} {start stop : Nat}
    {ts : List Token} {branches : List Branch}, BranchTrees name label start ts stop branches →
    bodiesAll (Branch.outlineAll branches) = ts.filterMap Token.body?
  | _, _, _, _, _, _, .last hus => by
    rw [Branch.outlineAll, Branch.outline, Branch.outlineAll, bodiesAll_node rfl, hus.bodies]
    rfl
  | _, _, _, _, _, _, .more hus ht _ hbs => by
    rw [Branch.outlineAll, Branch.outline, bodiesAll_cons, bodiesAll_node rfl,
      List.filterMap_append, List.filterMap_cons, Token.body?_eq_none ht rfl, hus.bodies,
      hbs.bodies]
    rfl

end

end Nesting

namespace Document

variable {source : Text} {d : Document}

/-- The bodies that the nodes of a document keep. -/
def bodies (d : Document) : List (Located Text) := d.records.filterMap fun r => r.entry.body?

/-- The bodies of the nodes that start here. -/
def bodiesAt (d : Document) (start : Nat) : List Text :=
  (d.bodies.filter (·.start = start)).map Located.item

/-- A document keeps the bodies of its tokens. -/
theorem bodies_perm (h : parse source = .ok d) :
    d.bodies.Perm ((Token.ofText source).filterMap Token.body?) := by
  obtain ⟨rfl, ht⟩ := parse_eq_ok_iff_sequenceTree.1 h
  rw [← ht.bodies]
  have hbodies : d.bodies = (d.records.map Record.entry).filterMap Entry.body? := by
    rw [bodies, List.filterMap_map]
    rfl
  rw [hbodies, records_eq, List.map_cons, List.filterMap_cons]
  exact (Record.map_entry_layoutAll_perm _ _ _).filterMap _

/-- Where a token with a body starts, one node with a body does, and it has this body. -/
theorem bodiesAt_eq (h : parse source = .ok d) {t : Token} (ht : t ∈ Token.ofText source)
    {body : Text} (hb : t.item.body? = some body) : d.bodiesAt t.start = [body] := by
  have hwide := Token.start_lt_stop (Lexeme.isConstruct_of_body? hb)
  obtain ⟨ts, us, hts⟩ := List.append_of_mem ht
  obtain ⟨hfront, hback⟩ := Token.ofText_around hts
  have hbody : t.body? = some ⟨t.start, body⟩ := by
    rw [Token.body?, hb]
    rfl
  have hperm := (bodies_perm h).filter (·.start = t.start)
  have hbefore : (ts.filterMap Token.body?).filter (·.start = t.start) = [] := by
    refine Token.filter_bodies_eq_nil fun u hu hl => ?_
    exact Nat.ne_of_lt (Nat.lt_of_lt_of_le (Token.start_lt_stop hl) (hfront u hu))
  have hbehind : (us.filterMap Token.body?).filter (·.start = t.start) = [] := by
    refine Token.filter_bodies_eq_nil fun u hu _ => ?_
    exact Nat.ne_of_gt (Nat.lt_of_lt_of_le hwide (hback u hu))
  rw [hts, List.filterMap_append, List.filterMap_cons, hbody, List.filter_append, hbefore,
    List.filter_cons, hbehind, if_pos (decide_eq_true rfl)] at hperm
  rw [bodiesAt, List.perm_singleton.1 hperm]
  rfl

end Document

end LiquidTemplate
