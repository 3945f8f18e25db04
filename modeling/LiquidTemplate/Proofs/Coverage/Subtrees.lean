import LiquidTemplate.Proofs.Coverage.Entries
import LiquidTemplate.Proofs.Nesting.Relocation

/-!
# Subtrees are documents of their own

The tokens of an item are those of its text alone, and what is open around an item has no part in
its node. So the text of a child node, parsed alone, gives that node again, moved to the start; the
same holds of every drop, wherever it stands (`Document.parse_slice`).
-/

namespace LiquidTemplate

/-- The child nodes; the children of a block are branches. -/
def Container.nodes : Container → List Node
  | document d => d.children
  | element _ _ children _ | branch _ children _ => children
  | block _ _ _ _ => []

namespace Document

/-- A template of one lexeme that has a node. -/
theorem parse_of_leaf {t : Text} {l : Lexeme} {n : Node} (h : Lexeme.ofText t = [l])
    (hn : Token.leafNode? ⟨0, l⟩ = some n) : parse t = .ok ⟨t, [n]⟩ := by
  have htokens : Token.ofText t = [⟨0, l⟩] := by rw [Token.ofText, Token.ofTextAt, h]; rfl
  refine parse_eq_ok_iff_sequenceTree.2 ⟨rfl, ?_⟩
  rw [htokens]
  exact (Nesting.ItemTree.leaf hn).sequence

/-- Text without blanks around it has one node, which covers it. -/
theorem parse_trim {t v : Text} (h : .text v ∈ Lexeme.ofText t) (hv : Text.trim v ≠ []) :
    parse (Text.trim v) = .ok ⟨Text.trim v, [.text (Text.trim v) (.ofText 0 (Text.trim v))]⟩ := by
  refine parse_of_leaf (Lexeme.ofText_trim h hv) ?_
  simp [Token.leafNode?, Node.ofText?, Text.trim_trim, Text.leadingBlanks_trim, hv]

theorem parse_enclose {inner : Text} (h : Delimiter.drop.Closes inner) :
    parse (Delimiter.drop.enclose inner) =
      .ok ⟨Delimiter.drop.enclose inner, [.drop (.ofInner 0 inner)]⟩ :=
  parse_of_leaf (Lexeme.ofText_enclose h) rfl

end Document

namespace Nesting

open Token

variable {source : Text}

/-- A run of tokens in a template are the tokens of their own text, further on. -/
theorem eq_map_shift {pre ts post : List Token} (hts : Token.ofText source = pre ++ ts ++ post)
    (hvalid : ∀ t ∈ ts, t.item.isInvalid = false) :
    ts = (Token.ofText (Token.covered ts)).map (Located.shift (Text.size (Token.covered pre))) := by
  have hmap := lexemes_of_ofText hts
  rw [List.map_append] at hmap
  have hlexemes := Lexeme.ofText_between hmap (by simpa using hvalid)
  obtain ⟨hcont, -⟩ := contiguous_of_ofText hts
  rw [contiguous_append, Nat.zero_add] at hcont
  rw [← covered_eq] at hlexemes
  rw [← ofTextAt_eq_map, ofTextAt, hlexemes]
  exact (contiguous_iff.1 hcont.2).symm

/-- What leaves nothing open further on leaves nothing open. -/
theorem reach_of_shift {n : Nat} {ts : List Token} {nodes : List Node}
    (h : State.initial.reach (ts.map (Located.shift n)) = .ok ⟨nodes, []⟩) :
    ∃ ms, State.initial.reach ts = .ok ⟨ms, []⟩ ∧ nodes = ms.map (Node.shift n) := by
  have hshift := State.reach_shift n State.initial ts
  rw [show State.shift n State.initial = State.initial from rfl, h] at hshift
  cases hs : State.initial.reach ts with
  | error found => rw [hs] at hshift; cases hshift
  | ok s =>
    rw [hs] at hshift
    obtain ⟨siblings, frames⟩ := s
    change Except.ok _ = Except.ok (State.shift n ⟨siblings, frames⟩) at hshift
    simp only [Except.ok.injEq, State.shift, State.mk.injEq, List.nil_eq,
      List.map_eq_nil_iff] at hshift
    obtain ⟨hnodes, rfl⟩ := hshift
    exact ⟨siblings, rfl, hnodes⟩

/-- A run of items is a template of its own. -/
theorem SequenceTree.parse_covered {pre ts post : List Token} {ns : List Node}
    (hts : Token.ofText source = pre ++ ts ++ post) (h : SequenceTree ts ns) :
    ∃ ms, Document.parse (Token.covered ts) = .ok ⟨Token.covered ts, ms⟩ ∧
      ns = ms.map (Node.shift (Text.size (Token.covered pre))) := by
  have hreach : State.initial.reach ts = .ok ⟨ns.reverse ++ [], []⟩ := h.reach State.initial
  have htokens := eq_map_shift hts (State.isInvalid_eq_false_of_reach hreach)
  rw [htokens, List.append_nil] at hreach
  obtain ⟨ms, hms, hns⟩ := reach_of_shift hreach
  refine ⟨ms.reverse, Document.parse_eq_ok_iff.2 ⟨ms, hms, rfl⟩, ?_⟩
  rw [List.map_reverse, ← hns, List.reverse_reverse]

/-- An item with a node is text, or the node covers all of it. -/
theorem ItemTree.position {start : Nat} {ts : List Token} {n : Node} (h : ItemTree ts [n])
    (hts : Contiguous start ts) :
    (∃ t v, ts = [t] ∧ t.item = .text v ∧ Text.trim v ≠ [] ∧ n = .text (Text.trim v)
        (.ofText (t.start + Text.size (Text.leadingBlanks v)) (Text.trim v))) ∨
      n.position = ⟨start, start + Text.size (Token.covered ts)⟩ := by
  generalize hns : [n] = ns at h
  cases h with
  | blank ht hv => cases hns
  | @leaf t m hn =>
    obtain rfl := List.singleton_inj.1 hns
    obtain ⟨-, ⟨v, ht, hv, hn⟩ | hpos⟩ := leafNode?_cases hn
    · exact .inl ⟨t, v, rfl, ht, hv, hn⟩
    · refine .inr ?_
      rw [hpos, Token.span, stop_eq, hts.1, covered_cons, covered_nil, List.append_nil]
  | element ht ho hus ht' hk =>
    obtain rfl := List.singleton_inj.1 hns
    exact .inr hts.enclosed
  | block ht hr hbs ht' hr' =>
    obtain rfl := List.singleton_inj.1 hns
    exact .inr hts.enclosed

/-- The text of an item with a node is a template with this node, moved to the start. -/
theorem ItemTree.parse_text {ts : List Token} {n : Node} (h : ItemTree ts [n])
    (hts : ts <:+: Token.ofText source) :
    ∃ t m, Text.slice? source n.position = some t ∧ Document.parse t = .ok ⟨t, [m]⟩ ∧
      n = m.shift n.position.start := by
  obtain ⟨pre, post, hts⟩ := hts
  obtain ⟨hcont, -⟩ := contiguous_of_ofText hts.symm
  rw [contiguous_append, Nat.zero_add] at hcont
  rcases h.position hcont.2 with ⟨t, v, rfl, ht, hv, rfl⟩ | hpos
  · have hmem : t ∈ Token.ofText source := by rw [← hts]; simp
    have hwithin := (Token.placed_of_mem_ofText hmem).1
    have hlexeme : .text v ∈ Lexeme.ofText source := by
      rw [← ht, ← map_item_ofTextAt 0 source]
      exact List.mem_map_of_mem hmem
    rw [ht] at hwithin
    refine ⟨Text.trim v, _, ?_, Document.parse_trim hlexeme hv, ?_⟩
    · exact Located.within_iff_slice?.2 ⟨(Text.within_trim t.start v).trans hwithin, rfl⟩
    · rw [Node.shift, ← Span.ofText_add, Nat.zero_add]
      rfl
  · obtain ⟨ms, hparse, hms⟩ := h.sequence.parse_covered hts.symm
    obtain ⟨m, rfl, rfl⟩ := List.map_eq_singleton_iff.1 hms.symm
    refine ⟨Token.covered ts, m, ?_, hparse, by rw [hpos]⟩
    rw [hpos]
    refine Text.slice?_eq_some_iff.2 ⟨Token.covered pre, Token.covered post, ?_, rfl, rfl⟩
    rw [← covered_append, source_of_ofText hts.symm]

mutual

/-- What holds of the nodes of all items holds of all child nodes. -/
theorem SequenceTree.forall_nodes {P : Node → Prop} {all : List Token}
    (hP : ∀ {us n}, us <:+: all → ItemTree us [n] → P n) : ∀ {ts : List Token} {ns : List Node},
    SequenceTree ts ns → ts <:+: all →
    (∀ n ∈ ns, P n) ∧ ∀ c ∈ Node.containersAll ns, ∀ n ∈ c.nodes, P n
  | _, _, .empty, _ => ⟨List.forall_mem_nil _, List.forall_mem_nil _⟩
  | _, _, .cons hi ht, hts => by
    have hi := hi.forall_nodes hP ((List.prefix_append _ _).isInfix.trans hts)
    have ht := ht.forall_nodes hP ((List.suffix_append _ _).isInfix.trans hts)
    rw [Node.containersAll_append]
    exact ⟨List.forall_mem_append.2 ⟨hi.1, ht.1⟩, List.forall_mem_append.2 ⟨hi.2, ht.2⟩⟩

theorem ItemTree.forall_nodes {P : Node → Prop} {all : List Token}
    (hP : ∀ {us n}, us <:+: all → ItemTree us [n] → P n) : ∀ {ts : List Token} {ns : List Node},
    ItemTree ts ns → ts <:+: all →
    (∀ n ∈ ns, P n) ∧ ∀ c ∈ Node.containersAll ns, ∀ n ∈ c.nodes, P n
  | _, _, .blank _ _, _ => ⟨List.forall_mem_nil _, List.forall_mem_nil _⟩
  | _, _, .leaf (t := t) hn, hts => by
    refine ⟨List.forall_mem_singleton.2 (hP hts (.leaf hn)), ?_⟩
    rw [Node.containersAll, Node.containersAll, List.append_nil, (leafNode?_cases hn).1]
    exact List.forall_mem_nil _
  | _, _, .element (t := t) ht ho hus ht' hk, hts => by
    refine ⟨List.forall_mem_singleton.2 (hP hts (.element ht ho hus ht' hk)), ?_⟩
    have hns := hus.forall_nodes hP ((List.infix_append [t] _ _).trans hts)
    rw [Node.containersAll, Node.containersAll, List.append_nil, Node.ofElement, Node.containers]
    exact List.forall_mem_cons.2 hns
  | _, _, .block (t := t) ht hr hbs ht' hr', hts => by
    refine ⟨List.forall_mem_singleton.2 (hP hts (.block ht hr hbs ht' hr')), ?_⟩
    have hcs := hbs.forall_nodes hP ((List.infix_append [t] _ _).trans hts)
    rw [Node.containersAll, Node.containersAll, List.append_nil, Node.containers]
    exact List.forall_mem_cons.2 ⟨List.forall_mem_nil _, hcs⟩

theorem BranchTrees.forall_nodes {P : Node → Prop} {all : List Token}
    (hP : ∀ {us n}, us <:+: all → ItemTree us [n] → P n) :
    ∀ {name : Text} {label : Option Tag} {start stop : Nat} {ts : List Token}
      {branches : List Branch}, BranchTrees name label start ts stop branches → ts <:+: all →
    ∀ c ∈ Branch.containersAll branches, ∀ n ∈ c.nodes, P n
  | _, _, _, _, _, _, .last hus, hts => by
    rw [Branch.containersAll, Branch.containersAll, List.append_nil, Branch.containers]
    exact List.forall_mem_cons.2 (hus.forall_nodes hP hts)
  | _, _, _, _, _, _, .more (t := t) hus ht hb hbs, hts => by
    have hns := hus.forall_nodes hP ((List.prefix_append _ _).isInfix.trans hts)
    have hcs := hbs.forall_nodes hP
      (((List.suffix_cons t _).trans (List.suffix_append _ _)).isInfix.trans hts)
    rw [Branch.containersAll, Branch.containers]
    exact List.forall_mem_append.2 ⟨List.forall_mem_cons.2 hns, hcs⟩

end

end Nesting

namespace Document

/-- **Subtrees stand alone**: the text of a child of a document, an element or a branch is accepted
with this node alone, moved to the start. So is the text of a drop, be it a child, a dynamic name or
part of an attribute value. -/
theorem parse_slice {source : Text} {d : Document} (h : parse source = .ok d) :
    (∀ c ∈ d.containers, ∀ n ∈ c.nodes,
      ∃ t m, Text.slice? source n.position = some t ∧ parse t = .ok ⟨t, [m]⟩ ∧
        n = m.shift n.position.start) ∧
    ∀ r ∈ d.records, ∀ markup, r.entry.kind = .drop markup →
      ∃ t, Text.slice? source r.entry.position = some t ∧
        parse t = .ok ⟨t, [.drop ⟨markup, ⟨0, Text.size t⟩⟩]⟩ ∧
        r.entry.position = Span.shift r.entry.position.start ⟨0, Text.size t⟩ := by
  have hcovers := covers_of_parse h
  obtain ⟨rfl, ht⟩ := parse_eq_ok_iff_sequenceTree.1 h
  constructor
  · have hnodes := ht.forall_nodes
      (P := fun n => ∃ t m, Text.slice? d.source n.position = some t ∧ parse t = .ok ⟨t, [m]⟩ ∧
        n = m.shift n.position.start)
      (fun hus hi => hi.parse_text hus) List.infix_rfl
    exact List.forall_mem_cons.2 hnodes
  · intro r hr markup hk
    obtain ⟨t, hwithin, hstop, hdrop⟩ := hcovers r hr
    obtain ⟨inner, rfl, rfl, hcloses⟩ := hdrop markup hk
    refine ⟨_, Located.within_iff_slice?.2 ⟨hwithin, hstop⟩, ?_, ?_⟩
    · rw [parse_enclose hcloses, DropNode.ofInner, Span.ofText, Nat.zero_add]
    · generalize r.entry.position = position at hstop ⊢
      obtain ⟨start, stop⟩ := position
      simp only [Span.shift, Span.mk.injEq] at hstop ⊢
      omega

/-- A block in an element, and the drop in the attribute of the element. -/
theorem parse_slice_nested :
    ∃ d, parse "<p a={{x}}> {% if b %}é{% endif %}</p>".toList = .ok d ∧
      (∃ c ∈ d.containers, ∃ n ∈ c.nodes, n.position = ⟨12, 35⟩ ∧
        ∃ t m, Text.slice? "<p a={{x}}> {% if b %}é{% endif %}</p>".toList n.position = some t ∧
          parse t = .ok ⟨t, [m]⟩ ∧ n = m.shift 12) ∧
      ∃ r ∈ d.records, r.entry.kind = .drop ⟨.none, ['x']⟩ ∧
        ∃ t, Text.slice? "<p a={{x}}> {% if b %}é{% endif %}</p>".toList r.entry.position = some t ∧
          parse t = .ok ⟨t, [.drop ⟨⟨.none, ['x']⟩, ⟨0, Text.size t⟩⟩]⟩ := by
  have hcomputed : (parse "<p a={{x}}> {% if b %}é{% endif %}</p>".toList).toOption.map
      (fun d => (d.containers.map fun c => c.nodes.map Node.position,
        d.records.map fun r => r.entry.kind)) =
      some ([[⟨0, 39⟩], [⟨12, 35⟩], [], [⟨22, 24⟩]],
        [.document, .drop ⟨.none, ['x']⟩, .attr ['a'] none true, .text ['é'], .branch none,
          .block ⟨"if".toList, "b ".toList, .none⟩ .none, .element (some ['p'])]) := by
    decide +kernel
  cases h : parse "<p a={{x}}> {% if b %}é{% endif %}</p>".toList with
  | error r => rw [h] at hcomputed; cases hcomputed
  | ok d =>
    rw [h] at hcomputed
    obtain ⟨hpositions, hkinds⟩ := Prod.mk.inj (Option.some.inj hcomputed)
    obtain ⟨hnodes, hdrops⟩ := parse_slice h
    obtain ⟨c, hc, hcn⟩ := List.mem_map.1 (hpositions ▸ List.mem_cons_of_mem _ List.mem_cons_self)
    obtain ⟨n, hn, hpos⟩ := List.map_eq_singleton_iff.1 hcn
    obtain ⟨r, hr, hk⟩ := List.mem_map.1 (hkinds ▸ List.mem_cons_of_mem _ List.mem_cons_self)
    obtain ⟨t, m, hslice, hparse, hm⟩ := hnodes c hc n (hn ▸ List.mem_singleton_self n)
    obtain ⟨t', hslice', hparse', -⟩ := hdrops r hr _ hk
    exact ⟨d, rfl, ⟨c, hc, n, hn ▸ List.mem_singleton_self n, hpos, t, m, hslice, hparse,
      by rw [hpos] at hm; exact hm⟩, r, hr, hk, t', hslice', hparse'⟩

end Document

end LiquidTemplate
