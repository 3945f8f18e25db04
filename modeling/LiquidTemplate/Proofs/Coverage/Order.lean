import LiquidTemplate.Proofs.Arena.Order
import LiquidTemplate.Proofs.Lexeme.Grammar
import LiquidTemplate.Proofs.Text.Boundary

/-!
# Nodes stand in order

What a node holds stands in it, one node behind the other: a name, attributes, the parts of a value,
children. Positions come from tokens, from trimmed text and from pairs of tags, so this is proved
along the derivation of a document (`Nesting.SequenceTree.inOrder`). It gives the order of all
starts in a walk (`Document.nested_and_ordered`).
-/

namespace LiquidTemplate

open LiquidTemplate.Tree (InOrder)

/-! ## Nodes of a head -/

/-- A span of text covers something. -/
theorem Span.start_lt_ofText {start : Nat} {t : Text} (h : t ≠ []) :
    (Span.ofText start t).start < (Span.ofText start t).stop := by
  have := Text.size_pos h
  simp only [Span.ofText]
  omega

theorem DropNode.inOrder_ofInner (start : Nat) (inner : Text) (role : Role) :
    InOrder start (start + Text.size (Delimiter.drop.enclose inner))
      [(ofInner start inner).outline role] :=
  .leaf (e := ⟨role, .drop (.ofInner inner), .ofText start (Delimiter.drop.enclose inner)⟩)
    (Span.start_lt_ofText (Delimiter.enclose_ne_nil _ inner))

theorem PartNode.inOrder_ofPiece {p : Located Piece} (h : p.item.chars ≠ []) :
    InOrder p.start (p.start + Text.size p.item.chars) [(ofPiece p).outline] := by
  obtain ⟨start, piece⟩ := p
  cases piece with
  | text value =>
    exact .leaf (e := ⟨.part, .text value, .ofText start value⟩) (Span.start_lt_ofText h)
  | drop inner => exact DropNode.inOrder_ofInner start inner .part

/-- Pieces that stand one behind the other. -/
theorem PartNode.inOrder_locate {ps : List Piece} (h : ∀ p ∈ ps, p.chars ≠ []) (start : Nat) :
    InOrder start (start + Text.size (ps.flatMap Piece.chars))
      ((Located.locate (fun p => Text.size p.chars) start ps).map fun p => (ofPiece p).outline) :=
  .locate fun p hp => inOrder_ofPiece (h p.item hp)

theorem ValueNode.inOrder_ofValue {v : Located Value} (h : ∀ p ∈ v.item.pieces, p.chars ≠ []) :
    InOrder v.start (v.start + Text.size v.item.chars)
      ((ofValue v).parts.map PartNode.outline) := by
  obtain ⟨start, v⟩ := v
  rw [ofValue, List.map_map]
  refine (PartNode.inOrder_locate h _).mono (Nat.le_add_right _ _) ?_
  simp only [Value.chars, Text.size_append, Value.content]
  omega

/-- An attribute has a name, and no part of its value is empty. -/
def Attribute.Solid (a : Attribute) : Prop :=
  a.name ≠ [] ∧ ∀ s ∈ a.assignment, ∀ p ∈ s.value.pieces, p.chars ≠ []

theorem Attribute.solid_of_allReadBefore {rest : Text} {as : List Attribute}
    (h : AllReadBefore rest as) : ∀ a ∈ as, a.Solid := by
  intro a ha
  obtain ⟨hname, rest', -, hvalue⟩ := readBefore_of_mem h a ha
  refine ⟨hname, fun s hs => ?_⟩
  rw [Option.mem_def.1 hs] at hvalue
  obtain ⟨atoms, hatoms, -⟩ := hvalue.2.2
  rw [hatoms]
  exact Atom.chars_ne_nil_of_mem_pieces atoms

namespace AttributeNode

theorem inOrder_ofAttribute {a : Located Attribute} (h : a.item.Solid) :
    InOrder a.start (a.start + Text.size a.item.body) [(ofAttribute a).outline] := by
  have hbody : a.item.body ≠ [] := by simp [Attribute.body, h.1]
  refine .node (e := ⟨.attr, .attr a.item.name _ _, .ofText a.start a.item.body⟩) ?_
    (.inr (Span.start_lt_ofText hbody))
  simp only [ofAttribute]
  cases hv : a.item.valueAt? a.start with
  | none => exact .nil (Nat.le_add_right _ _)
  | some v =>
    have hwithin := (Attribute.within_value hv).le
    obtain ⟨s, hs, rfl⟩ := Option.map_eq_some_iff.1 hv
    exact (ValueNode.inOrder_ofValue (h.2 s hs)).mono hwithin.1 hwithin.2

/-- Attributes that stand one behind the other, with the blanks in front of each. -/
theorem inOrder_locate {as : List Attribute} (h : ∀ a ∈ as, a.Solid) (start : Nat) :
    InOrder start (start + Text.size (as.flatMap Attribute.chars))
      ((Located.locate (fun a => Text.size a.chars) start as).map
        fun a => (ofAttribute ⟨a.start + Text.size a.item.gap, a.item⟩).outline) :=
  .locate fun a ha => by
    have ha : Attribute.Solid (⟨a.start + Text.size a.item.gap, a.item⟩ : Located _).item :=
      h a.item ha
    refine (inOrder_ofAttribute ha).mono (Nat.le_add_right _ _) ?_
    simp only [Attribute.chars, Text.size_append]
    omega

theorem outline_ofHead (start : Nat) (head : Head) :
    (ofHead start head).map outline =
      (Located.locate (fun a => Text.size a.chars) (head.nameSpan start).stop head.attributes).map
        fun a => (ofAttribute ⟨a.start + Text.size a.item.gap, a.item⟩).outline := by
  rw [ofHead, Head.attributesAt, List.map_map, List.map_map]
  rfl

/-- Attributes stand behind the name and in front of the end of the tag. -/
theorem exists_inOrder_ofHead {rest : Text} {head : Head} (h : head.ReadBefore rest)
    (start : Nat) : ∃ stop < start + Text.size head.chars,
      InOrder (head.nameSpan start).stop stop ((ofHead start head).map outline) := by
  have hclosing : 0 < Text.size head.closing := by
    refine Text.size_pos ?_
    unfold Head.closing
    split <;> exact List.cons_ne_nil _ _
  have hsize : Text.size head.chars = 1 + (Text.size head.name.chars +
      Text.size (head.attributes.flatMap Attribute.chars) +
      Text.size head.gap + Text.size head.closing) := by
    rw [Head.chars, Text.size_cons, Head.tail, Text.size_append, Text.size_append, Text.size_append]
    rfl
  refine ⟨_, ?_, outline_ofHead start head ▸
    inOrder_locate (Attribute.solid_of_allReadBefore h.2.1) _⟩
  simp only [Head.nameSpan, Span.ofText]
  omega

theorem inOrder_ofHead {rest : Text} {head : Head} (h : head.ReadBefore rest) (start : Nat) :
    InOrder (head.nameSpan start).stop (start + Text.size head.chars)
      ((ofHead start head).map outline) := by
  obtain ⟨stop, hstop, hattributes⟩ := exists_inOrder_ofHead h start
  exact hattributes.mono (Nat.le_refl _) (Nat.le_of_lt hstop)

end AttributeNode

theorem ElementName.inOrder_ofHead (start : Nat) (head : Head) :
    InOrder start (head.nameSpan start).stop (ofHead start head).outline := by
  unfold ofHead Head.nameSpan
  cases head.name with
  | fixed name => exact .nil (by simp only [Span.ofText]; omega)
  | dynamic inner =>
    exact (DropNode.inOrder_ofInner (start + 1) inner .name).mono (Nat.le_succ _) (Nat.le_refl _)

/-! ## Nodes of tokens -/

theorem Lexeme.chars_ne_nil_of_isConstruct {l : Lexeme} (h : l.isConstruct = true) :
    l.chars ≠ [] := by
  cases l with
  | text v => cases h
  | invalid flaw rest => cases h
  | _ => simp [chars, Delimiter.enclose, Delimiter.opening, Head.chars]

theorem Token.start_lt_stop {t : Token} (h : t.item.isConstruct = true) : t.start < t.stop :=
  Span.start_lt_ofText (Lexeme.chars_ne_nil_of_isConstruct h)

/-- The end tag of a raw tag starts behind the opening tag and stops where the raw tag does. -/
theorem Token.stop_rawTag (start : Nat) (opening body closing : Text) :
    start + Text.size (Delimiter.tag.enclose opening) <
        stop ⟨start, .rawTag opening body closing⟩ ∧
      start < start + Text.size (Delimiter.tag.enclose opening ++ body) ∧
      stop ⟨start, .rawTag opening body closing⟩ =
        start + Text.size (Delimiter.tag.enclose opening ++ body) +
          Text.size (Delimiter.tag.enclose closing) := by
  have hopening := Text.size_pos (Delimiter.enclose_ne_nil .tag opening)
  have hclosing := Text.size_pos (Delimiter.enclose_ne_nil .tag closing)
  simp only [stop_eq, Lexeme.chars, Text.size_append]
  omega

/-- The node of a token stands in it, in order. -/
theorem Token.inOrder_leaf {t : Token} {n : Node} (h : t.leafNode? = some n) (hr : t.item.Read) :
    InOrder t.start t.stop [n.outline] := by
  obtain ⟨start, item⟩ := t
  have hleaf (kind : Kind) (hl : item.isConstruct = true) :
      InOrder start (start + item.size) [.leaf ⟨.child, kind, ⟨start, start + item.size⟩⟩] :=
    .leaf (e := ⟨.child, kind, ⟨start, start + item.size⟩⟩) (start_lt_stop (t := ⟨start, item⟩) hl)
  cases item with
  | text value =>
    simp only [leafNode?, Node.ofText?, Option.ite_none_left_eq_some, Option.some.injEq] at h
    obtain ⟨hne, rfl⟩ := h
    have hwithin := (Text.within_trim start value).le
    exact (InOrder.leaf (e := ⟨.child, .text (Text.trim value),
      .ofText (start + Text.size (Text.leadingBlanks value)) (Text.trim value)⟩)
      (Span.start_lt_ofText (by simpa using hne))).mono hwithin.1 hwithin.2
  | drop inner => cases h; exact DropNode.inOrder_ofInner start inner .child
  | tag inner =>
    simp only [leafNode?, Option.ite_none_right_eq_some, Option.some.injEq] at h
    obtain ⟨-, rfl⟩ := h
    exact hleaf _ rfl
  | startTag head =>
    obtain ⟨rest, hhead, -⟩ := hr rfl
    have hattributes := AttributeNode.inOrder_ofHead hhead start
    have hname := ElementName.inOrder_ofHead start head
    have hwide := start_lt_stop (t := ⟨start, .startTag head⟩) rfl
    simp only [leafNode?] at h
    split at h
    · next name _ =>
      cases h
      exact .node (e := ⟨.child, .voidElement name, .ofText start head.chars⟩)
        (hattributes.mono hname.chain.le (Nat.le_refl _)) (.inr hwide)
    · split at h
      · cases h
        exact .node (e := ⟨.child, .selfClosingElement _, .ofText start head.chars⟩)
          (hname.append hattributes) (.inr hwide)
      · cases h
  | endTag _ _ => cases h
  | invalid _ _ => cases h
  | comment body => cases h; exact hleaf _ rfl
  | doctype keyword raw => cases h; exact hleaf _ rfl
  | rawElement head body closeName closeRest =>
    cases h
    obtain ⟨rest, hhead, -⟩ := hr rfl
    have hattributes := AttributeNode.inOrder_ofHead hhead start
    have hname := (ElementName.inOrder_ofHead start head).chain.le
    have hstop := (Lexeme.within_rawElement start head body closeName closeRest).1.le
    exact .node (e := ⟨.child, .rawElement head.name.chars body,
      ⟨start, start + (Lexeme.rawElement head body closeName closeRest).size⟩⟩)
      (hattributes.mono hname hstop.2)
      (.inr (start_lt_stop (t := ⟨start, .rawElement head body closeName closeRest⟩) rfl))
  | rawTag opening body closing => cases h; exact hleaf _ rfl

/-! ## Nodes of a document -/

namespace Nesting

open Token

/-- The stop of what tokens cover. -/
theorem start_add_size_covered_cons {start : Nat} {t : Token} {ts : List Token}
    (h : Contiguous start (t :: ts)) :
    start + Text.size (covered (t :: ts)) = t.stop + Text.size (covered ts) := by
  obtain ⟨rfl, -⟩ := h
  rw [covered_cons, Text.size_append, stop_eq, Nat.add_assoc]

/-- What stands between two tokens. -/
theorem contiguous_between {start : Nat} {t t' : Token} {ts : List Token}
    (h : Contiguous start (t :: ts ++ [t'])) :
    Contiguous t.stop ts ∧ t'.start = t.stop + Text.size (covered ts) := by
  obtain ⟨hts, hlast, -⟩ := contiguous_append.1 (show Contiguous t.stop (ts ++ [t']) from h.2)
  exact ⟨hts, hlast⟩

/-- A node that covers two tokens and all between them. -/
theorem inOrder_enclosed {start : Nat} {t t' : Token} {ts : List Token} {e : Entry}
    {us : List (Tree Entry)} (hts : Contiguous start (t :: ts ++ [t']))
    (hc : t.item.isConstruct = true) (he : e.position = ⟨t.start, t'.stop⟩)
    (h : InOrder t.start t'.start us) :
    InOrder start (start + Text.size (covered (t :: ts ++ [t']))) [.node e us] := by
  have hbetween := h.chain.le
  have hstop : t'.start ≤ t'.stop := Nat.le_add_right _ _
  have hlast := (contiguous_between hts).2
  have hfirst := Token.start_lt_stop hc
  have hnode : InOrder e.position.start e.position.stop [.node e us] := by
    refine .node ?_ (.inr ?_)
    · rw [he]
      exact h.mono (Nat.le_refl _) hstop
    · rw [he]
      show t.start < t'.stop
      omega
  rwa [he, hts.enclosed] at hnode

/-- An element around nodes that are in order. -/
theorem inOrder_element {start : Nat} {t t' : Token} {ts : List Token} {head : Head}
    {ns : List Node} (hts : Contiguous start (t :: ts ++ [t'])) (ht : t.item = .startTag head)
    (hr : t.item.Read) (h : InOrder t.stop t'.start (Node.outlineAll ns)) :
    InOrder start (start + Text.size (covered (t :: ts ++ [t'])))
      [(Node.ofElement t.start head ns t'.stop).outline] := by
  have hc : t.item.isConstruct = true := by rw [ht]; rfl
  have hstop : t.start + Text.size head.chars = t.stop := by rw [stop_eq, ht]; rfl
  obtain ⟨rest, hbefore⟩ := hr hc
  rw [ht] at hbefore
  have hattributes := AttributeNode.inOrder_ofHead hbefore.1 t.start
  rw [hstop] at hattributes
  exact inOrder_enclosed hts hc rfl
    (((ElementName.inOrder_ofHead t.start head).append hattributes).append h)

mutual

theorem SequenceTree.inOrder : ∀ {ts : List Token} {ns : List Node}, SequenceTree ts ns →
    ∀ {start : Nat}, Contiguous start ts → (∀ t ∈ ts, t.item.Read) →
    InOrder start (start + Text.size (covered ts)) (Node.outlineAll ns)
  | _, _, .empty, _, _, _ => .nil (Nat.le_add_right _ _)
  | _, _, .cons hi ht, start, hts, hr => by
    rw [contiguous_append] at hts
    rw [List.forall_mem_append] at hr
    rw [Node.outlineAll_append, covered_append, Text.size_append, ← Nat.add_assoc]
    exact (hi.inOrder hts.1 hr.1).append (ht.inOrder hts.2 hr.2)

theorem ItemTree.inOrder : ∀ {ts : List Token} {ns : List Node}, ItemTree ts ns →
    ∀ {start : Nat}, Contiguous start ts → (∀ t ∈ ts, t.item.Read) →
    InOrder start (start + Text.size (covered ts)) (Node.outlineAll ns)
  | _, _, .blank _ _, _, _, _ => .nil (Nat.le_add_right _ _)
  | _, _, .leaf hn, start, hts, hr => by
    rw [start_add_size_covered_cons hts, ← hts.1]
    exact Token.inOrder_leaf hn (hr _ List.mem_cons_self)
  | _, _, .element ht _ hus _ _, start, hts, hr => by
    rw [List.cons_append, List.forall_mem_cons, List.forall_mem_append] at hr
    obtain ⟨hbetween, hlast⟩ := contiguous_between hts
    have hchildren := hus.inOrder hbetween hr.2.1
    rw [← hlast] at hchildren
    exact inOrder_element hts ht hr.1 hchildren
  | _, _, .block (t := t) ht hrole hbs ht' hrole', start, hts, hr => by
    rw [List.cons_append, List.forall_mem_cons, List.forall_mem_append] at hr
    obtain ⟨hbetween, hlast⟩ := contiguous_between hts
    have hc : t.item.isConstruct = true := by rw [ht]; rfl
    have hbranches := hbs.inOrder hbetween hr.2.1 hlast (Nat.le_refl _) (.inl rfl)
    exact inOrder_enclosed hts hc rfl
      (hbranches.mono (Nat.le_of_lt (Token.start_lt_stop hc)) (Nat.le_refl _))

/-- Branches are in order where the first one starts at or in front of its nodes, and in front of
them if it has a label. -/
theorem BranchTrees.inOrder : ∀ {name : Text} {label : Option Tag} {start stop : Nat}
    {ts : List Token} {branches : List Branch}, BranchTrees name label start ts stop branches →
    ∀ {begin : Nat}, Contiguous begin ts → (∀ t ∈ ts, t.item.Read) →
    stop = begin + Text.size (covered ts) → start ≤ begin → (label = none ∨ start < begin) →
    InOrder start stop (Branch.outlineAll branches)
  | _, label, start, stop, _, _, .last hus, _, hts, hr, hstop, hstart, hlabel => by
    have hchildren := (hus.inOrder hts hr).mono hstart (Nat.le_of_eq hstop.symm)
    refine .node (e := ⟨.child, .branch label, ⟨start, stop⟩⟩) hchildren ?_
    rcases hlabel with rfl | hlt
    · exact .inl rfl
    · exact .inr (show start < stop by omega)
  | _, label, start, stop, _, _, .more (t := t) hus ht hb hbs, begin, hts, hr, hstop, hstart,
      hlabel => by
    rw [contiguous_append] at hts
    rw [List.forall_mem_append, List.forall_mem_cons] at hr
    obtain ⟨hfirst, hnext, hrest⟩ := hts
    have hc : t.item.isConstruct = true := by rw [ht]; rfl
    have hlt := Token.start_lt_stop hc
    have hchildren := (hus.inOrder hfirst hr.1).mono hstart (Nat.le_of_eq hnext.symm)
    have hbranches := hbs.inOrder hrest hr.2.2 (by
      rw [hstop, covered_append, covered_cons, Text.size_append, Text.size_append, stop_eq, hnext,
        Nat.add_assoc, Nat.add_assoc]) (Nat.le_of_lt hlt) (.inr hlt)
    refine .cons (.node (e := ⟨.child, .branch label, ⟨start, t.start⟩⟩) hchildren ?_) hbranches
    rcases hlabel with rfl | hlt'
    · exact .inl rfl
    · exact .inr (show start < t.start by omega)

end

end Nesting

namespace Document

open Nesting

theorem inOrder_of_parse {source : Text} {d : Document} (h : parse source = .ok d) :
    InOrder 0 (Text.size source) (Node.outlineAll d.children) := by
  obtain ⟨rfl, ht⟩ := parse_eq_ok_iff_sequenceTree.1 h
  have horder := ht.inOrder (Token.contiguous_ofText d.source) fun t => Token.read_of_mem_ofText
  rwa [Token.covered_ofText, Nat.zero_add] at horder

/-- **Nodes are nested and in order**: the document covers its template; what a node holds stands in
it, one node behind the other; every node covers a part of the template between character
boundaries, which is not empty except for the document itself and the first branch of a block. So a
walk meets the nodes in the order of their starts. -/
theorem nested_and_ordered {source : Text} {d : Document} (h : parse source = .ok d) :
    (∃ root, d.records[0]? = some root ∧ root.entry.position = ⟨0, Text.size source⟩) ∧
    (∀ r ∈ d.records,
      (d.held r).map Record.slot = r.contents ∧
      Span.Chain r.entry.position.start r.entry.position.stop
        ((d.held r).map fun c => c.entry.position) ∧
      r.entry.position.start ≤ r.entry.position.stop ∧
      r.entry.position.stop ≤ Text.size source ∧
      Text.IsBoundary source r.entry.position.start ∧
      Text.IsBoundary source r.entry.position.stop ∧
      (r.id ≠ 0 → r.entry.kind ≠ .branch none →
        r.entry.position.start < r.entry.position.stop)) ∧
    (d.walk.map fun v => v.2.2.position.start).Pairwise (· ≤ ·) := by
  have horder := inOrder_of_parse h
  have hcovers := covers_of_parse h
  obtain ⟨rfl, -⟩ := parse_eq_ok_iff_sequenceTree.1 h
  have hposition : d.position = ⟨0, Text.size d.source⟩ := by
    rw [position, Span.ofText, Nat.zero_add]
  have heverywhere : d.outline.Everywhere Entry.Holds := by
    refine ⟨⟨?_, List.forall_mem_map.2 horder.wide⟩, horder.everywhere⟩
    rw [hposition, List.map_map]
    exact horder.chain
  have hlocal := of_everywhere heverywhere
  refine ⟨⟨_, by rw [records_eq]; rfl, hposition⟩, fun r hr => ?_, ?_⟩
  · obtain ⟨hslots, hchain, -⟩ := hlocal r hr
    rw [List.map_map] at hchain
    obtain ⟨t, hwithin, hstop, -⟩ := hcovers r hr
    obtain ⟨hbegin, hfinish, -⟩ :=
      Text.isBoundary_of_slice? (Located.within_iff_slice?.2 ⟨hwithin, hstop⟩)
    refine ⟨hslots, hchain, hchain.le, hfinish.le_size, hbegin, hfinish, fun hid hk => ?_⟩
    obtain ⟨holder, hholder, hheld⟩ := exists_mem_held hr hid
    exact ((hlocal holder hholder).2.2 r.entry (List.mem_map_of_mem hheld)).resolve_left hk
  · rw [walk, Tree.walk_eq_descendants]
    have hvisited := Tree.map_entry_preorderAll (Node.outlineAll d.children) (0, d.outline.value) 1
    have hsorted := Tree.sorted_valuesAll _ _ _ horder
    rw [← hvisited, List.map_map] at hsorted
    exact hsorted

/-- An element with a dynamic name and an attribute, around a block with an empty first branch. -/
theorem nested_and_ordered_empty_branch :
    ∃ d, parse "<{{é}} a={{x}}>{% if b %}{% else %}y{% endif %}</{{é}}>".toList = .ok d ∧
      (∃ root, d.records[0]? = some root ∧ root.entry.position = ⟨0, 57⟩) ∧
      (∃ r ∈ d.records, r.entry.position = ⟨16, 48⟩ ∧
        Span.Chain 16 48 ((d.held r).map fun c => c.entry.position)) ∧
      (∃ r ∈ d.records, r.entry.position = ⟨26, 26⟩ ∧ r.entry.kind = .branch none) ∧
      (d.walk.map fun v => v.2.2.position.start).Pairwise (· ≤ ·) := by
  have hcomputed : (parse
      "<{{é}} a={{x}}>{% if b %}{% else %}y{% endif %}</{{é}}>".toList).toOption.map
      (fun d => d.records.map fun r => r.entry.position) =
      some [⟨0, 57⟩, ⟨1, 7⟩, ⟨10, 15⟩, ⟨8, 15⟩, ⟨26, 26⟩, ⟨36, 37⟩, ⟨26, 37⟩, ⟨16, 48⟩,
        ⟨0, 57⟩] := by
    decide +kernel
  cases h : parse "<{{é}} a={{x}}>{% if b %}{% else %}y{% endif %}</{{é}}>".toList with
  | error r => rw [h] at hcomputed; cases hcomputed
  | ok d =>
    rw [h] at hcomputed
    have hpositions : (d.records.map fun r => r.entry.position) = _ := Option.some.inj hcomputed
    obtain ⟨hroot, hall, hwalk⟩ := nested_and_ordered h
    have hfind (s : Span) (hs : s ∈ d.records.map fun r => r.entry.position) :
        ∃ r ∈ d.records, r.entry.position = s := List.mem_map.1 hs
    obtain ⟨block, hblock, hp⟩ := hfind ⟨16, 48⟩ (by rw [hpositions]; decide)
    obtain ⟨branch, hbranch, hp'⟩ := hfind ⟨26, 26⟩ (by rw [hpositions]; decide)
    have hchain := (hall block hblock).2.1
    rw [hp] at hchain
    refine ⟨d, rfl, hroot, ⟨block, hblock, hp, hchain⟩, ⟨branch, hbranch, hp', ?_⟩, hwalk⟩
    -- a node that is empty is the first branch of a block
    refine Decidable.byContradiction fun hk => ?_
    have hid : branch.id ≠ 0 := by
      intro hid
      have hget := d.numbered_records.getElem?_id hbranch
      obtain ⟨root, hroot, hposition⟩ := hroot
      rw [hid, hroot] at hget
      rw [Option.some.inj hget, hp'] at hposition
      exact absurd hposition (by decide)
    have hlt := (hall branch hbranch).2.2.2.2.2.2 hid hk
    rw [hp'] at hlt
    exact Nat.lt_irrefl _ hlt

end Document

end LiquidTemplate
