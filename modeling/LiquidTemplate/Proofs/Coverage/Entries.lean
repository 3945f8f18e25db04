import LiquidTemplate.Proofs.Arena.Layout
import LiquidTemplate.Proofs.Coverage.Containers
import LiquidTemplate.Proofs.Lexeme.Closed
import LiquidTemplate.Proofs.Token.Parts
import LiquidTemplate.Proofs.Tree.Values

/-!
# Every node covers a part of the template

Names, attributes and parts of values are nodes as well. Each node of a document covers a part of
the template, and what a drop covers is read as that drop (`Entry.Covers`,
`Document.covers_of_parse`).
-/

namespace LiquidTemplate

open Located (Within within_append_left within_iff_slice?)

namespace Record

mutual

theorem entry_mem_values : ∀ (t : Tree Entry) {parent : Option Nat} {next : Nat},
    ∀ r ∈ layout parent (t.number next).1, r.entry ∈ t.values
  | .node entry ts, parent, next, r, hr => by
    rw [Tree.number_node_fst, layout, List.mem_append, List.mem_singleton] at hr
    rcases hr with hr | rfl
    · exact List.mem_cons_of_mem _ (entry_mem_valuesAll ts r hr)
    · exact List.mem_cons_self

/-- The entries of a layout are those of its trees. -/
theorem entry_mem_valuesAll : ∀ (ts : List (Tree Entry)) {parent : Option Nat} {next : Nat},
    ∀ r ∈ layoutAll parent (Tree.numberAll next ts).1, r.entry ∈ Tree.valuesAll ts
  | [], _, _, _, hr => by cases hr
  | t :: ts, parent, next, r, hr => by
    rw [Tree.numberAll_cons_fst, layoutAll, List.mem_append] at hr
    rcases hr with hr | hr
    · exact List.mem_append_left _ (entry_mem_values t r hr)
    · exact List.mem_append_right _ (entry_mem_valuesAll ts r hr)

end

end Record

/-! ## Entries and what they cover -/

/-- The entry covers a part of the text, and if it is a drop, that part is read as this drop. -/
def Entry.Covers (y : Located Text) (e : Entry) : Prop :=
  ∃ t, Within ⟨e.position.start, t⟩ y ∧ e.position.stop = e.position.start + Text.size t ∧
    ∀ markup, e.kind = .drop markup →
      ∃ inner, t = Delimiter.drop.enclose inner ∧ markup = .ofInner inner ∧
        Delimiter.drop.Closes inner

theorem Entry.Covers.within {x y : Located Text} {e : Entry} (h : e.Covers x) (hxy : x.Within y) :
    e.Covers y := by
  obtain ⟨t, ht, hstop, hdrop⟩ := h
  exact ⟨t, ht.trans hxy, hstop, hdrop⟩

/-- An entry that is no drop covers whatever stands at its position. -/
theorem Entry.covers_of_slice? {source t : Text} {e : Entry}
    (h : Text.slice? source e.position = some t) (hk : ∀ markup, e.kind ≠ .drop markup) :
    e.Covers ⟨0, source⟩ :=
  ⟨t, (within_iff_slice?.1 h).1, (within_iff_slice?.1 h).2, fun m hm => absurd hm (hk m)⟩

theorem Entry.covers_whole {y : Located Text} {e : Entry} (hp : e.position = .ofText y.start y.item)
    (hk : ∀ markup, e.kind ≠ .drop markup) : e.Covers y := by
  obtain ⟨role, kind, position⟩ := e
  subst hp
  exact ⟨y.item, .refl _, rfl, fun m hm => absurd hm (hk m)⟩

theorem DropNode.covers_ofInner {inner : Text} (h : Delimiter.drop.Closes inner) (role : Role)
    (start : Nat) :
    ∀ e ∈ ((ofInner start inner).outline role).values,
      e.Covers ⟨start, Delimiter.drop.enclose inner⟩ := by
  intro e he
  obtain rfl := List.mem_singleton.1 he
  exact ⟨_, .refl _, rfl, fun markup hm => ⟨inner, rfl, (Kind.drop.inj hm).symm, h⟩⟩

theorem PartNode.covers_ofPiece {p : Located Piece} (h : p.item.Closed) :
    ∀ e ∈ (ofPiece p).outline.values, e.Covers ⟨p.start, p.item.chars⟩ := by
  obtain ⟨start, piece⟩ := p
  cases piece with
  | text value =>
    intro e he
    obtain rfl := List.mem_singleton.1 he
    exact Entry.covers_whole rfl (by simp)
  | drop inner => exact DropNode.covers_ofInner h .part start

namespace AttributeNode

theorem covers_ofAttribute {a : Located Attribute} (h : a.item.Closed) :
    ∀ e ∈ (ofAttribute a).outline.values, e.Covers ⟨a.start, a.item.body⟩ := by
  refine List.forall_mem_cons.2 ⟨Entry.covers_whole rfl (by simp), ?_⟩
  simp only [ofAttribute]
  cases hv : a.item.valueAt? a.start with
  | none => exact List.forall_mem_nil _
  | some v =>
    have hwithin := Attribute.within_value hv
    obtain ⟨s, hs, rfl⟩ := Option.map_eq_some_iff.1 hv
    simp only [Option.map_some, Option.getD_some, ValueNode.ofValue, List.map_map]
    refine Tree.forall_mem_valuesAll_map fun p hp e he => ?_
    obtain ⟨hp, hmem⟩ := Value.within_pieces hp
    exact ((PartNode.covers_ofPiece (h s hs p.item hmem) e he).within hp).within hwithin

theorem covers_ofHead {head : Head} (h : head.Closed) (start : Nat) :
    ∀ e ∈ Tree.valuesAll ((ofHead start head).map outline), e.Covers ⟨start, head.chars⟩ := by
  rw [ofHead, List.map_map]
  refine Tree.forall_mem_valuesAll_map fun a ha e he => ?_
  obtain ⟨ha, hmem⟩ := Head.within_attributes ha
  exact (covers_ofAttribute (h.2 a.item hmem) e he).within ha

end AttributeNode

theorem ElementName.covers_ofHead {head : Head} (h : head.Closed) (start : Nat) :
    ∀ e ∈ Tree.valuesAll (ofHead start head).outline, e.Covers ⟨start, head.chars⟩ := by
  have hwithin : Within ⟨start + 1, head.name.chars⟩ ⟨start, head.chars⟩ := Head.within_name
  have hname := h.1
  unfold ofHead
  cases hn : head.name with
  | fixed name => exact List.forall_mem_nil _
  | dynamic inner =>
    rw [hn] at hwithin hname
    intro e he
    rw [outline, Tree.valuesAll, Tree.valuesAll, List.append_nil] at he
    exact (DropNode.covers_ofInner hname .name _ e he).within hwithin

/-- The nodes of a token cover parts of it. -/
theorem Token.covers_leaf {t : Token} {n : Node} (h : t.leafNode? = some n) (hc : t.item.Closed) :
    ∀ e ∈ n.outline.values, e.Covers ⟨t.start, t.item.chars⟩ := by
  obtain ⟨start, item⟩ := t
  cases item with
  | text value =>
    simp only [leafNode?, Node.ofText?, Option.ite_none_left_eq_some, Option.some.injEq] at h
    obtain ⟨-, rfl⟩ := h
    intro e he
    obtain rfl := List.mem_singleton.1 he
    exact ⟨_, Text.within_trim start value, rfl, by simp⟩
  | drop inner => cases h; exact DropNode.covers_ofInner hc .child start
  | tag inner =>
    simp only [leafNode?, Option.ite_none_right_eq_some, Option.some.injEq] at h
    obtain ⟨-, rfl⟩ := h
    exact List.forall_mem_cons.2 ⟨Entry.covers_whole rfl (by simp), List.forall_mem_nil _⟩
  | startTag head =>
    have hattributes := AttributeNode.covers_ofHead hc start
    simp only [leafNode?] at h
    split at h
    · cases h
      exact List.forall_mem_cons.2 ⟨Entry.covers_whole rfl (by simp), hattributes⟩
    · split at h
      · cases h
        refine List.forall_mem_cons.2 ⟨Entry.covers_whole rfl (by simp), ?_⟩
        rw [Tree.valuesAll_append]
        exact List.forall_mem_append.2 ⟨ElementName.covers_ofHead hc start, hattributes⟩
      · cases h
  | endTag _ _ => cases h
  | invalid _ _ => cases h
  | comment body =>
    cases h
    exact List.forall_mem_cons.2 ⟨Entry.covers_whole rfl (by simp), List.forall_mem_nil _⟩
  | doctype keyword raw =>
    cases h
    exact List.forall_mem_cons.2 ⟨Entry.covers_whole rfl (by simp), List.forall_mem_nil _⟩
  | rawElement head body closeName closeRest =>
    cases h
    have hhead : Within ⟨start, head.chars⟩
        ⟨start, (Lexeme.rawElement head body closeName closeRest).chars⟩ := by
      simp only [Lexeme.chars, List.append_assoc]
      exact within_append_left _ _ _
    exact List.forall_mem_cons.2 ⟨Entry.covers_whole rfl (by simp), fun e he =>
      (AttributeNode.covers_ofHead hc start e he).within hhead⟩
  | rawTag opening body closing =>
    cases h
    exact List.forall_mem_cons.2 ⟨Entry.covers_whole rfl (by simp), List.forall_mem_nil _⟩

/-! ## Entries of a document -/

/-- The token stands in the source, and what it encloses is enclosed by its own delimiters. -/
def Token.Placed (source : Text) (t : Token) : Prop :=
  Within ⟨t.start, t.item.chars⟩ ⟨0, source⟩ ∧ t.item.Closed

theorem Token.placed_of_mem_ofText {source : Text} {t : Token} (h : t ∈ ofText source) :
    t.Placed source := by
  obtain ⟨hwithin, hmem⟩ : Within ⟨t.start, t.item.chars⟩
      ⟨0, (Lexeme.ofText source).flatMap Lexeme.chars⟩ ∧ t.item ∈ Lexeme.ofText source :=
    Located.within_of_mem_locate h
  rw [Lexeme.flatMap_chars_ofText] at hwithin
  exact ⟨hwithin, Lexeme.closed_of_mem_ofText hmem⟩

/-- A container covers something. -/
theorem Container.Covered.exists_slice? {source : Text} {c : Container} (h : c.Covered source) :
    ∃ t, Text.slice? source c.position = some t := by
  obtain ⟨front, body, back, hslice, -⟩ := h
  exact ⟨_, hslice⟩

namespace Nesting

variable {source : Text}

mutual

theorem SequenceTree.covers : ∀ {ts : List Token} {ns : List Node}, SequenceTree ts ns →
    (∀ t ∈ ts, t.Placed source) → (∀ c ∈ Node.containersAll ns, c.Covered source) →
    ∀ e ∈ Tree.valuesAll (Node.outlineAll ns), e.Covers ⟨0, source⟩
  | _, _, .empty, _, _ => List.forall_mem_nil _
  | _, _, .cons hi ht, hts, hcs => by
    rw [List.forall_mem_append] at hts
    rw [Node.containersAll_append, List.forall_mem_append] at hcs
    rw [Node.outlineAll_append, Tree.valuesAll_append]
    exact List.forall_mem_append.2 ⟨hi.covers hts.1 hcs.1, ht.covers hts.2 hcs.2⟩

theorem ItemTree.covers : ∀ {ts : List Token} {ns : List Node}, ItemTree ts ns →
    (∀ t ∈ ts, t.Placed source) → (∀ c ∈ Node.containersAll ns, c.Covered source) →
    ∀ e ∈ Tree.valuesAll (Node.outlineAll ns), e.Covers ⟨0, source⟩
  | _, _, .blank ht hv, _, _ => List.forall_mem_nil _
  | _, _, .leaf hn, hts, _ => by
    obtain ⟨hwithin, hclosed⟩ := hts _ List.mem_cons_self
    intro e he
    rw [Node.outlineAll, Node.outlineAll, Tree.valuesAll, Tree.valuesAll, List.append_nil] at he
    exact (Token.covers_leaf hn hclosed e he).within hwithin
  | _, _, .element (t := t) ht ho hts' ht' hk, hts, hcs => by
    rw [List.cons_append, List.forall_mem_cons, List.forall_mem_append] at hts
    obtain ⟨⟨hwithin, hclosed⟩, hts, -⟩ := hts
    rw [ht] at hwithin hclosed
    rw [Node.containersAll, Node.containersAll, List.append_nil, Node.ofElement, Node.containers,
      List.forall_mem_cons] at hcs
    obtain ⟨text, hslice⟩ := hcs.1.exists_slice?
    rw [Node.outlineAll, Node.outlineAll, Tree.valuesAll, Tree.valuesAll, List.append_nil,
      Node.ofElement, Node.outline, Tree.values, Tree.valuesAll_append, Tree.valuesAll_append,
      List.forall_mem_cons, List.forall_mem_append, List.forall_mem_append]
    refine ⟨Entry.covers_of_slice? hslice (by simp), ⟨fun e he => ?_, fun e he => ?_⟩, ?_⟩
    · exact (ElementName.covers_ofHead hclosed t.start e he).within hwithin
    · exact (AttributeNode.covers_ofHead hclosed t.start e he).within hwithin
    · exact hts'.covers hts hcs.2
  | _, _, .block ht hr hbs ht' hr', hts, hcs => by
    rw [List.cons_append, List.forall_mem_cons, List.forall_mem_append] at hts
    rw [Node.containersAll, Node.containersAll, List.append_nil, Node.containers,
      List.forall_mem_cons] at hcs
    obtain ⟨text, hslice⟩ := hcs.1.exists_slice?
    rw [Node.outlineAll, Node.outlineAll, Tree.valuesAll, Tree.valuesAll, List.append_nil,
      Node.outline, Tree.values, List.forall_mem_cons]
    exact ⟨Entry.covers_of_slice? hslice (by simp), hbs.covers hts.2.1 hcs.2⟩

theorem BranchTrees.covers : ∀ {name : Text} {label : Option Tag} {start stop : Nat}
    {ts : List Token} {branches : List Branch}, BranchTrees name label start ts stop branches →
    (∀ t ∈ ts, t.Placed source) → (∀ c ∈ Branch.containersAll branches, c.Covered source) →
    ∀ e ∈ Tree.valuesAll (Branch.outlineAll branches), e.Covers ⟨0, source⟩
  | _, _, _, _, _, _, .last hts', hts, hcs => by
    rw [Branch.containersAll, Branch.containersAll, List.append_nil, Branch.containers,
      List.forall_mem_cons] at hcs
    obtain ⟨text, hslice⟩ := hcs.1.exists_slice?
    rw [Branch.outlineAll, Branch.outlineAll, Tree.valuesAll, Tree.valuesAll, List.append_nil,
      Branch.outline, Tree.values, List.forall_mem_cons]
    exact ⟨Entry.covers_of_slice? hslice (by simp), hts'.covers hts hcs.2⟩
  | _, _, _, _, _, _, .more hts' ht hb hbs, hts, hcs => by
    rw [List.forall_mem_append, List.forall_mem_cons] at hts
    rw [Branch.containersAll, Branch.containers, List.forall_mem_append,
      List.forall_mem_cons] at hcs
    obtain ⟨⟨hc, hcs⟩, hcs'⟩ := hcs
    obtain ⟨text, hslice⟩ := hc.exists_slice?
    rw [Branch.outlineAll, Tree.valuesAll, Branch.outline, Tree.values, List.forall_mem_append,
      List.forall_mem_cons]
    exact ⟨⟨Entry.covers_of_slice? hslice (by simp), hts'.covers hts.1 hcs⟩,
      hbs.covers hts.2.2 hcs'⟩

end

end Nesting

/-- Each node of a document covers a part of its template. -/
theorem Document.covers_of_parse {source : Text} {d : Document} (h : parse source = .ok d) :
    ∀ r ∈ d.records, r.entry.Covers ⟨0, source⟩ := by
  obtain ⟨rfl, ht⟩ := parse_eq_ok_iff_sequenceTree.1 h
  have hcs := (ht.covered (Token.stand_ofText d.source)).2
  have hall := ht.covers (fun t => Token.placed_of_mem_ofText) hcs
  intro r hr
  rw [records_eq] at hr
  rcases List.mem_cons.1 hr with rfl | hr
  · exact Entry.covers_whole rfl (by simp [outline, Tree.value])
  · exact hall r.entry (Record.entry_mem_valuesAll _ r hr)

end LiquidTemplate
