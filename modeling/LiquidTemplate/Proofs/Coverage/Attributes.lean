import LiquidTemplate.Proofs.Coverage.Kinds
import LiquidTemplate.Proofs.Coverage.Pieces
import LiquidTemplate.Proofs.Reader.Range

/-!
# Attributes in a document

The attribute nodes of a document, in the order of their numbers, are those of its tokens
(`Document.map_family_attributes`), and the nodes in the value of one are the pieces of that value.
So what these nodes cover is, put together, the text of the value (`Document.values_verbatim`).
-/

namespace LiquidTemplate

open Located (Within)
open LiquidTemplate.Tree (familiesAll familiesAll_append)

/-! ## Attributes that nodes hold -/

namespace Tree

/-- The attributes in trees, each with the nodes in its value. -/
def attributesAll (ts : List (Tree Entry)) : List (Entry × List Entry) :=
  (familiesAll ts).filter (·.1.kind.isAttribute)

theorem attributesAll_append (ts us : List (Tree Entry)) :
    attributesAll (ts ++ us) = attributesAll ts ++ attributesAll us := by
  rw [attributesAll, familiesAll_append, List.filter_append]
  rfl

theorem attributesAll_cons (t : Tree Entry) (ts : List (Tree Entry)) :
    attributesAll (t :: ts) = attributesAll [t] ++ attributesAll ts :=
  attributesAll_append [t] ts

theorem attributesAll_node {e : Entry} (h : e.kind.isAttribute = false) (ts : List (Tree Entry)) :
    attributesAll [.node e ts] = attributesAll ts := by
  simp [attributesAll, familiesAll, families, h]

end Tree

open LiquidTemplate.Tree (attributesAll attributesAll_append attributesAll_cons attributesAll_node)

/-- The node of an attribute, with the nodes in its value. -/
def AttributeNode.family (a : AttributeNode) : Entry × List Entry :=
  (a.outline.value, a.outline.children.map Tree.value)

theorem ElementName.attributes_outline (name : ElementName) : attributesAll name.outline = [] := by
  cases name <;> rfl

theorem PartNode.attributes_map_outline (ps : List PartNode) :
    attributesAll (ps.map outline) = [] := by
  induction ps with
  | nil => rfl
  | cons p ps ih =>
    rw [List.map_cons, attributesAll_cons, ih]
    cases p <;> rfl

theorem AttributeNode.attributes_map_outline (as : List AttributeNode) :
    attributesAll (as.map outline) = as.map family := by
  induction as with
  | nil => rfl
  | cons a as ih =>
    rw [List.map_cons, attributesAll_cons, ih, List.map_cons]
    have hparts := PartNode.attributes_map_outline ((a.value.map ValueNode.parts).getD [])
    rw [attributesAll] at hparts
    simp only [attributesAll, outline, familiesAll, Tree.families, List.append_nil,
      List.filter_append, hparts]
    rfl

/-! ## Attributes of tokens -/

/-- The head of the lexeme, if there is one. -/
def Lexeme.head? : Lexeme → Option Head
  | startTag head | rawElement head _ _ _ => some head
  | _ => none

namespace Token

/-- The attributes of a token, each with the start of its name. -/
def attributesAt (t : Token) : List (Located Attribute) :=
  (t.item.head?.map (Head.attributesAt t.start)).getD []

/-- The nodes of the attributes of a token. -/
def attributeFamilies (t : Token) : List (Entry × List Entry) :=
  t.attributesAt.map fun a => (AttributeNode.ofAttribute a).family

theorem attributeFamilies_eq_nil {t : Token} {l : Lexeme} (ht : t.item = l) (hl : l.head? = none) :
    t.attributeFamilies = [] := by
  rw [attributeFamilies, attributesAt, ht, hl]
  rfl

theorem attributeFamilies_startTag {t : Token} {head : Head} (ht : t.item = .startTag head) :
    t.attributeFamilies =
      (head.attributesAt t.start).map fun a => (AttributeNode.ofAttribute a).family := by
  rw [attributeFamilies, attributesAt, ht]
  rfl

theorem attributes_parts (t : Token) :
    t.parts.attributes = t.attributesAt.map AttributeParts.ofAttribute := by
  obtain ⟨start, item⟩ := t
  cases item <;> rfl

theorem within_attributes {t : Token} {a : Located Attribute} (h : a ∈ t.attributesAt) :
    Within ⟨a.start, a.item.body⟩ t.located := by
  obtain ⟨start, item⟩ := t
  cases item with
  | startTag head => exact (Head.within_attributes h).1
  | rawElement head body closeName closeRest =>
    exact (Head.within_attributes h).1.trans
      (Lexeme.within_rawElement start head body closeName closeRest).1
  | _ => cases h

theorem attributes_ofHead (start : Nat) (head : Head) :
    attributesAll ((AttributeNode.ofHead start head).map AttributeNode.outline) =
      (head.attributesAt start).map fun a => (AttributeNode.ofAttribute a).family := by
  rw [AttributeNode.attributes_map_outline, AttributeNode.ofHead, List.map_map]
  rfl

/-- A token that is a node by itself has the attributes of the node. -/
theorem attributes_leaf {t : Token} {n : Node} (h : t.leafNode? = some n) :
    attributesAll [n.outline] = t.attributeFamilies := by
  obtain ⟨start, item⟩ := t
  cases item with
  | text value =>
    simp only [leafNode?, Node.ofText?, Option.ite_none_left_eq_some, Option.some.injEq] at h
    obtain ⟨-, rfl⟩ := h
    rfl
  | tag inner =>
    simp only [leafNode?, Option.ite_none_right_eq_some, Option.some.injEq] at h
    obtain ⟨-, rfl⟩ := h
    rfl
  | startTag head =>
    simp only [leafNode?] at h
    split at h
    · cases h
      exact (attributesAll_node rfl _).trans (attributes_ofHead start head)
    · split at h
      · cases h
        rw [Node.outline, attributesAll_node rfl, attributesAll_append,
          ElementName.attributes_outline, List.nil_append]
        exact attributes_ofHead start head
      · cases h
  | endTag _ _ => cases h
  | invalid _ _ => cases h
  | rawElement head body closeName closeRest =>
    cases h
    exact (attributesAll_node rfl _).trans (attributes_ofHead start head)
  | drop inner => cases h; rfl
  | comment body => cases h; rfl
  | doctype keyword raw => cases h; rfl
  | rawTag opening body closing => cases h; rfl

end Token

/-! ## Attributes of a document -/

namespace Nesting

mutual

theorem SequenceTree.attributes : ∀ {ts : List Token} {ns : List Node}, SequenceTree ts ns →
    attributesAll (Node.outlineAll ns) = ts.flatMap Token.attributeFamilies
  | _, _, .empty => rfl
  | _, _, .cons hi ht => by
    rw [Node.outlineAll_append, attributesAll_append, List.flatMap_append, hi.attributes,
      ht.attributes]

theorem ItemTree.attributes : ∀ {ts : List Token} {ns : List Node}, ItemTree ts ns →
    attributesAll (Node.outlineAll ns) = ts.flatMap Token.attributeFamilies
  | _, _, .blank ht _ => by
    rw [List.flatMap_singleton, Token.attributeFamilies_eq_nil ht rfl]
    rfl
  | _, _, .leaf hn => by
    rw [List.flatMap_singleton]
    exact Token.attributes_leaf hn
  | _, _, .element ht _ hus ht' _ => by
    rw [List.cons_append, List.flatMap_cons, List.flatMap_append, List.flatMap_singleton,
      Token.attributeFamilies_startTag ht, Token.attributeFamilies_eq_nil ht' rfl, List.append_nil,
      Node.outlineAll, Node.ofElement, Node.outline, Node.outlineAll, attributesAll_node rfl,
      attributesAll_append, attributesAll_append, ElementName.attributes_outline,
      Token.attributes_ofHead, hus.attributes, List.nil_append]
  | _, _, .block ht _ hbs ht' _ => by
    rw [List.cons_append, List.flatMap_cons, List.flatMap_append, List.flatMap_singleton,
      Token.attributeFamilies_eq_nil ht rfl, Token.attributeFamilies_eq_nil ht' rfl,
      List.append_nil, Node.outlineAll, Node.outline, Node.outlineAll, attributesAll_node rfl,
      hbs.attributes, List.nil_append]

theorem BranchTrees.attributes : ∀ {name : Text} {label : Option Tag} {start stop : Nat}
    {ts : List Token} {branches : List Branch}, BranchTrees name label start ts stop branches →
    attributesAll (Branch.outlineAll branches) = ts.flatMap Token.attributeFamilies
  | _, _, _, _, _, _, .last hus => by
    rw [Branch.outlineAll, Branch.outline, Branch.outlineAll, attributesAll_node rfl,
      hus.attributes]
  | _, _, _, _, _, _, .more hus ht _ hbs => by
    rw [Branch.outlineAll, Branch.outline, attributesAll_cons, attributesAll_node rfl,
      List.flatMap_append, List.flatMap_cons, Token.attributeFamilies_eq_nil ht rfl, hus.attributes,
      hbs.attributes, List.nil_append]

end

end Nesting

/-- The nodes of attributes in a document, each with the nodes in its value, are those of the
attributes of its tokens, in order. -/
theorem Document.map_family_attributes {source : Text} {d : Document} (h : parse source = .ok d) :
    (d.records.filter (·.entry.kind.isAttribute)).map (Record.family d.records) =
      ((Token.ofText source).flatMap Token.attributesAt).map fun a =>
        (AttributeNode.ofAttribute a).family := by
  obtain ⟨rfl, ht⟩ := parse_eq_ok_iff_sequenceTree.1 h
  have hfamilies : (d.records.map (Record.family d.records)).filter (·.1.kind.isAttribute) =
      attributesAll (Node.outlineAll d.children) := by
    rw [d.map_family_records.2]
    rfl
  rw [List.filter_map, ht.attributes] at hfamilies
  rw [List.map_flatMap]
  exact hfamilies

/-! ## Values of a document -/

/-- The nodes in a value stand where its pieces do. -/
theorem AttributeNode.filterMap_family {β : Type} (f : Span → β) (a : Located Attribute) :
    ((ofAttribute a).family.2.filterMap fun e =>
        if e.role = .part then some (f e.position) else none) =
      (((AttributeParts.ofAttribute a).value.map ValueParts.pieces).getD []).map
        fun p => f p.whole := by
  have hpiece (p : Located Piece) : (PartNode.ofPiece p).outline.value.role = .part ∧
      (PartNode.ofPiece p).outline.value.position = (PieceParts.ofPiece p).whole := by
    obtain ⟨start, piece⟩ := p
    cases piece <;> exact ⟨rfl, rfl⟩
  simp only [family, ofAttribute, outline, Tree.children, AttributeParts.ofAttribute]
  cases a.item.valueAt? a.start with
  | none => rfl
  | some v =>
    simp only [Option.map_some, Option.getD_some, ValueNode.ofValue, ValueParts.ofValue,
      List.map_map, List.filterMap_map]
    rw [← List.filterMap_eq_map]
    refine List.filterMap_congr fun p _ => ?_
    simp [(hpiece p).1, (hpiece p).2]

/-- What tiles a text without gaps covers it piece by piece. -/
theorem Tiled.exists_slices {source : Text} {start : Nat} {ss : List Span} {t : Text}
    (h : Tiled source (· = []) start ss t) :
    ∃ slices : List Text, ss.map (Text.slice? source) = slices.map some ∧ slices.flatten = t := by
  induction ss generalizing start t with
  | nil => exact ⟨[], rfl, Eq.symm h⟩
  | cons s ss ih =>
    obtain ⟨before, covered, rest, rfl, rfl, -, hslice, htiled⟩ := h
    obtain ⟨slices, hslices, rfl⟩ := ih htiled
    exact ⟨covered :: slices, by rw [List.map_cons, hslice, hslices, List.map_cons], rfl⟩

namespace Document

variable {d : Document} {r : Record}

/-- The record is the node of this attribute, and what the nodes in its value cover is, put
together, the value without its quotes. -/
def BuiltFrom (d : Document) (r : Record) (a : AttributeParts) : Prop :=
  r.entry.position = a.whole ∧
    (∃ name, Text.slice? d.source a.name = some name ∧
      r.entry.kind = .attr name (a.value.bind ValueParts.quote) a.value.isSome) ∧
    ∃ slices : List Text, r.valueParts.map d.slice? = slices.map some ∧
      match a.value with
      | none => slices = []
      | some v => Text.slice? d.source v.inner = some slices.flatten

theorem slice?_of_mem_held {c : Record} (h : c ∈ d.held r) :
    d.slice? c.id = Text.slice? d.source c.entry.position := by
  obtain ⟨id, -, hget⟩ := List.mem_filterMap.1 h
  rw [slice?, d.numbered_records.getElem?_id (List.mem_of_getElem? hget)]
  rfl

theorem builtFrom_of_family {a : Located Attribute}
    (hslots : (d.held r).map Record.slot = r.contents)
    (hfamily : Record.family d.records r = (AttributeNode.ofAttribute a).family)
    (hwithin : Within ⟨a.start, a.item.body⟩ ⟨0, d.source⟩)
    (hvalue : ∀ v ∈ (AttributeParts.ofAttribute a).value, v.SplitIn d.source) :
    d.BuiltFrom r (.ofAttribute a) := by
  obtain ⟨hentry, hheld⟩ := Prod.mk.inj hfamily
  refine ⟨by rw [hentry]; rfl, ⟨a.item.name, ?_, ?_⟩, ?_⟩
  · exact Located.within_iff_slice?.2 ⟨Attribute.within_name.trans hwithin, rfl⟩
  · rw [hentry]
    simp only [AttributeNode.outline, AttributeNode.ofAttribute, Tree.value,
      AttributeParts.ofAttribute]
    cases a.item.valueAt? a.start <;> rfl
  · have hslices : r.valueParts.map d.slice? = _ :=
      map_idsOf (f := fun e => Text.slice? d.source e.position) hslots
        (fun _ => slice?_of_mem_held) .part
    have hheld : (d.held r).map Record.entry = (AttributeNode.ofAttribute a).family.2 := hheld
    rw [hheld, AttributeNode.filterMap_family] at hslices
    rw [hslices]
    cases hv : (AttributeParts.ofAttribute a).value with
    | none => exact ⟨[], rfl, rfl⟩
    | some v =>
      obtain ⟨content, hinner, -, htiled⟩ := (hvalue v hv).tiled
      obtain ⟨slices, hpieces, rfl⟩ := htiled.exists_slices
      refine ⟨slices, ?_, hinner⟩
      rw [List.map_map] at hpieces
      exact hpieces

/-- **Values are split without loss.** Of the tokens from any offset on, each value is split into
pieces that are not empty and tile what stands between its quotes, with no two text pieces one
behind the other; a drop runs up to its first end, and in text nothing stops the value or begins a
drop but in Liquid tags of that piece. The attribute nodes of a document, in the order of their
numbers, are those of the attributes of its tokens, and what the nodes in the value of one cover is,
put together, the text of its value. -/
theorem values_verbatim (source : Text) :
    (∀ offset, ∀ t ∈ (Cursor.ofOffset source offset).tokens, ∀ a ∈ t.parts.attributes,
      ∀ v ∈ a.value, v.SplitIn source) ∧
    ∀ d, parse source = .ok d →
      List.Forall₂ d.BuiltFrom (d.records.filter (·.entry.kind.isAttribute))
        ((Token.ofText source).flatMap (·.parts.attributes)) := by
  refine ⟨fun offset t ht a ha v hv => (Cursor.stands_ofOffset source offset).splitIn ht ha hv,
    fun d h => ?_⟩
  have hfamilies := map_family_attributes h
  obtain ⟨hslots, -⟩ := d.map_family_records
  obtain ⟨rfl, -⟩ := parse_eq_ok_iff_sequenceTree.1 h
  rw [← List.forall₂_eq_eq_eq, List.forall₂_map_left_iff, List.forall₂_map_right_iff,
    List.forall₂_iff_zip] at hfamilies
  have hattributes : (Token.ofText d.source).flatMap (·.parts.attributes) =
      ((Token.ofText d.source).flatMap Token.attributesAt).map AttributeParts.ofAttribute := by
    rw [List.map_flatMap]
    exact List.flatMap_congr fun t _ => t.attributes_parts
  rw [hattributes, List.forall₂_map_right_iff, List.forall₂_iff_zip]
  refine ⟨hfamilies.1, fun {r a} hra => ?_⟩
  obtain ⟨hr, ha⟩ := List.of_mem_zip hra
  obtain ⟨t, ht, ha⟩ := List.mem_flatMap.1 ha
  have hc : Cursor.Stands d.source ⟨0, d.source⟩ := ⟨[], rfl, rfl⟩
  have hparts : AttributeParts.ofAttribute a ∈ t.parts.attributes := by
    rw [t.attributes_parts]
    exact List.mem_map_of_mem ha
  exact builtFrom_of_family (hslots r (List.mem_of_mem_filter hr)) (hfamilies.2 hra)
    ((Token.within_attributes ha).trans (hc.within ht)) fun v hv => hc.splitIn ht hparts hv

/-- A drop opening and a quote in a Liquid tag, and a drop with a quote of the other kind. -/
theorem values_verbatim_quotes :
    let source := "<a b='é\x7b% \x7b\x7b ' %\x7d\x7b\x7b \"'\" \x7d\x7dy' c></a>".toList
    let v : ValueParts := ⟨⟨5, 29⟩, some .single,
      [⟨false, ⟨6, 18⟩⟩, ⟨true, ⟨18, 27⟩⟩, ⟨false, ⟨27, 28⟩⟩]⟩
    v.SplitIn source ∧ ∃ d, parse source = .ok d ∧ ∃ r ∈ d.records, r.entry.position = ⟨3, 29⟩ ∧
      ∃ slices : List Text, r.valueParts.map d.slice? = slices.map some ∧
        slices.flatten = "é\x7b% \x7b\x7b ' %\x7d\x7b\x7b \"'\" \x7d\x7dy".toList := by
  intro source v
  obtain ⟨hsplit, hbuilt⟩ := values_verbatim source
  have hattributes : (Token.ofText source).flatMap (·.parts.attributes) =
      [⟨⟨3, 29⟩, ⟨3, 4⟩, some v⟩, ⟨⟨30, 31⟩, ⟨30, 31⟩, none⟩] := by decide +kernel
  refine ⟨?_, ?_⟩
  · obtain ⟨t, ht, ha⟩ := List.mem_flatMap.1 (hattributes ▸ List.mem_cons_self)
    exact hsplit 0 t ht _ ha v rfl
  · have haccepted : ((parse source).toOption.map fun d => d.source) = some source := by
      decide +kernel
    obtain ⟨d, hd, hsource⟩ := exists_of_map_parse haccepted
    have hall := hbuilt d hd
    rw [hattributes] at hall
    obtain ⟨r, rs, ⟨hposition, -, slices, hslices, hinner⟩, -, hr⟩ :=
      List.forall₂_cons_right_iff.1 hall
    have hmem : r ∈ d.records := List.mem_of_mem_filter (hr ▸ List.mem_cons_self)
    refine ⟨d, hd, r, hmem, hposition, slices, hslices, ?_⟩
    have hvalue : Text.slice? source v.inner =
        some "é\x7b% \x7b\x7b ' %\x7d\x7b\x7b \"'\" \x7d\x7dy".toList := by decide +kernel
    rw [hsource] at hinner
    exact Option.some.inj (hinner.symm.trans hvalue)

end Document

end LiquidTemplate
