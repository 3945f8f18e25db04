import LiquidTemplate.Proofs.Coverage.Induction
import LiquidTemplate.Proofs.Lexeme.Pairing
import LiquidTemplate.Proofs.Trim.Spelling

/-!
# Fields are what is written

What a leaf, a tag or a raw element keeps of its text is put together again from its fields: the
grammar says for each kind how its text is made up (`Entry.WrittenAs`), markers, names and blanks
included, and every node of a document covers a text that is made up like this
(`Document.fields_written`).
-/

namespace LiquidTemplate

open Cursor (Stands)
open Located (Within within_iff_slice?)
open Reader (stands_skip)
open LiquidTemplate.Tree (EverywhereAll everywhereAll_append)

/-! ## How nodes are written -/

/-- The text is this Liquid tag: its delimiters, and between them its markers, name and markup. -/
def Tag.Written (w : Text) (t : Tag) : Prop :=
  ∃ inner, w = ['{', '%'] ++ inner ++ ['%', '}'] ∧ Delimiter.tag.Closes inner ∧ t.Spells inner

/-- The text is the end tag of the block or raw tag `name`, with these markers. -/
def Tag.EndWritten (name : Text) (trims : Trims) (w : Text) : Prop :=
  ∃ t : Tag, t.Written w ∧ t.name = "end".toList ++ name ∧ t.trims = trims

/-- The entry is the node of this attribute. -/
structure Entry.IsAttribute (source : Text) (e : Entry) (a : AttributeParts) : Prop where
  role : e.role = .attr
  position : e.position = a.whole
  kind : ∃ name, Text.slice? source a.name = some name ∧
    e.kind = .attr name (a.value.bind ValueParts.quote) a.value.isSome

/-- How the text of a node is made up of its fields. Text among children has no blanks around it; a
raw element begins with a head of its name and with its attributes. -/
def Entry.WrittenAs (source : Text) (e : Entry) (held : List Entry) (w : Text) : Prop :=
  match e.kind with
  | .text value => w = value ∧ (e.role = .child → value ≠ [] ∧ value.Trimmed)
  | .comment body => w = ['<', '!', '-', '-'] ++ body ++ ['-', '-', '>']
  | .doctype value => value.Trimmed ∧ ∃ keyword before after,
    w = ['<', '!'] ++ keyword ++ before ++ value ++ after ++ ['>'] ∧
      Keyword.fold keyword = "doctype".toList ∧ Text.AllBlank before ∧ Text.AllBlank after
  | .drop markup => ∃ inner, w = ['{', '{'] ++ inner ++ ['}', '}'] ∧
    Delimiter.drop.Closes inner ∧ markup.Spells inner
  | .tag tag => tag.Written w
  | .rawTag tag body closing => ∃ opening ending, w = opening ++ body ++ ending ∧
    tag.Written opening ∧ Tag.EndWritten tag.name closing ending
  | .block tag closing => ∃ opening inside ending, w = opening ++ inside ++ ending ∧
    tag.Written opening ∧ Tag.EndWritten tag.name closing ending
  | .rawElement name body => ∃ head written gap, ∃ parts : HeadParts,
    w = head ++ body ++ ['<', '/'] ++ written ++ gap ++ ['>'] ∧
      Keyword.fold written = Keyword.fold name ∧ parts.whole = .ofText e.position.start head ∧
        parts.DerivedIn source ∧ Text.slice? source parts.name.whole = some name ∧
          List.Forall₂ (Entry.IsAttribute source) held parts.attributes
  | _ => True

/-- What the node covers is made up of its fields. -/
def Entry.Written (source : Text) (e : Entry) (held : List Entry) : Prop :=
  ∀ w, Text.slice? source e.position = some w → e.WrittenAs source held w

section

variable {source : Text} {e : Entry} {held : List Entry}

theorem Entry.written_of_slice? {w : Text} (h : Text.slice? source e.position = some w)
    (hw : e.WrittenAs source held w) : e.Written source held := by
  intro w' hw'
  obtain rfl := Option.some.inj (h.symm.trans hw')
  exact hw

theorem Entry.written_of_within {w : Text} (h : Within ⟨e.position.start, w⟩ ⟨0, source⟩)
    (hstop : e.position.stop = e.position.start + Text.size w) (hw : e.WrittenAs source held w) :
    e.Written source held :=
  written_of_slice? (within_iff_slice?.2 ⟨h, hstop⟩) hw

/-! ## Tags -/

namespace Tag

variable {inner name : Text}

theorem written_enclose (h : Delimiter.tag.Closes inner) :
    (ofInner inner).Written (Delimiter.tag.enclose inner) :=
  ⟨inner, rfl, h, ofInner_eq_iff.1 rfl⟩

theorem endWritten_enclose (h : Delimiter.tag.Closes inner)
    (hname : (ofInner inner).name = Keyword.endTag name) :
    EndWritten name (ofInner inner).trims (Delimiter.tag.enclose inner) :=
  ⟨ofInner inner, written_enclose h, hname, rfl⟩

end Tag

/-! ## Nodes in a head -/

/-- A drop, wherever it stands. -/
theorem DropNode.written_outline {start : Nat} {inner : Text} (role : Role)
    (h : Delimiter.drop.Closes inner)
    (hwithin : Within ⟨start, Delimiter.drop.enclose inner⟩ ⟨0, source⟩) :
    ((ofInner start inner).outline role).Everywhere (Entry.Written source) :=
  ⟨Entry.written_of_within hwithin rfl ⟨inner, rfl, h, Markup.ofInner_eq_iff.1 rfl⟩, trivial⟩

theorem PartNode.written_ofPiece {p : Located Piece} (h : p.item.Closed)
    (hwithin : Within ⟨p.start, p.item.chars⟩ ⟨0, source⟩) :
    (ofPiece p).outline.Everywhere (Entry.Written source) := by
  obtain ⟨start, piece⟩ := p
  cases piece with
  | text value => exact ⟨Entry.written_of_within hwithin rfl ⟨rfl, nofun⟩, trivial⟩
  | drop inner => exact DropNode.written_outline .part h hwithin

theorem AttributeNode.written_ofAttribute {a : Located Attribute} (h : a.item.Closed)
    (hwithin : Within ⟨a.start, a.item.body⟩ ⟨0, source⟩) :
    (ofAttribute a).outline.Everywhere (Entry.Written source) := by
  refine Tree.everywhere_iff.2 ⟨fun _ _ => trivial, ?_⟩
  simp only [outline, Tree.children, ofAttribute]
  cases hv : a.item.valueAt? a.start with
  | none => trivial
  | some v =>
    have hvalue := (Attribute.within_value hv).trans hwithin
    obtain ⟨s, hs, rfl⟩ := Option.map_eq_some_iff.1 hv
    simp only [Option.map_some, Option.getD_some, ValueNode.ofValue, List.map_map]
    refine Tree.everywhereAll_iff.2 (List.forall_mem_map.2 fun p hp => ?_)
    obtain ⟨hpiece, hmem⟩ := Value.within_pieces hp
    exact PartNode.written_ofPiece (h s hs p.item hmem) (hpiece.trans hvalue)

theorem Head.written_outline {start : Nat} {head : Head} (h : head.Closed)
    (hwithin : Within ⟨start, head.chars⟩ ⟨0, source⟩) :
    EverywhereAll (Entry.Written source) (head.outline start) := by
  refine everywhereAll_append.2 ⟨?_, Tree.everywhereAll_iff.2 ?_⟩
  · have hname := Head.within_name.trans hwithin
    have hclosed := h.1
    unfold ElementName.ofHead
    cases hn : head.name with
    | fixed name => trivial
    | dynamic inner =>
      rw [hn] at hname hclosed
      exact ⟨DropNode.written_outline .name hclosed hname, trivial⟩
  · rw [AttributeNode.ofHead, List.map_map]
    refine List.forall_mem_map.2 fun a ha => ?_
    obtain ⟨hbody, hmem⟩ := Head.within_attributes ha
    exact AttributeNode.written_ofAttribute (h.2 a.item hmem) (hbody.trans hwithin)

/-! ## Nodes of tokens -/

theorem AttributeNode.isAttribute_ofAttribute {a : Located Attribute}
    (h : Within ⟨a.start, a.item.body⟩ ⟨0, source⟩) :
    (ofAttribute a).outline.value.IsAttribute source (.ofAttribute a) := by
  refine ⟨rfl, rfl, a.item.name, within_iff_slice?.2 ⟨Attribute.within_name.trans h, rfl⟩, ?_⟩
  simp only [outline, ofAttribute, Tree.value, AttributeParts.ofAttribute]
  cases a.item.valueAt? a.start <;> rfl

/-- A raw element is its head, its body and its end tag. -/
theorem Token.writtenAs_rawElement {start : Nat} {head : Head} {body closeName closeRest : Text}
    (ht : ⟨start, .rawElement head body closeName closeRest⟩ ∈ ofText source) :
    (⟨.child, .rawElement head.name.chars body,
        .ofText start (Lexeme.rawElement head body closeName closeRest).chars⟩ : Entry).WrittenAs
      source (((AttributeNode.ofHead start head).map AttributeNode.outline).map Tree.value)
      (Lexeme.rawElement head body closeName closeRest).chars := by
  have hc : Stands source ⟨0, source⟩ := ⟨[], rfl, rfl⟩
  obtain ⟨before, rest, hs, hstart, hn⟩ := Cursor.next?_of_mem_tokens hc ht
  obtain ⟨hhead, name, hraw, he⟩ := (Lexeme.next?_chars_iff rfl).1 hn
  have hfold := (Raw.isLeast_of_readElement? [] he).2.1
  have hwithin := (Lexeme.within_rawElement start head body closeName closeRest).1.trans
    (hc.within ht)
  have hstands : Stands source
      ⟨start, head.chars ++ (body ++ (Lexeme.closeChars closeName closeRest ++ rest))⟩ :=
    ⟨before, by rw [hs]; simp [Lexeme.chars, Lexeme.closeChars], hstart⟩
  refine ⟨head.chars, closeName, closeRest, .ofHead start head, rfl, ?_, rfl,
    HeadParts.derivedIn_ofHead hstands hhead,
    within_iff_slice?.2 ⟨Head.within_name.trans hwithin, rfl⟩, ?_⟩
  · rw [(Head.isRawElement_of_rawName? hraw).1]
    exact hfold
  · rw [AttributeNode.ofHead, List.map_map, List.map_map, HeadParts.ofHead,
      List.forall₂_map_left_iff, List.forall₂_map_right_iff, List.forall₂_same]
    intro a ha
    exact AttributeNode.isAttribute_ofAttribute ((Head.within_attributes ha).1.trans hwithin)

theorem Token.written_leaf {t : Token} {n : Node} (h : t.leafNode? = some n)
    (ht : t ∈ ofText source) :
    n.outline.value.Written source (n.outline.children.map Tree.value) := by
  have hc : Stands source ⟨0, source⟩ := ⟨[], rfl, rfl⟩
  have hslice := Cursor.slice?_span hc ht
  have hread := read_of_mem_ofText ht
  have hwithin := hc.within ht
  cases isLeaf_of_leafNode? h with
  | text hne =>
    exact Entry.written_of_within ((Text.within_trim _ _).trans hwithin) rfl
      ⟨rfl, fun _ => ⟨hne, Text.trimmed_trim _⟩⟩
  | drop =>
    obtain ⟨rest, hcloses⟩ := hread rfl
    exact (DropNode.written_outline .child hcloses hwithin).1
  | tag =>
    obtain ⟨rest, hcloses, -⟩ := hread rfl
    exact Entry.written_of_slice? hslice (Tag.written_enclose hcloses)
  | voidElement => exact fun _ _ => trivial
  | selfClosingElement => exact fun _ _ => trivial
  | comment => exact Entry.written_of_slice? hslice rfl
  | @doctype start keyword raw =>
    obtain ⟨rest, hfold, -⟩ := hread rfl
    refine Entry.written_of_slice? hslice ⟨Text.trimmed_trim raw, keyword, Text.leadingBlanks raw,
      Text.trailingBlanks raw, ?_, hfold, Text.allBlank_leadingBlanks raw,
      Text.allBlank_trailingBlanks raw⟩
    have hraw := Text.trim_append raw
    rw [List.append_assoc] at hraw
    simp [Lexeme.chars, hraw]
  | rawElement => exact Entry.written_of_slice? hslice (writtenAs_rawElement ht)
  | rawTag =>
    obtain ⟨rest, hcloses, -, htag⟩ := hread rfl
    obtain ⟨-, -, hcloses', hname, -⟩ := Raw.paired_of_readTag? htag
    exact Entry.written_of_slice? hslice ⟨_, _, rfl, Tag.written_enclose hcloses,
      Tag.endWritten_enclose hcloses' hname⟩

/-! ## Nodes of a document -/

/-- A run of the tokens of a template stands behind the text of those in front of it. -/
theorem Token.exists_stand_of_infix {ts : List Token} (h : ts <:+: ofText source) :
    ∃ front, Stand source front ts := by
  obtain ⟨pre, post, hts⟩ := h
  have hstand := stand_ofText source
  rw [← hts] at hstand
  exact ⟨_, hstand.of_append.1.of_append.2⟩

theorem Nesting.holdsOfItems_written (source : Text) :
    HoldsOfItems (Token.ofText source) (Entry.Written source) := by
  refine ⟨?_, ?_, fun _ _ _ _ _ _ => trivial⟩
  · intro us n hus hi
    generalize hns : [n] = ns at hi
    cases hi with
    | blank => cases hns
    | leaf hn =>
      obtain rfl := List.singleton_inj.1 hns
      exact Token.written_leaf hn (hus.subset List.mem_cons_self)
    | element =>
      obtain rfl := List.singleton_inj.1 hns
      exact fun _ _ => trivial
    | @block t t' inner inner' ts branches ht hrole hbs ht' hrole' =>
      obtain rfl := List.singleton_inj.1 hns
      obtain ⟨front, hstand⟩ := Token.exists_stand_of_infix hus
      have hread := Token.read_of_mem_ofText (hus.subset (List.mem_cons_self (a := t)))
      have hread' := Token.read_of_mem_ofText (hus.subset
        (List.mem_append_right (t :: ts) (List.mem_singleton_self t')))
      have hslice := hstand.slice?_enclosed
      rw [ht] at hread hslice
      rw [ht'] at hread' hslice
      obtain ⟨-, hcloses, -⟩ := hread rfl
      obtain ⟨-, hcloses', -⟩ := hread' rfl
      exact Entry.written_of_slice? hslice ⟨_, _, _, rfl, Tag.written_enclose hcloses,
        Tag.endWritten_enclose hcloses' (Keyword.eq_endTag_of_roleOf hrole')⟩
  · intro t ht head hhead
    obtain ⟨hwithin, hclosed⟩ := Token.placed_of_mem_ofText ht
    obtain ⟨start, item⟩ := t
    cases item with
    | startTag head' =>
      cases hhead
      exact Head.written_outline hclosed hwithin
    | rawElement head' body closeName closeRest =>
      cases hhead
      exact Head.written_outline hclosed
        ((Lexeme.within_rawElement start head body closeName closeRest).1.trans hwithin)
    | _ => cases hhead

end

/-- **Fields are what is written.** Every node of a document covers a part of the template, and that
part is made up of the fields of the node as the grammar of its kind says: text is its value, and
comments, doctypes, drops, tags, raw tags, blocks and raw elements are their delimiters with the
markers, names, blanks, markup and bodies between them. -/
theorem Document.fields_written {source : Text} {d : Document} (h : parse source = .ok d) :
    ∀ r ∈ d.records, (d.held r).map Record.slot = r.contents ∧
      ∃ w, Text.slice? source r.entry.position = some w ∧
        r.entry.WrittenAs source ((d.held r).map Record.entry) w := by
  have hrecords := forall_records h (fun _ _ => trivial) (Nesting.holdsOfItems_written source)
  intro r hr
  obtain ⟨hslots, hwritten⟩ := hrecords r hr
  obtain ⟨w, hwithin, hstop, -⟩ := covers_of_parse h r hr
  have hslice := within_iff_slice?.2 ⟨hwithin, hstop⟩
  exact ⟨hslots, w, hslice, hwritten w hslice⟩

/-- A drop that is a marker only, a tag between markers whose markup is one more `-`, and a raw
element with its end tag in lower case. -/
theorem Document.fields_written_markers :
    let source := "{{-}}\x7b%---%\x7d<STYLE a>b</style\t>".toList
    ∃ d, parse source = .ok d ∧
      (∃ r ∈ d.records, r.entry.kind = .drop ⟨⟨.trim, .keep⟩, []⟩ ∧ ∃ inner,
        Text.slice? source r.entry.position = some (['{', '{'] ++ inner ++ ['}', '}']) ∧
          Markup.Spells inner ⟨⟨.trim, .keep⟩, []⟩) ∧
      (∃ r ∈ d.records, ∃ w, Text.slice? source r.entry.position = some w ∧
        Tag.Written w ⟨[], ['-'], ⟨.trim, .trim⟩⟩) ∧
      ∃ r ∈ d.records, ∃ head written gap, Keyword.fold written = "style".toList ∧
        Text.slice? source r.entry.position =
          some (head ++ ['b'] ++ ['<', '/'] ++ written ++ gap ++ ['>']) := by
  intro source
  have hcomputed : (parse source).toOption.map (fun d => d.records.map fun r => r.entry.kind) =
      some [.document, .drop ⟨⟨.trim, .keep⟩, []⟩, .tag ⟨[], ['-'], ⟨.trim, .trim⟩⟩,
        .attr ['a'] none false, .rawElement "STYLE".toList ['b']] := by
    decide +kernel
  obtain ⟨d, h, hkinds⟩ := exists_of_map_parse hcomputed
  have hfind (k : Kind) (hk : k ∈ d.records.map fun r => r.entry.kind) :
      ∃ r ∈ d.records, r.entry.kind = k ∧ ∃ w, Text.slice? source r.entry.position = some w ∧
        r.entry.WrittenAs source ((d.held r).map Record.entry) w := by
    obtain ⟨r, hr, rfl⟩ := List.mem_map.1 hk
    exact ⟨r, hr, rfl, (fields_written h r hr).2⟩
  obtain ⟨drop, hdrop, hk, w, hw, hwritten⟩ :=
    hfind (.drop ⟨⟨.trim, .keep⟩, []⟩) (by rw [hkinds]; decide)
  obtain ⟨tag, htag, hk', w', hw', hwritten'⟩ :=
    hfind (.tag ⟨[], ['-'], ⟨.trim, .trim⟩⟩) (by rw [hkinds]; decide)
  obtain ⟨raw, hraw, hk'', w'', hw'', hwritten''⟩ :=
    hfind (.rawElement "STYLE".toList ['b']) (by rw [hkinds]; decide)
  simp only [Entry.WrittenAs, hk] at hwritten
  simp only [Entry.WrittenAs, hk'] at hwritten'
  simp only [Entry.WrittenAs, hk''] at hwritten''
  obtain ⟨inner, rfl, -, hspells⟩ := hwritten
  obtain ⟨head, written, gap, parts, rfl, hfold, -⟩ := hwritten''
  exact ⟨d, h, ⟨drop, hdrop, hk, inner, hw, hspells⟩, ⟨tag, htag, w', hw', hwritten'⟩,
    raw, hraw, head, written, gap, hfold, hw''⟩

end LiquidTemplate
