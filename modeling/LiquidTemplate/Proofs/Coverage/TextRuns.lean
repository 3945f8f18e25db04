import LiquidTemplate.Proofs.Arena.Contents
import LiquidTemplate.Proofs.Coverage.Induction

/-!
# Text is not split

No construct begins in a run of text, and the run goes on up to the next construct, so two runs are
never neighbours. Every other token leaves a node behind or moves to another container; so in a
document no two text nodes are neighbours, among children or in a value
(`Cursor.text_runs_maximal`).
-/

namespace LiquidTemplate

open Cursor (Stands)
open Reader (stands_skip)
open LiquidTemplate.Tree (EverywhereAll)

/-! ## Runs of text -/

namespace Lexeme

def isText : Lexeme → Bool
  | text _ => true
  | _ => false

/-- Behind a run of text the template ends or a construct begins, and no run does. -/
theorem isChain_ofText (t : Text) :
    (ofText t).IsChain fun l m => ¬ (l.isText = true ∧ m.isText = true) := by
  generalize hls : ofText t = ls
  induction ls generalizing t with
  | nil => exact .nil
  | cons l ls ih =>
    obtain ⟨rest, hn, hrest⟩ := ofText_eq_cons hls
    refine List.isChain_cons.2 ⟨?_, ih rest hrest⟩
    rintro m hm ⟨hl, hm'⟩
    obtain ⟨ls, rfl⟩ : ∃ more, ls = m :: more := List.head?_eq_some_iff.1 hm
    obtain ⟨rest', hn', -⟩ := ofText_eq_cons hrest
    cases l with
    | text v =>
      cases m with
      | text w =>
        obtain ⟨-, -, hend, -⟩ := next?_text_iff.1 hn
        obtain ⟨hw, rfl, -, hfail⟩ := next?_text_iff.1 hn'
        rcases hend with hnil | hstarts
        · exact hw (List.append_eq_nil_iff.1 hnil).1
        · rw [hfail [] w rfl hw] at hstarts
          cases hstarts
      | _ => cases hm'
    | _ => cases hl

end Lexeme

theorem Token.parts_eq_text_iff {t : Token} : t.parts = .text ↔ ∃ v, t.item = .text v := by
  obtain ⟨start, item⟩ := t
  cases item <;> simp [parts]

theorem Token.isText_iff {t : Token} : t.item.isText = true ↔ t.parts = .text := by
  obtain ⟨start, item⟩ := t
  cases item <;> simp [parts, Lexeme.isText]

/-- No construct begins in the span, and where it stops the template does or one begins. -/
structure Span.IsTextRun (source : Text) (s : Span) : Prop where
  pure : ∀ n rest, s.start ≤ n → n < s.stop → Stands source ⟨n, rest⟩ →
    Lexeme.startsConstruct rest = false
  maximal : s.stop = Text.size source ∨
    ∃ rest, Stands source ⟨s.stop, rest⟩ ∧ Lexeme.startsConstruct rest = true

theorem Cursor.Stands.isTextRun {source : Text} {c : Cursor} {t : Token} (hc : c.Stands source)
    (ht : t ∈ c.tokens) (hp : t.parts = .text) : t.span.IsTextRun source := by
  obtain ⟨v, hv⟩ := Token.parts_eq_text_iff.1 hp
  obtain ⟨before, rest, hs, hstart, hn⟩ := next?_of_mem_tokens hc ht
  have hstands : Stands source ⟨t.start, v ++ rest⟩ := ⟨before, by rw [hs, hv]; rfl, hstart⟩
  have hstop : t.span.stop = t.start + Text.size v := by
    rw [Token.span, Token.stop_eq, hv]
    rfl
  rw [hv] at hn
  obtain ⟨-, -, hend, hfail⟩ := Lexeme.next?_text_iff.1 hn
  constructor
  · intro n more hle hlt hmore
    obtain ⟨p, hp, rfl⟩ := hstands.between hmore hle
    have hlt : t.start + Text.size p < t.start + Text.size v := hstop ▸ hlt
    rcases List.append_eq_append_iff.1 hp with ⟨q, rfl, hq⟩ | ⟨q, rfl, hq⟩
    · rw [Text.size_append] at hlt
      omega
    · have hne : q ≠ [] := by
        rintro rfl
        rw [List.append_nil] at hlt
        exact Nat.lt_irrefl _ hlt
      rw [hq]
      exact hfail p q rfl hne
  · have hrest := stands_skip hstands
    rcases hend with rfl | hstarts
    · refine .inl ?_
      obtain ⟨before', hs', hsize⟩ := hrest
      rw [hstop, hs', List.append_nil]
      exact hsize.symm
    · exact .inr ⟨rest, hstop.symm ▸ hrest, hstarts⟩

/-- Two runs of text are never neighbours. -/
theorem Token.isChain_ofTextAt (start : Nat) (t : Text) :
    (ofTextAt start t).IsChain fun t u => ¬ (t.item.isText = true ∧ u.item.isText = true) := by
  have hchain := Lexeme.isChain_ofText t
  rwa [← map_item_ofTextAt start t, List.isChain_map] at hchain

/-! ## Text nodes -/

namespace Kind

def isText : Kind → Bool
  | text _ => true
  | _ => false

/-- Not both are text. -/
def Apart (k l : Kind) : Prop := ¬ (k.isText = true ∧ l.isText = true)

theorem isChain_cons_of_not_isText {k : Kind} {ks : List Kind} (hk : k.isText = false)
    (hks : ks.IsChain Apart) : (k :: ks).IsChain Apart := by
  refine List.isChain_cons.2 ⟨fun l _ hboth => ?_, hks⟩
  rw [hk] at hboth
  cases hboth.1

theorem isChain_of_not_isText {ks : List Kind} (h : ∀ k ∈ ks, k.isText = false) :
    ks.IsChain Apart := by
  induction ks with
  | nil => exact .nil
  | cons k ks ih =>
    rw [List.forall_mem_cons] at h
    exact isChain_cons_of_not_isText h.1 (ih h.2)

end Kind

/-- No two text nodes are neighbours, among the children of a node or in the value of one. -/
def Entry.TextsApart (_ : Entry) (held : List Entry) : Prop :=
  (kindsAs .child held).IsChain Kind.Apart ∧ (kindsAs .part held).IsChain Kind.Apart

theorem Entry.kindsAs_eq_nil {role : Role} {held : List Entry} (h : ∀ e ∈ held, e.role ≠ role) :
    kindsAs role held = [] :=
  List.filterMap_eq_nil_iff.2 fun e he => if_neg (h e he)

/-- The kinds of these nodes. -/
def Node.kinds (ns : List Node) : List Kind := ((Node.outlineAll ns).map Tree.value).map Entry.kind

namespace Node

theorem role_outlineAll (ns : List Node) :
    ∀ e ∈ (Node.outlineAll ns).map Tree.value, e.role = .child := by
  rw [outlineAll_eq_map, List.map_map]
  exact List.forall_mem_map.2 fun n _ => n.role_outline

theorem kinds_append (ns ms : List Node) : kinds (ns ++ ms) = kinds ns ++ kinds ms := by
  simp [kinds, Node.outlineAll_append]

end Node

/-- What a head holds is a name and attributes. -/
theorem Head.role_outline {start : Nat} {head : Head} :
    ∀ e ∈ (head.outline start).map Tree.value, e.role = .name ∨ e.role = .attr := by
  rw [outline, List.map_append, List.forall_mem_append]
  constructor
  · unfold ElementName.ofHead
    cases head.name with
    | fixed name => exact List.forall_mem_nil _
    | dynamic inner => exact List.forall_mem_singleton.2 (.inl rfl)
  · rw [List.map_map]
    exact List.forall_mem_map.2 fun a _ => .inr rfl

/-- A node that holds these nodes behind what its head holds. -/
theorem Entry.textsApart_of_nodes {e : Entry} {inHead : List Entry} {ns : List Node}
    (hhead : ∀ e ∈ inHead, e.role = .name ∨ e.role = .attr)
    (hns : (Node.kinds ns).IsChain Kind.Apart) :
    e.TextsApart (inHead ++ (Node.outlineAll ns).map Tree.value) := by
  have hnone (role : Role) (hname : role ≠ .name) (hattr : role ≠ .attr) :
      kindsAs role inHead = [] :=
    kindsAs_eq_nil fun e he hrole => (hhead e he).elim (fun h => hname (hrole.symm.trans h))
      fun h => hattr (hrole.symm.trans h)
  have hnodes := kindsAs_of_role (Node.role_outlineAll ns)
  rw [TextsApart, kindsAs_append, kindsAs_append, hnone .child nofun nofun,
    hnone .part nofun nofun, hnodes, hnodes]
  exact ⟨hns, .nil⟩

theorem Branch.role_outlineAll (bs : List Branch) :
    ∀ e ∈ (Branch.outlineAll bs).map Tree.value, e.role = .child ∧ e.kind.isText = false := by
  rw [outlineAll_eq_map, List.map_map]
  refine List.forall_mem_map.2 fun b _ => ⟨b.role_outline, ?_⟩
  cases b
  rfl

/-- A block holds no text nodes but in its branches. -/
theorem Entry.textsApart_of_branches {e : Entry} {bs : List Branch} :
    e.TextsApart ((Branch.outlineAll bs).map Tree.value) := by
  have hbranches := Branch.role_outlineAll bs
  have hkinds := kindsAs_of_role fun e he => (hbranches e he).1
  rw [TextsApart, hkinds, hkinds]
  exact ⟨Kind.isChain_of_not_isText (List.forall_mem_map.2 fun e he => (hbranches e he).2), .nil⟩

namespace Nesting

/-- An item is a run of text, or it has a node that is no text. -/
theorem ItemTree.isText_or {ts : List Token} {ns : List Node} (h : ItemTree ts ns) :
    (∃ t, ts = [t] ∧ t.item.isText = true ∧ (Node.kinds ns).length ≤ 1) ∨
      ∃ k, Node.kinds ns = [k] ∧ k.isText = false := by
  cases h with
  | @blank t v ht hv => exact .inl ⟨t, rfl, by rw [ht]; rfl, Nat.zero_le 1⟩
  | @leaf t n hn =>
    cases Token.isLeaf_of_leafNode? hn with
    | text => exact .inl ⟨_, rfl, rfl, Nat.le_refl 1⟩
    | _ => exact .inr ⟨_, rfl, rfl⟩
  | element => exact .inr ⟨_, rfl, rfl⟩
  | block => exact .inr ⟨_, rfl, rfl⟩

/-- Between two runs of text there is an item with a node, so two text nodes are never neighbours;
and the first node is text only if the first token is. -/
theorem SequenceTree.apart : ∀ {ts : List Token} {ns : List Node}, SequenceTree ts ns →
    (ts.IsChain fun t u => ¬ (t.item.isText = true ∧ u.item.isText = true)) →
    (Node.kinds ns).IsChain Kind.Apart ∧
      ∀ k ∈ (Node.kinds ns).head?, k.isText = true → ∃ t ∈ ts.head?, t.item.isText = true
  | _, _, .empty, _ => ⟨.nil, nofun⟩
  | _, _, @cons ts us ns ms hi ht, hts => by
    obtain ⟨hms, hhead⟩ := ht.apart hts.right_of_append
    rw [Node.kinds_append]
    rcases hi.isText_or with ⟨t, rfl, htext, hlength⟩ | ⟨k, hk, hnot⟩
    · have hrest : ∀ k ∈ (Node.kinds ms).head?, k.isText = false := by
        intro k hk
        by_contra hktext
        obtain ⟨u, hu, hutext⟩ := hhead k hk (by simpa using hktext)
        exact (List.isChain_cons.1 hts).1 u hu ⟨htext, hutext⟩
      refine ⟨?_, fun _ _ _ => ⟨t, rfl, htext⟩⟩
      match Node.kinds ns, hlength with
      | [], _ => exact hms
      | [k], _ =>
        refine List.isChain_cons.2 ⟨fun l hl hboth => ?_, hms⟩
        rw [hrest l hl] at hboth
        cases hboth.2
    · rw [hk]
      refine ⟨Kind.isChain_cons_of_not_isText hnot hms, fun l hl hltext => ?_⟩
      obtain rfl := Option.some.inj hl
      rw [hnot] at hltext
      cases hltext

end Nesting

/-! ## Text in values -/

/-- The parts of a value are its pieces, of which no two neighbours are text. -/
theorem AttributeNode.textsApart_ofAttribute {source : Text} {a : Located Attribute}
    (h : ∀ v ∈ (AttributeParts.ofAttribute a).value, v.SplitIn source) :
    (ofAttribute a).outline.Everywhere Entry.TextsApart := by
  let parts := ((ofAttribute a).value.map ValueNode.parts).getD []
  have hleaf (p : PartNode) :
      p.outline.Everywhere Entry.TextsApart ∧ p.outline.value.role = .part := by
    cases p <;> exact ⟨⟨⟨.nil, .nil⟩, trivial⟩, rfl⟩
  have hroles : ∀ e ∈ (parts.map PartNode.outline).map Tree.value, e.role = .part := by
    rw [List.map_map]
    exact List.forall_mem_map.2 fun p _ => (hleaf p).2
  have hkinds : ((parts.map PartNode.outline).map Tree.value |>.map Entry.kind).IsChain
      Kind.Apart := by
    have hpiece (p : Located Piece) :
        (PartNode.ofPiece p).outline.value.kind.isText = !(PieceParts.ofPiece p).isDrop := by
      obtain ⟨start, piece⟩ := p
      cases piece <;> rfl
    simp only [AttributeParts.ofAttribute] at h
    simp only [parts, ofAttribute]
    cases hv : a.item.valueAt? a.start with
    | none => exact .nil
    | some v =>
      have halternate := (h (.ofValue v) (by rw [hv]; rfl)).alternate
      simp only [ValueParts.ofValue, List.isChain_map] at halternate
      simp only [Option.map_some, Option.getD_some, ValueNode.ofValue, List.isChain_map]
      refine halternate.imp fun p q hpq => ?_
      rintro ⟨hp, hq⟩
      rw [hpiece] at hp hq
      rcases hpq with h | h
      · rw [h] at hp
        cases hp
      · rw [h] at hq
        cases hq
  have hparts := Entry.kindsAs_of_role hroles
  refine Tree.everywhere_iff.2 ⟨?_, Tree.everywhereAll_iff.2 (List.forall_mem_map.2
    fun p _ => (hleaf p).1)⟩
  change Entry.TextsApart _ ((parts.map PartNode.outline).map Tree.value)
  rw [Entry.TextsApart, hparts, hparts]
  exact ⟨.nil, hkinds⟩

theorem Head.textsApart_outline {source : Text} {start : Nat} {head : Head}
    (h : ∀ a ∈ head.attributesAt start, ∀ v ∈ (AttributeParts.ofAttribute a).value,
      v.SplitIn source) :
    EverywhereAll Entry.TextsApart (head.outline start) := by
  refine Tree.everywhereAll_append.2 ⟨?_, Tree.everywhereAll_iff.2 ?_⟩
  · unfold ElementName.ofHead
    cases head.name with
    | fixed name => trivial
    | dynamic inner => exact ⟨⟨⟨.nil, .nil⟩, trivial⟩, trivial⟩
  · rw [AttributeNode.ofHead, List.map_map]
    exact List.forall_mem_map.2 fun a ha => AttributeNode.textsApart_ofAttribute (h a ha)

/-! ## Text in a document -/

namespace Nesting

theorem holdsOfItems_textsApart (source : Text) :
    HoldsOfItems (Token.ofText source) Entry.TextsApart := by
  have hchain := Token.isChain_ofTextAt 0 source
  refine ⟨?_, ?_, ?_⟩
  · intro us n hus hi
    generalize hns : [n] = ns at hi
    cases hi with
    | blank => cases hns
    | leaf hn =>
      obtain rfl := List.singleton_inj.1 hns
      have hroles : ∀ e ∈ n.outline.children.map Tree.value, e.role = .name ∨ e.role = .attr := by
        rcases Token.children_leaf hn with hnil | ⟨head, -, hsuffix⟩
        · rw [hnil]
          exact List.forall_mem_nil _
        · exact fun e he => Head.role_outline e ((hsuffix.map Tree.value).subset he)
      have h := @Entry.textsApart_of_nodes n.outline.value _ [] hroles .nil
      rwa [Node.outlineAll, List.map_nil, List.append_nil] at h
    | @element t t' head name gap ts ns' ht ho hus' ht' hk =>
      obtain rfl := List.singleton_inj.1 hns
      have hchain' := List.IsChain.infix hchain ((List.infix_append [t] ts [t']).trans hus)
      have h := Entry.textsApart_of_nodes
        (e := (Node.ofElement t.start head ns' t'.stop).outline.value)
        (@Head.role_outline t.start head) (hus'.apart hchain').1
      rw [← List.map_append] at h
      exact h
    | block =>
      obtain rfl := List.singleton_inj.1 hns
      exact Entry.textsApart_of_branches
  · intro t ht head hhead
    refine @Head.textsApart_outline source _ _ fun a ha v hv => ?_
    have hc : Stands source ⟨0, source⟩ := ⟨[], rfl, rfl⟩
    refine hc.splitIn ht (a := .ofAttribute a) ?_ hv
    rw [t.attributes_parts]
    refine List.mem_map_of_mem ?_
    rw [Token.attributesAt, Option.mem_def.1 hhead]
    exact ha
  · intro us ns label position hus hts
    have hchain' := List.IsChain.infix hchain hus
    exact Entry.textsApart_of_nodes (List.forall_mem_nil _) (hts.apart hchain').1

end Nesting

/-- **Text is maximal and pure.** Of the tokens from any offset on, a text token has no place in it
where a construct begins, it runs up to a place where one does or to the end of the template, and no
two of them are neighbours. In a document no two text nodes are neighbours, neither among the
children of a node nor in the value of an attribute. -/
theorem Cursor.text_runs_maximal (source : Text) :
    (∀ offset, (∀ t ∈ (ofOffset source offset).tokens, t.parts = .text →
        t.span.IsTextRun source) ∧
      (ofOffset source offset).tokens.IsChain fun t u => ¬ (t.parts = .text ∧ u.parts = .text)) ∧
    ∀ d, Document.parse source = .ok d → ∀ r ∈ d.records,
      (r.children.map d.kindAt).IsChain Kind.Apart ∧
        (r.valueParts.map d.kindAt).IsChain Kind.Apart := by
  refine ⟨fun offset => ⟨fun t ht => (stands_ofOffset source offset).isTextRun ht, ?_⟩,
    fun d h r hr => ?_⟩
  · exact (Token.isChain_ofTextAt _ _).imp fun t u h => by
      rwa [Token.isText_iff, Token.isText_iff] at h
  · have hP := Nesting.holdsOfItems_textsApart source
    obtain ⟨rfl, ht⟩ := Document.parse_eq_ok_iff_sequenceTree.1 h
    have hnodes := (ht.apart (Token.isChain_ofTextAt 0 d.source)).1
    obtain ⟨hslots, hchildren, hparts⟩ := Document.forall_records h
      (Entry.textsApart_of_nodes (List.forall_mem_nil _) hnodes) hP r hr
    rw [Record.children, Record.valueParts, Document.map_kindAt_idsOf hslots,
      Document.map_kindAt_idsOf hslots]
    exact ⟨hchildren, hparts⟩

/-- A `<` that opens nothing is part of a run, and the drops of a value and of the document keep the
text around them apart. -/
theorem Cursor.text_runs_maximal_around_drops :
    let source := "a < {{x}}é<p c='d{{y}}e'></p>".toList
    Span.IsTextRun source ⟨0, 4⟩ ∧
      ∃ d, Document.parse source = .ok d ∧
        (∃ r ∈ d.records, (r.children.map d.kindAt).length = 4 ∧
          (r.children.map d.kindAt).IsChain Kind.Apart) ∧
        ∃ r ∈ d.records, (r.valueParts.map d.kindAt).length = 3 ∧
          (r.valueParts.map d.kindAt).IsChain Kind.Apart := by
  intro source
  obtain ⟨htokens, hrecords⟩ := text_runs_maximal source
  refine ⟨(htokens 0).1 ⟨0, .text "a < ".toList⟩ (by decide +kernel) rfl, ?_⟩
  have hcomputed : (Document.parse source).toOption.map (fun d =>
      d.records.map fun r => (r.children.length, r.valueParts.length)) =
      some [(4, 0), (0, 0), (0, 0), (0, 0), (0, 0), (0, 0), (0, 0), (0, 3), (0, 0)] := by
    decide +kernel
  obtain ⟨d, h, hlengths⟩ := Document.exists_of_map_parse hcomputed
  obtain ⟨r, hr, hchildren⟩ := List.mem_map.1
    (show (4, 0) ∈ d.records.map fun r => (r.children.length, r.valueParts.length) by
      rw [hlengths]; decide)
  obtain ⟨r', hr', hparts⟩ := List.mem_map.1
    (show (0, 3) ∈ d.records.map fun r => (r.children.length, r.valueParts.length) by
      rw [hlengths]; decide)
  refine ⟨d, h, ⟨r, hr, ?_, (hrecords d h r hr).1⟩, r', hr', ?_, (hrecords d h r' hr').2⟩
  · rw [List.length_map, (Prod.mk.inj hchildren).1]
  · rw [List.length_map, (Prod.mk.inj hparts).2]

end LiquidTemplate
