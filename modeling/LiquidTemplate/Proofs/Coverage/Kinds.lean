import LiquidTemplate.Proofs.Arena.Local
import LiquidTemplate.Proofs.Lexeme.Grammar
import LiquidTemplate.Proofs.Nesting.Derivation

/-!
# Every node is of a kind that fits

What a node is and which nodes it holds fit together: attributes stand where attributes belong,
branches stand in blocks only and may stand there, and names are those of the node's kind
(`Kind.Admits`). Some of this is decided when lexemes are read, some when tags are matched; it holds
of every record of a document (`Document.well_kinded`).
-/

namespace LiquidTemplate

namespace Kind

/-- The kinds of nodes that stand in a document, an element or a branch. -/
def isContent : Kind → Bool
  | document | attr _ _ _ | branch _ => false
  | _ => true

def isAttribute : Kind → Bool
  | attr _ _ _ => true
  | _ => false

/-- The kinds of nodes that stand in the value of an attribute. -/
def isPart : Kind → Bool
  | text _ | drop _ => true
  | _ => false

def isDrop : Kind → Bool
  | drop _ => true
  | _ => false

/-- The trim markers of an end tag; where there is no end tag there are none. -/
def closing : Kind → Trims
  | rawTag _ _ closing | block _ closing => closing
  | _ => .none

/-- The first branch of a block, which has no label, and the others, whose labels may split a block
of this name. -/
def AreBranches (name : Text) : List Kind → Prop
  | branch label :: later =>
    Tag.labelName? label = none ∧ Tag.labelMarkup label = [] ∧ Tag.labelTrims label = .none ∧
      ∀ k ∈ later, ∃ label n, k = branch label ∧ Tag.labelName? label = some n ∧
        Keyword.isBranchOf name n = true
  | _ => False

/-- The names of a node are those of its kind, and it holds what its kind demands: `names` are the
kinds of its dynamic names, `parts` those of the parts of its value and `children` those of its
children. -/
def Named (names parts children : List Kind) : Kind → Prop
  | tag t =>
    children = [] ∧ closing (tag t) = .none ∧ Keyword.isBlockTag t.name = false ∧
      Keyword.isBranchTag t.name = false ∧ Keyword.isRawTag t.name = false ∧
        ∀ block, t.name = Keyword.endTag block →
          Keyword.isBlockTag block = false ∧ Keyword.isRawTag block = false
  | block t _ => Keyword.isBlockTag t.name = true ∧ AreBranches t.name children
  | rawTag t _ _ => Keyword.isRawTag t.name = true
  | rawElement name _ => names = [] ∧ Keyword.isRawElement name = true
  | voidElement name => names = [] ∧ Keyword.isVoidElement name = true
  | selfClosingElement (some name) => names = [] ∧ Keyword.isVoidElement name = false
  | element (some name) =>
    names = [] ∧ Keyword.isVoidElement name = false ∧ Keyword.isRawElement name = false
  | selfClosingElement none | element none => ∃ markup, names = [drop markup]
  | attr _ quote hasEquals =>
    (hasEquals = false → quote = none ∧ parts = []) ∧
      (hasEquals = true → quote = none → parts ≠ [])
  | document | text _ | drop _ | comment _ | doctype _ | branch _ => True

/-- A node of this kind may hold nodes of these kinds. -/
structure Admits (k : Kind) (names attributes parts children : List Kind) : Prop where
  isDrop : ∀ n ∈ names, n.isDrop = true
  isAttribute : ∀ a ∈ attributes, a.isAttribute = true
  isPart : ∀ p ∈ parts, p.isPart = true
  isContent : (∀ t trims, k ≠ block t trims) → ∀ c ∈ children, c.isContent = true
  named : k.Named names parts children

end Kind

namespace Entry

/-- The kinds of the nodes that are held in a role. -/
def kindsAs (role : Role) (held : List Entry) : List Kind :=
  held.filterMap fun e => if e.role = role then some e.kind else none

theorem kindsAs_append (role : Role) (held more : List Entry) :
    kindsAs role (held ++ more) = kindsAs role held ++ kindsAs role more :=
  List.filterMap_append

theorem kindsAs_of_role {role : Role} {held : List Entry} (h : ∀ e ∈ held, e.role = role)
    (role' : Role) : kindsAs role' held = if role = role' then held.map kind else [] := by
  induction held with
  | nil => exact (ite_self []).symm
  | cons e held ih =>
    rw [List.forall_mem_cons] at h
    have htail : kindsAs role' held = if role = role' then held.map kind else [] := ih h.2
    rw [kindsAs] at htail ⊢
    by_cases hr : role = role'
    · simp only [List.filterMap_cons, htail, h.1, if_pos hr, List.map_cons]
    · simp only [List.filterMap_cons, htail, h.1, if_neg hr]

/-- The node and the nodes it holds are of kinds that fit. -/
def WellKinded (e : Entry) (held : List Entry) : Prop :=
  e.kind.Admits (kindsAs .name held) (kindsAs .attr held) (kindsAs .part held)
    (kindsAs .child held)

/-- The node is held in this role and its kind passes this test. -/
def Is (role : Role) (test : Kind → Bool) (e : Entry) : Prop := e.role = role ∧ test e.kind = true

variable {e : Entry} {names attributes nodes parts branches : List Entry}

theorem wellKinded_of_content (hn : ∀ n ∈ names, n.Is .name Kind.isDrop)
    (ha : ∀ a ∈ attributes, a.Is .attr Kind.isAttribute)
    (hc : ∀ c ∈ nodes, c.Is .child Kind.isContent)
    (h : e.kind.Named (names.map kind) [] (nodes.map kind)) :
    e.WellKinded (names ++ attributes ++ nodes) := by
  have hnames := kindsAs_of_role fun n hmem => (hn n hmem).1
  have hattributes := kindsAs_of_role fun a hmem => (ha a hmem).1
  have hnodes := kindsAs_of_role fun c hmem => (hc c hmem).1
  simp only [WellKinded, kindsAs_append, hnames, hattributes, hnodes, reduceCtorEq, if_false,
    if_true, List.append_nil, List.nil_append]
  exact ⟨List.forall_mem_map.2 fun n hmem => (hn n hmem).2,
    List.forall_mem_map.2 fun a hmem => (ha a hmem).2, List.forall_mem_nil _,
    fun _ => List.forall_mem_map.2 fun c hmem => (hc c hmem).2, h⟩

/-- A node that holds at most a name and attributes. -/
theorem wellKinded_of_names (hn : ∀ n ∈ names, n.Is .name Kind.isDrop)
    (ha : ∀ a ∈ attributes, a.Is .attr Kind.isAttribute) (h : e.kind.Named (names.map kind) [] []) :
    e.WellKinded (names ++ attributes) := by
  rw [← List.append_nil (names ++ attributes)]
  exact wellKinded_of_content hn ha (List.forall_mem_nil _) h

/-- A node that holds content only. -/
theorem wellKinded_of_nodes (hc : ∀ c ∈ nodes, c.Is .child Kind.isContent)
    (h : e.kind.Named [] [] (nodes.map kind)) : e.WellKinded nodes :=
  wellKinded_of_content (List.forall_mem_nil _) (List.forall_mem_nil _) hc h

/-- A node that holds at most attributes. -/
theorem wellKinded_of_attributes (ha : ∀ a ∈ attributes, a.Is .attr Kind.isAttribute)
    (h : e.kind.Named [] [] []) : e.WellKinded attributes :=
  wellKinded_of_names (List.forall_mem_nil _) ha h

/-- A node that holds nothing. -/
theorem wellKinded_leaf (h : e.kind.Named [] [] []) : e.WellKinded [] :=
  wellKinded_of_attributes (List.forall_mem_nil _) h

theorem wellKinded_of_parts (hp : ∀ p ∈ parts, p.Is .part Kind.isPart)
    (h : e.kind.Named [] (parts.map kind) []) : e.WellKinded parts := by
  have hparts := kindsAs_of_role fun p hmem => (hp p hmem).1
  simp only [WellKinded, hparts, reduceCtorEq, if_false, if_true]
  exact ⟨List.forall_mem_nil _, List.forall_mem_nil _,
    List.forall_mem_map.2 fun p hmem => (hp p hmem).2, fun _ => List.forall_mem_nil _, h⟩

theorem wellKinded_of_branches {t : Tag} {closing : Trims} (hk : e.kind = .block t closing)
    (hb : ∀ b ∈ branches, b.role = .child) (h : e.kind.Named [] [] (branches.map kind)) :
    e.WellKinded branches := by
  have hbranches := kindsAs_of_role hb
  simp only [WellKinded, hbranches, reduceCtorEq, if_false, if_true]
  exact ⟨List.forall_mem_nil _, List.forall_mem_nil _, List.forall_mem_nil _,
    fun hne => absurd hk (hne t closing), h⟩

end Entry

/-- Trees whose roots are all held in this role and of such kinds, with fitting kinds throughout. -/
structure Tree.Kinded (role : Role) (test : Kind → Bool) (ts : List (Tree Entry)) : Prop where
  roots : ∀ t ∈ ts, t.value.Is role test
  everywhere : EverywhereAll Entry.WellKinded ts

namespace Tree.Kinded

variable {role : Role} {test : Kind → Bool} {ts us : List (Tree Entry)}

theorem nil : Kinded role test [] := ⟨List.forall_mem_nil _, trivial⟩

theorem append (h : Kinded role test ts) (h' : Kinded role test us) :
    Kinded role test (ts ++ us) :=
  ⟨List.forall_mem_append.2 ⟨h.roots, h'.roots⟩,
    everywhereAll_append.2 ⟨h.everywhere, h'.everywhere⟩⟩

theorem node {e : Entry} (h : e.Is role test) (hw : e.WellKinded (ts.map Tree.value))
    (hts : EverywhereAll Entry.WellKinded ts) : Kinded role test [.node e ts] :=
  ⟨List.forall_mem_singleton.2 h, ⟨hw, hts⟩, trivial⟩

theorem leaf {e : Entry} (h : e.Is role test) (hn : e.kind.Named [] [] []) :
    Kinded role test [.leaf e] :=
  node h (Entry.wellKinded_leaf hn) trivial

theorem map {α : Type} {f : α → Tree Entry} {xs : List α}
    (h : ∀ x ∈ xs, Kinded role test [f x]) : Kinded role test (xs.map f) := by
  induction xs with
  | nil => exact nil
  | cons x xs ih =>
    rw [List.forall_mem_cons] at h
    exact append h.1 (ih h.2)

/-- The roots as entries. -/
theorem values (h : Kinded role test ts) : ∀ e ∈ ts.map Tree.value, e.Is role test :=
  List.forall_mem_map.2 h.roots

end Tree.Kinded

open LiquidTemplate.Tree (Kinded)

/-! ## Nodes of a head -/

theorem PartNode.kinded_outline (p : PartNode) : Kinded .part Kind.isPart [p.outline] := by
  cases p with
  | text value position => exact .leaf ⟨rfl, rfl⟩ trivial
  | drop d => exact .leaf ⟨rfl, rfl⟩ trivial

theorem AttributeNode.kinded_ofAttribute {rest : Text} {a : Located Attribute}
    (h : a.item.ReadBefore rest) : Kinded .attr Kind.isAttribute [(ofAttribute a).outline] := by
  obtain ⟨start, gap, name, assignment⟩ := a
  have hparts (parts : List PartNode) : Kinded .part Kind.isPart (parts.map PartNode.outline) :=
    .map fun p _ => p.kinded_outline
  cases assignment with
  | none =>
    refine .node ⟨rfl, rfl⟩ (Entry.wellKinded_of_parts (hparts []).values ?_) trivial
    exact ⟨fun _ => ⟨rfl, rfl⟩, nofun⟩
  | some s =>
    obtain ⟨-, -, -, atoms, hatoms, -, hne⟩ := h
    refine .node ⟨rfl, rfl⟩ (Entry.wellKinded_of_parts (hparts _).values ⟨nofun, ?_⟩)
      (hparts _).everywhere
    -- a value without quotes has atoms, so it has pieces
    intro _ hquote hnil
    have hpieces : s.value.pieces ≠ [] := by
      rw [hatoms]
      exact Atom.pieces_ne_nil (hne hquote)
    obtain ⟨p, ps, hps⟩ := List.exists_cons_of_ne_nil hpieces
    simp [ofAttribute, Attribute.valueAt?, ValueNode.ofValue, Value.piecesAt, hps] at hnil

theorem AttributeNode.kinded_ofHead {rest : Text} {head : Head} (h : head.ReadBefore rest)
    (start : Nat) : Kinded .attr Kind.isAttribute ((ofHead start head).map outline) := by
  rw [ofHead, List.map_map]
  refine .map fun a ha => ?_
  obtain ⟨-, rest', ha⟩ := Attribute.readBefore_of_mem h.2.1 a.item (Head.within_attributes ha).2
  exact kinded_ofAttribute ha

/-- A name is written out, or it is one drop. -/
theorem ElementName.kinded_ofHead (start : Nat) (head : Head) :
    Kinded .name Kind.isDrop (ofHead start head).outline ∧
      ((∃ name, head.name = .fixed name ∧ (ofHead start head).fixed? = some name ∧
          (ofHead start head).outline = []) ∨
        ((ofHead start head).fixed? = none ∧
          ∃ markup, ((ofHead start head).outline.map Tree.value).map Entry.kind =
            [.drop markup])) := by
  unfold ofHead
  cases head.name with
  | fixed name => exact ⟨.nil, .inl ⟨name, rfl, rfl, rfl⟩⟩
  | dynamic inner => exact ⟨.leaf ⟨rfl, rfl⟩ trivial, .inr ⟨rfl, _, rfl⟩⟩

/-! ## Nodes of tokens -/

/-- A tag that does nothing to the nesting is none of those that do. -/
theorem Keyword.of_roleOf_eq_inline {name : Text} (h : roleOf name = .inline) :
    isBlockTag name = false ∧ isBranchTag name = false ∧ ∀ block, name = endTag block →
      isBlockTag block = false ∧ isRawTag block = false := by
  unfold roleOf at h
  split at h
  · cases h
  · next hblock =>
    split at h
    · cases h
    · next hbranch =>
      split at h
      · cases h
      · next hclosed =>
        refine ⟨by simpa using hblock, by simpa using hbranch, fun block hname => ?_⟩
        have hnot : ¬ (isBlockTag block = true ∨ isRawTag block = true) := fun hor => by
          rw [closedBy?_eq_some_iff.2 ⟨hname, hor⟩] at hclosed
          cases hclosed
        simpa using hnot

/-- The node of a token is of a kind that fits. -/
theorem Token.kinded_leaf {t : Token} {n : Node} (h : t.leafNode? = some n) (hr : t.item.Read) :
    Kinded .child Kind.isContent [n.outline] := by
  obtain ⟨start, item⟩ := t
  cases item with
  | text value =>
    simp only [leafNode?, Node.ofText?, Option.ite_none_left_eq_some, Option.some.injEq] at h
    obtain ⟨-, rfl⟩ := h
    exact .leaf ⟨rfl, rfl⟩ trivial
  | drop inner => cases h; exact .leaf ⟨rfl, rfl⟩ trivial
  | tag inner =>
    simp only [leafNode?, Option.ite_none_right_eq_some, Option.some.injEq] at h
    obtain ⟨hrole, rfl⟩ := h
    obtain ⟨rest, -, hraw⟩ := hr rfl
    obtain ⟨hblock, hbranch, hclosed⟩ := Keyword.of_roleOf_eq_inline hrole
    exact .leaf ⟨rfl, rfl⟩ ⟨rfl, rfl, hblock, hbranch, hraw, hclosed⟩
  | startTag head =>
    obtain ⟨rest, hhead, -⟩ := hr rfl
    have hattributes := AttributeNode.kinded_ofHead hhead start
    obtain ⟨hname, hfixed⟩ := ElementName.kinded_ofHead start head
    simp only [leafNode?] at h
    split at h
    · next name hv =>
      cases h
      exact .node ⟨rfl, rfl⟩ (Entry.wellKinded_of_attributes hattributes.values
        ⟨rfl, (Head.isVoidElement_of_voidName? hv).2⟩) hattributes.everywhere
    · next hv =>
      split at h
      · cases h
        refine .node ⟨rfl, rfl⟩ ?_
          (Tree.everywhereAll_append.2 ⟨hname.everywhere, hattributes.everywhere⟩)
        rw [List.map_append]
        refine Entry.wellKinded_of_names hname.values hattributes.values ?_
        rcases hfixed with ⟨name, hn, hf, ho⟩ | ⟨hf, hdrop⟩
        · rw [hf, ho]
          exact ⟨rfl, Head.not_isVoidElement_of_voidName? hv hn⟩
        · rw [hf]
          exact hdrop
      · cases h
  | endTag _ _ => cases h
  | invalid _ _ => cases h
  | comment body => cases h; exact .leaf ⟨rfl, rfl⟩ trivial
  | doctype keyword raw => cases h; exact .leaf ⟨rfl, rfl⟩ trivial
  | rawElement head body closeName closeRest =>
    cases h
    obtain ⟨rest, hhead, name, hraw, -⟩ := hr rfl
    obtain ⟨hn, hraw⟩ := Head.isRawElement_of_rawName? hraw
    have hattributes := AttributeNode.kinded_ofHead hhead start
    refine .node ⟨rfl, rfl⟩ (Entry.wellKinded_of_attributes hattributes.values ⟨rfl, ?_⟩)
      hattributes.everywhere
    rw [hn]
    exact hraw
  | rawTag opening body closing =>
    cases h
    obtain ⟨rest, -, hraw, -⟩ := hr rfl
    exact .leaf ⟨rfl, rfl⟩ hraw

/-! ## Nodes of a document -/

namespace Nesting

/-- An element around content. -/
theorem kinded_element {head : Head} {rest : Text} {ns : List Node} (hr : head.ReadBefore rest)
    (hraw : head.rawName? = none) (ho : head.opens = true)
    (h : Kinded .child Kind.isContent (Node.outlineAll ns)) (start stop : Nat) :
    Kinded .child Kind.isContent [(Node.ofElement start head ns stop).outline] := by
  have hattributes := AttributeNode.kinded_ofHead hr start
  obtain ⟨hname, hfixed⟩ := ElementName.kinded_ofHead start head
  simp only [Head.opens, Bool.and_eq_true, Option.isNone_iff_eq_none, Bool.not_eq_true'] at ho
  refine .node ⟨rfl, rfl⟩ ?_ (Tree.everywhereAll_append.2
    ⟨Tree.everywhereAll_append.2 ⟨hname.everywhere, hattributes.everywhere⟩, h.everywhere⟩)
  rw [List.map_append, List.map_append]
  refine Entry.wellKinded_of_content hname.values hattributes.values h.values ?_
  rcases hfixed with ⟨name, hn, hf, houtline⟩ | ⟨hf, hdrop⟩
  · rw [hf, houtline]
    exact ⟨rfl, Head.not_isVoidElement_of_voidName? ho.1 hn,
      Head.not_isRawElement_of_rawName? hraw ho.2 hn⟩
  · rw [hf]
    exact hdrop

mutual

theorem SequenceTree.kinded : ∀ {ts : List Token} {ns : List Node}, SequenceTree ts ns →
    (∀ t ∈ ts, t.item.Read) → Kinded .child Kind.isContent (Node.outlineAll ns)
  | _, _, .empty, _ => .nil
  | _, _, .cons hi ht, hr => by
    rw [List.forall_mem_append] at hr
    rw [Node.outlineAll_append]
    exact (hi.kinded hr.1).append (ht.kinded hr.2)

theorem ItemTree.kinded : ∀ {ts : List Token} {ns : List Node}, ItemTree ts ns →
    (∀ t ∈ ts, t.item.Read) → Kinded .child Kind.isContent (Node.outlineAll ns)
  | _, _, .blank _ _, _ => .nil
  | _, _, .leaf hn, hr => Token.kinded_leaf hn (hr _ List.mem_cons_self)
  | _, _, .element ht ho hus _ _, hr => by
    rw [List.cons_append, List.forall_mem_cons, List.forall_mem_append] at hr
    have hread := hr.1
    rw [ht] at hread
    obtain ⟨rest, hhead, hraw⟩ := hread rfl
    exact kinded_element hhead hraw ho (hus.kinded hr.2.1) _ _
  | _, _, .block ht hrole hbs _ _, hr => by
    rw [List.cons_append, List.forall_mem_cons, List.forall_mem_append] at hr
    obtain ⟨hroles, ⟨later, hkinds, hlater⟩, heverywhere⟩ := hbs.kinded hr.2.1
    refine .node ⟨rfl, rfl⟩ (Entry.wellKinded_of_branches rfl hroles
      ⟨Keyword.roleOf_eq_opensBlock_iff.1 hrole, ?_⟩) heverywhere
    rw [hkinds]
    exact ⟨rfl, rfl, rfl, hlater⟩

/-- The branches of a block: the first has this label, and all others have labels that may split
the block. -/
theorem BranchTrees.kinded : ∀ {name : Text} {label : Option Tag} {start stop : Nat}
    {ts : List Token} {branches : List Branch}, BranchTrees name label start ts stop branches →
    (∀ t ∈ ts, t.item.Read) →
    (∀ b ∈ (Branch.outlineAll branches).map Tree.value, b.role = .child) ∧
      (∃ later, ((Branch.outlineAll branches).map Tree.value).map Entry.kind =
          .branch label :: later ∧
        ∀ k ∈ later, ∃ label' n, k = .branch label' ∧ Tag.labelName? label' = some n ∧
          Keyword.isBranchOf name n = true) ∧
      Tree.EverywhereAll Entry.WellKinded (Branch.outlineAll branches)
  | _, _, _, _, _, _, .last hus, hr => by
    have hchildren := hus.kinded hr
    refine ⟨List.forall_mem_singleton.2 rfl, ⟨[], rfl, List.forall_mem_nil _⟩, ⟨?_, ?_⟩, trivial⟩
    · exact Entry.wellKinded_of_nodes hchildren.values trivial
    · exact hchildren.everywhere
  | _, _, _, _, _, _, .more hus ht hb hbs, hr => by
    rw [List.forall_mem_append, List.forall_mem_cons] at hr
    have hchildren := hus.kinded hr.1
    obtain ⟨hroles, ⟨later, hkinds, hlater⟩, heverywhere⟩ := hbs.kinded hr.2.2
    refine ⟨List.forall_mem_cons.2 ⟨rfl, hroles⟩, ⟨_, rfl, ?_⟩, ⟨?_, ?_⟩, heverywhere⟩
    · rw [hkinds]
      exact List.forall_mem_cons.2 ⟨⟨_, _, rfl, rfl, hb⟩, hlater⟩
    · exact Entry.wellKinded_of_nodes hchildren.values trivial
    · exact hchildren.everywhere

end

end Nesting

namespace Document

open Nesting

/-- The kind of the node of this number; no number stands for the document but 0. -/
def kindAt (d : Document) (id : Nat) : Kind := (d.records[id]?).elim .document fun r => r.entry.kind

variable {d : Document} {r : Record}

theorem kindAt_of_mem_held {c : Record} (h : c ∈ d.held r) : d.kindAt c.id = c.entry.kind := by
  obtain ⟨id, -, hget⟩ := List.mem_filterMap.1 h
  rw [kindAt, d.numbered_records.getElem?_id (List.mem_of_getElem? hget)]
  rfl

/-- The kinds of the nodes that a record holds in a role. -/
theorem map_kindAt_idsOf (h : (d.held r).map Record.slot = r.contents) (role : Role) :
    (r.idsOf role).map d.kindAt = Entry.kindsAs role ((d.held r).map Record.entry) :=
  map_idsOf h (fun _ => kindAt_of_mem_held) role

/-- **Every node is of a kind that fits**: an element, a branch and the document hold content only,
their attributes are attributes, and the parts of a value are text and drops; a tag has branches if
and only if its name opens a block, and those are the first one, without a label, and branches that
this block may have; every name is one that its node may have. -/
theorem well_kinded {source : Text} (h : parse source = .ok d) :
    ∀ r ∈ d.records, r.entry.kind.Admits ((r.idsOf .name).map d.kindAt)
      (r.attributes.map d.kindAt) (r.valueParts.map d.kindAt) (r.children.map d.kindAt) := by
  obtain ⟨rfl, ht⟩ := parse_eq_ok_iff_sequenceTree.1 h
  have hchildren := ht.kinded fun t => Token.read_of_mem_ofText
  have heverywhere : d.outline.Everywhere Entry.WellKinded :=
    ⟨Entry.wellKinded_of_nodes hchildren.values trivial, hchildren.everywhere⟩
  intro r hr
  obtain ⟨hslots, hkinds⟩ := of_everywhere heverywhere r hr
  rw [Entry.WellKinded] at hkinds
  rwa [Record.attributes, Record.valueParts, Record.children, map_kindAt_idsOf hslots,
    map_kindAt_idsOf hslots, map_kindAt_idsOf hslots, map_kindAt_idsOf hslots]

/-- A block in an element with a dynamic name: the element's name is a drop, the unquoted value of
its attribute has parts, and the block has branches that it may have. -/
theorem well_kinded_block_in_element :
    ∃ d, parse "<{{t}} a b={{x}}c>{%- if p %}<br>{% elsif q %}{% endif -%}</{{t}}>".toList = .ok d ∧
      (∃ r ∈ d.records, r.entry.kind = .element none ∧
        ∃ markup, (r.idsOf .name).map d.kindAt = [.drop markup]) ∧
      (∃ r ∈ d.records, r.entry.kind = .attr "b".toList none true ∧
        r.valueParts.map d.kindAt ≠ []) ∧
      (∃ r ∈ d.records, ∃ t closing, r.entry.kind = .block t closing ∧
        Kind.AreBranches t.name (r.children.map d.kindAt)) := by
  have hcomputed : (parse
      "<{{t}} a b={{x}}c>{%- if p %}<br>{% elsif q %}{% endif -%}</{{t}}>".toList).toOption.map
      (fun d => d.records.map fun r => r.entry.kind) =
      some [.document, .drop ⟨.none, "t".toList⟩, .attr "a".toList none false,
        .drop ⟨.none, "x".toList⟩, .text "c".toList, .attr "b".toList none true,
        .voidElement "br".toList, .branch none,
        .branch (some ⟨"elsif".toList, "q ".toList, .none⟩),
        .block ⟨"if".toList, "p ".toList, ⟨.trim, .keep⟩⟩ ⟨.keep, .trim⟩, .element none] := by
    decide +kernel
  cases h : parse "<{{t}} a b={{x}}c>{%- if p %}<br>{% elsif q %}{% endif -%}</{{t}}>".toList with
  | error r => rw [h] at hcomputed; cases hcomputed
  | ok d =>
    rw [h] at hcomputed
    have hkinds : (d.records.map fun r => r.entry.kind) = _ := Option.some.inj hcomputed
    have hfind (k : Kind) (hk : k ∈ d.records.map fun r => r.entry.kind) :
        ∃ r ∈ d.records, r.entry.kind = k ∧ k.Named ((r.idsOf .name).map d.kindAt)
          (r.valueParts.map d.kindAt) (r.children.map d.kindAt) := by
      obtain ⟨r, hr, rfl⟩ := List.mem_map.1 hk
      exact ⟨r, hr, rfl, (well_kinded h r hr).named⟩
    obtain ⟨element, helement, hkind, hname⟩ := hfind (.element none) (by rw [hkinds]; decide)
    obtain ⟨attr, hattr, hkind', hvalue⟩ :=
      hfind (.attr "b".toList none true) (by rw [hkinds]; decide)
    obtain ⟨block, hblock, hkind'', hbranches⟩ :=
      hfind (.block ⟨"if".toList, "p ".toList, ⟨.trim, .keep⟩⟩ ⟨.keep, .trim⟩)
        (by rw [hkinds]; decide)
    exact ⟨d, rfl, ⟨element, helement, hkind, hname⟩, ⟨attr, hattr, hkind', hvalue.2 rfl rfl⟩,
      ⟨block, hblock, _, _, hkind'', hbranches.2⟩⟩

end Document

end LiquidTemplate
