import LiquidTemplate.Proofs.Coverage.Tiling
import LiquidTemplate.Proofs.Tree.Container
import LiquidTemplate.Proofs.Nesting.Derivation

/-!
# Nothing but blanks is lost

A container covers its opening tag, its children with gaps between them, and its end tag
(`Container.Covered`). The gaps of a block are empty, and all others are blank, so the tree leaves
out no part of a template but blanks.
-/

namespace LiquidTemplate

/-- The key of the name in a start tag. -/
def ElementName.key : ElementName → Key
  | fixed name => .fixed name
  | dynamic d => .dynamic d.markup.normalized

theorem ElementName.key_ofHead (start : Nat) (head : Head) :
    (ElementName.ofHead start head).key = head.name.key := by
  unfold ElementName.ofHead
  split <;> next h => rw [h]; rfl

namespace Container

/-- What may stand between the children. -/
def Gap : Container → Text → Prop
  | block _ _ _ _, t => t = []
  | document _, t | element _ _ _ _, t | branch _ _ _, t => Text.AllBlank t

/-- What stands in front of the children: the opening tag, if there is one. -/
def Front : Container → Text → Prop
  | document _, t | branch none _ _, t => t = []
  | element name attributes _ position, t =>
    ∃ head, Token.ofText t = [⟨0, .startTag head⟩] ∧ name = .ofHead position.start head ∧
      attributes = AttributeNode.ofHead position.start head
  | block tag _ _ _, t | branch (some tag) _ _, t =>
    ∃ inner, Token.ofText t = [⟨0, .tag inner⟩] ∧ Tag.ofInner inner = tag

/-- What stands behind the children: the end tag, if there is one. -/
def Back : Container → Text → Prop
  | document _, t | branch _ _ _, t => t = []
  | element name _ _ _, t =>
    ∃ name' gap, Token.ofText t = [⟨0, .endTag name' gap⟩] ∧ name'.key = name.key
  | block tag _ closing _, t =>
    ∃ inner, Token.ofText t = [⟨0, .tag inner⟩] ∧
      (Tag.ofInner inner).name = Keyword.endTag tag.name ∧ (Tag.ofInner inner).trims = closing

/-- The container covers its tags and its children, and nothing else but gaps. -/
def Covered (source : Text) (c : Container) : Prop :=
  ∃ front body back, Text.slice? source c.position = some (front ++ body ++ back) ∧
    c.Front front ∧ Tiled source c.Gap (c.position.start + Text.size front) c.childSpans body ∧
    c.Back back

end Container

theorem Keyword.eq_endTag_of_roleOf {name block : Text}
    (h : Keyword.roleOf name = .closes block) : name = Keyword.endTag block := by
  unfold Keyword.roleOf at h
  split at h
  · cases h
  · split at h
    · cases h
    · split at h
      · next hc => cases h; exact (Keyword.closedBy?_eq_some_iff.1 hc).1
      · cases h

namespace Nesting

open Token

variable {source : Text}

/-- The node of a token holds no children, and covers the token or, of text, all but the blanks
around it. -/
theorem leafNode?_cases {t : Token} {n : Node} (h : t.leafNode? = some n) :
    n.containers = [] ∧
      ((∃ v, t.item = .text v ∧ Text.trim v ≠ [] ∧ n = .text (Text.trim v)
          (.ofText (t.start + Text.size (Text.leadingBlanks v)) (Text.trim v))) ∨
        n.position = t.span) := by
  obtain ⟨start, item⟩ := t
  cases item with
  | text value =>
    simp only [Token.leafNode?, Node.ofText?, Option.ite_none_left_eq_some,
      Option.some.injEq] at h
    obtain ⟨hv, rfl⟩ := h
    exact ⟨rfl, .inl ⟨value, rfl, by simpa using hv, rfl⟩⟩
  | tag inner =>
    simp only [Token.leafNode?, Option.ite_none_right_eq_some, Option.some.injEq] at h
    obtain ⟨-, rfl⟩ := h
    exact ⟨rfl, .inr rfl⟩
  | startTag head =>
    simp only [Token.leafNode?] at h
    split at h
    · cases h; exact ⟨rfl, .inr rfl⟩
    · split at h
      · cases h; exact ⟨rfl, .inr rfl⟩
      · cases h
  | endTag _ _ => cases h
  | invalid _ _ => cases h
  | drop inner => cases h; exact ⟨rfl, .inr rfl⟩
  | comment body => cases h; exact ⟨rfl, .inr rfl⟩
  | doctype keyword raw => cases h; exact ⟨rfl, .inr rfl⟩
  | rawElement head body closeName closeRest => cases h; exact ⟨rfl, .inr rfl⟩
  | rawTag opening body closing => cases h; exact ⟨rfl, .inr rfl⟩

/-- A node without children covers its token, or its text but for the blanks around it. -/
theorem tiled_leaf {front : Text} {t : Token} {n : Node} (h : t.leafNode? = some n)
    (hst : Stand source front [t]) :
    Tiled source Text.AllBlank (Text.size front) [n.position] (Token.covered [t]) ∧
      n.containers = [] := by
  have hstart : t.start = Text.size front := hst.contiguous.1
  obtain ⟨hnil, ⟨value, ht, -, rfl⟩ | hpos⟩ := leafNode?_cases h
  · obtain ⟨back, hs⟩ := hst.covered
    simp only [covered_cons, covered_nil, List.append_nil, ht, Lexeme.chars] at hs ⊢
    rw [hstart]
    exact ⟨tiled_trim hs, hnil⟩
  · have hslice : Text.slice? source n.position = some (Token.covered [t]) := by
      rw [hpos, Token.span, stop_eq, hstart]
      simpa using hst.slice?
    refine ⟨?_, hnil⟩
    rw [← hstart, show t.start = n.position.start by rw [hpos]; rfl]
    exact tiled_singleton Text.allBlank_nil hslice

/-- A node with an end tag covers all from its opening tag on. -/
theorem tiled_enclosed {front : Text} {t t' : Token} {ts : List Token} {n : Node}
    (hst : Stand source front (t :: ts ++ [t'])) (hn : n.position = ⟨t.start, t'.stop⟩) :
    Tiled source Text.AllBlank (Text.size front) [n.position]
      (Token.covered (t :: ts ++ [t'])) := by
  have hstart : t.start = Text.size front := hst.contiguous.1
  have h := tiled_singleton Text.allBlank_nil hst.slice?_enclosed
  rw [← hn] at h
  rw [← hstart, show t.start = n.position.start by rw [hn]]
  simpa using h

/-- A branch covers the tag that starts it and its nodes. -/
theorem covered_branch {front lead : Text} {ts : List Token} {label : Option Tag} {ns : List Node}
    (hst : Stand source (front ++ lead) ts)
    (h : Tiled source Text.AllBlank (Text.size (front ++ lead)) (ns.map Node.position)
      (Token.covered ts))
    (hlead : ∀ ns position, (Container.branch label ns position).Front lead) :
    let position : Span := ⟨Text.size front, Text.size front + Text.size (lead ++ Token.covered ts)⟩
    Text.slice? source position = some (lead ++ Token.covered ts) ∧
      (Container.branch label ns position).Covered source := by
  obtain ⟨back, hs⟩ := hst.covered
  have hslice : Text.slice? source
      ⟨Text.size front, Text.size front + Text.size (lead ++ Token.covered ts)⟩ =
        some (lead ++ Token.covered ts) :=
    Text.slice?_eq_some_iff.2 ⟨front, back, by simpa using hs, rfl, rfl⟩
  rw [Text.size_append] at h
  refine ⟨hslice, lead, Token.covered ts, [], ?_, hlead _ _, h, rfl⟩
  rw [List.append_nil]
  exact hslice

mutual

theorem SequenceTree.covered : ∀ {ts : List Token} {ns : List Node}, SequenceTree ts ns →
    ∀ {front : Text}, Stand source front ts →
    Tiled source Text.AllBlank (Text.size front) (ns.map Node.position) (Token.covered ts) ∧
      ∀ c ∈ Node.containersAll ns, c.Covered source
  | _, _, .empty, _, _ => ⟨Text.allBlank_nil, by simp [Node.containersAll]⟩
  | _, _, .cons hi ht, front, hst => by
    obtain ⟨hst₁, hst₂⟩ := hst.of_append
    obtain ⟨hi₁, hi₂⟩ := hi.covered hst₁
    obtain ⟨ht₁, ht₂⟩ := ht.covered hst₂
    rw [List.map_append, Token.covered_append, Node.containersAll_append]
    rw [Text.size_append] at ht₁
    exact ⟨hi₁.append Text.AllBlank.append ht₁, List.forall_mem_append.2 ⟨hi₂, ht₂⟩⟩

theorem ItemTree.covered : ∀ {ts : List Token} {ns : List Node}, ItemTree ts ns →
    ∀ {front : Text}, Stand source front ts →
    Tiled source Text.AllBlank (Text.size front) (ns.map Node.position) (Token.covered ts) ∧
      ∀ c ∈ Node.containersAll ns, c.Covered source
  | _, _, .blank ht hv, _, _ => by
    refine ⟨?_, by simp [Node.containersAll]⟩
    simpa [Tiled, ht, Lexeme.chars] using hv
  | _, _, .leaf hn, front, hst => by
    obtain ⟨h, hnil⟩ := tiled_leaf hn hst
    exact ⟨h, by simp [Node.containersAll, hnil]⟩
  | _, _, .element (t := t) ht ho hts ht' hk, front, hst => by
    have hslice := hst.slice?_enclosed
    have hstart : t.start = Text.size front := hst.contiguous.1
    obtain ⟨hns, hcs⟩ := hts.covered hst.of_cons.2.of_append.1
    rw [Text.size_append, ← hstart] at hns
    have hopen := hst.ofText_chars (by simp) ht rfl
    have hclose := hst.ofText_chars (by simp) ht' rfl
    refine ⟨tiled_enclosed hst rfl, ?_⟩
    rw [Node.containersAll, Node.containersAll, List.append_nil]
    refine List.forall_mem_cons.2
      ⟨⟨_, _, _, hslice, ⟨_, hopen, rfl, rfl⟩, hns, _, _, hclose, ?_⟩, hcs⟩
    rw [ElementName.key_ofHead, hk]
  | _, _, .block (t := t) ht hr hts ht' hr', front, hst => by
    have hslice := hst.slice?_enclosed
    have hstart : t.start = Text.size front := hst.contiguous.1
    have hopen := hst.ofText_chars (by simp) ht rfl
    have hclose := hst.ofText_chars (by simp) ht' rfl
    obtain ⟨hst₁, hst₂⟩ := hst.of_cons.2.of_append
    have hstop : t.stop = Text.size (front ++ t.item.chars) := by
      rw [stop_eq, hstart, Text.size_append]
    have hend := hst₂.of_cons.1
    rw [Text.size_append] at hend
    rw [← List.append_nil (front ++ t.item.chars)] at hst₁
    obtain ⟨hbs, hcs⟩ := hts.covered hst₁ hstop hend fun _ _ => rfl
    refine ⟨tiled_enclosed hst rfl, ?_⟩
    rw [Node.containersAll, Node.containersAll, List.append_nil]
    exact List.forall_mem_cons.2
      ⟨⟨_, _, _, hslice, ⟨_, hopen, rfl⟩, hbs, _, hclose, Keyword.eq_endTag_of_roleOf hr', rfl⟩,
        hcs⟩

theorem BranchTrees.covered : ∀ {name : Text} {label : Option Tag} {start stop : Nat}
    {ts : List Token} {branches : List Branch}, BranchTrees name label start ts stop branches →
    ∀ {front lead : Text}, Stand source (front ++ lead) ts → start = Text.size front →
    stop = Text.size front + Text.size (lead ++ Token.covered ts) →
    (∀ ns position, (Container.branch label ns position).Front lead) →
    Tiled source (· = []) start (branches.map Branch.position) (lead ++ Token.covered ts) ∧
      ∀ c ∈ Branch.containersAll branches, c.Covered source
  | _, _, _, _, _, _, .last hts, front, lead, hst, hstart, hstop, hlead => by
    obtain ⟨hns, hcs⟩ := hts.covered hst
    obtain ⟨hslice, hb⟩ := covered_branch hst hns hlead
    rw [← hstop, ← hstart] at hslice hb
    refine ⟨tiled_singleton (by rfl) hslice, ?_⟩
    simpa [Branch.containersAll, Branch.containers] using ⟨hb, hcs⟩
  | _, _, _, _, _, _, .more hts ht hb hbs, front, lead, hst, hstart, hstop, hlead => by
    obtain ⟨hst₁, hst₂⟩ := hst.of_append
    obtain ⟨hns, hcs⟩ := hts.covered hst₁
    obtain ⟨hslice, hb⟩ := covered_branch hst₁ hns hlead
    have hnext := hst₂.of_cons.1
    obtain ⟨hbs, hcs'⟩ := hbs.covered hst₂.of_cons.2 hnext
      (by rw [hstop]; simp [Nat.add_assoc]) fun _ _ => ⟨_, hst₂.ofText_chars (by simp) ht rfl, rfl⟩
    -- the branch stops where the tag of the next one starts
    rw [List.append_assoc, Text.size_append front] at hnext
    rw [← hnext, ← hstart] at hslice hb
    refine ⟨⟨[], _, _, by simp, rfl, rfl, hslice, hbs⟩, ?_⟩
    rw [Branch.containersAll, Branch.containers, List.cons_append]
    exact List.forall_mem_cons.2 ⟨hb, List.forall_mem_append.2 ⟨hcs, hcs'⟩⟩

end

end Nesting

/-- **Nothing is lost**: every container of a document covers its tags and its children one behind
the other, with empty gaps in a block and blank ones elsewhere. -/
theorem Document.covered_of_parse {source : Text} {d : Document} (h : parse source = .ok d) :
    ∀ c ∈ d.containers, c.Covered source := by
  obtain ⟨rfl, ht⟩ := parse_eq_ok_iff_sequenceTree.1 h
  obtain ⟨hns, hcs⟩ := ht.covered (Token.stand_ofText d.source)
  rw [Token.covered_ofText] at hns
  have hslice : Text.slice? d.source d.position = some d.source :=
    Text.slice?_eq_some_iff.2 ⟨[], [], by simp, rfl, rfl⟩
  refine List.forall_mem_cons.2 ⟨⟨[], d.source, [], ?_, rfl, hns, rfl⟩, hcs⟩
  rw [List.nil_append, List.append_nil]
  exact hslice

/-- A document, an element, a block and its two branches. -/
theorem Document.covered_of_parse_branches :
    ∃ d, parse "<a> {% if x %} é {% else %}b{% endif %}</a>".toList = .ok d ∧
      d.containers.length = 5 ∧
      ∀ c ∈ d.containers, c.Covered "<a> {% if x %} é {% else %}b{% endif %}</a>".toList := by
  have hlen : (parse "<a> {% if x %} é {% else %}b{% endif %}</a>".toList).toOption.map
      (fun d => d.containers.length) = some 5 := by
    decide +kernel
  cases h : parse "<a> {% if x %} é {% else %}b{% endif %}</a>".toList with
  | ok d =>
    rw [h] at hlen
    exact ⟨d, rfl, Option.some.inj hlen, covered_of_parse h⟩
  | error r => rw [h] at hlen; cases hlen

end LiquidTemplate
