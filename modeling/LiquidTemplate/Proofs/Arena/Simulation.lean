import LiquidTemplate.Parse.Document
import LiquidTemplate.Proofs.Arena.Builder
import LiquidTemplate.Proofs.Arena.PostOrder
import LiquidTemplate.Proofs.Nesting.Language

/-!
# The arena follows the parse

At every moment the records are those of the trees that are complete so far, in the order in which
they were completed, and none of their roots has a parent (`Builder.ofState`). A new node takes the
roots at the end of that list as its content, so nothing is linked twice, and at the end of an
accepted template the records are those of its document.
-/

namespace LiquidTemplate

/-- The slots of trees that are numbered from `next` on. -/
def Tree.slots (next : Nat) (ts : List (Tree Entry)) : List Slot :=
  (Tree.numberAll next ts).1.map Tree.slot

namespace Tree

@[simp] theorem slots_nil (next : Nat) : slots next [] = [] := rfl

theorem slots_append (next : Nat) (ts us : List (Tree Entry)) :
    slots next (ts ++ us) = slots next ts ++ slots (next + sizeAll ts) us := by
  simp [slots, numberAll_append_fst]

theorem slots_cons (next : Nat) (t : Tree Entry) (ts : List (Tree Entry)) :
    slots next (t :: ts) = (t.number next).1.slot :: slots (next + t.size) ts := by
  simp [slots, numberAll_cons_fst]

/-- A root is numbered behind its content. -/
theorem slot_number_node (next : Nat) (entry : Entry) (ts : List (Tree Entry)) :
    ((node entry ts).number next).1.slot = (entry.role, next + sizeAll ts) := by
  rw [number_node_fst]
  rfl

end Tree

namespace Record

theorem length_append_layoutAll (records : List Record) (parent : Option Nat)
    (ts : List (Tree Entry)) :
    (records ++ layoutAll parent (Tree.numberAll records.length ts).1).length =
      records.length + Tree.sizeAll ts := by
  rw [List.length_append, length_layoutAll]

/-- The record of a root stands behind those of its content. -/
theorem append_layout_node (records : List Record) (parent : Option Nat) (entry : Entry)
    (ts : List (Tree Entry)) :
    records ++ layout parent ((Tree.node entry ts).number records.length).1 =
      records ++ layoutAll (some (records.length + Tree.sizeAll ts))
          (Tree.numberAll records.length ts).1 ++
        [⟨records.length + Tree.sizeAll ts, parent, entry, Tree.slots records.length ts⟩] := by
  rw [Tree.number_node_fst, layout, ← List.append_assoc]
  rfl

theorem length_append_layout (records : List Record) (parent : Option Nat) (t : Tree Entry) :
    (records ++ layout parent (t.number records.length).1).length = records.length + t.size := by
  obtain ⟨entry, ts⟩ := t
  rw [append_layout_node, List.length_append, length_append_layoutAll, Tree.size]
  simp only [List.length_singleton]
  omega

/-- Linking the root of a tree. -/
theorem link_layout (parent : Nat) (t : Tree Entry) (before after : List Record) (ids : List Nat) :
    link parent (before ++ layout none (t.number before.length).1 ++ after)
        ((t.number before.length).1.slot.2 :: ids) =
      link parent (before ++ layout (some parent) (t.number before.length).1 ++ after) ids := by
  obtain ⟨entry, us⟩ := t
  rw [append_layout_node, append_layout_node, Tree.slot_number_node]
  have hlen := length_append_layoutAll before (some (before.length + Tree.sizeAll us)) us
  generalize before ++ layoutAll _ _ = front at hlen ⊢
  rw [← hlen]
  simp [link]

/-- Linking the roots of a layout. -/
theorem link_layoutAll (parent : Nat) (ts : List (Tree Entry)) (before after : List Record) :
    link parent (before ++ layoutAll none (Tree.numberAll before.length ts).1 ++ after)
        ((Tree.slots before.length ts).map Prod.snd) =
      .ok (before ++ layoutAll (some parent) (Tree.numberAll before.length ts).1 ++ after) := by
  induction ts generalizing before with
  | nil => rfl
  | cons t ts ih =>
    have hlink := link_layout parent t before
      (layoutAll none (Tree.numberAll (before.length + t.size) ts).1 ++ after)
    have ih := ih (before ++ layout (some parent) (t.number before.length).1)
    rw [length_append_layout] at ih
    simp only [Tree.slots_cons, Tree.numberAll_cons_fst, layoutAll, List.map_cons,
      ← List.append_assoc] at hlink ih ⊢
    rw [hlink, ih]

/-- A new record takes the roots of the last trees as its content. -/
theorem push_layoutAll (before : List Record) (entry : Entry) (ts : List (Tree Entry)) :
    push (before ++ layoutAll none (Tree.numberAll before.length ts).1) entry
        (Tree.slots before.length ts) =
      .ok (before ++ layout none ((Tree.node entry ts).number before.length).1,
        ((Tree.node entry ts).number before.length).1.slot) := by
  simp only [push, length_append_layoutAll, link_layoutAll, append_layout_node,
    Tree.slot_number_node]
  rfl

mutual

theorem allocate_eq : ∀ (t : Tree Entry) (records : List Record),
    allocate records t =
      .ok (records ++ layout none (t.number records.length).1, (t.number records.length).1.slot)
  | .node entry ts, records => by
    rw [allocate, allocateAll_eq ts]
    exact push_layoutAll records entry ts

/-- Trees that are added stand at the end, without parents. -/
theorem allocateAll_eq : ∀ (ts : List (Tree Entry)) (records : List Record),
    allocateAll records ts =
      .ok (records ++ layoutAll none (Tree.numberAll records.length ts).1,
        Tree.slots records.length ts)
  | [], records => by simp [allocateAll, layoutAll, Tree.numberAll]
  | t :: ts, records => by
    have hts := allocateAll_eq ts (records ++ layout none (t.number records.length).1)
    rw [length_append_layout] at hts
    simp only [allocateAll, allocate_eq t, bind, Except.bind, hts, Tree.slots_cons,
      Tree.numberAll_cons_fst, layoutAll, List.append_assoc]
    rfl

end

end Record

theorem Node.outlineAll_concat (ns : List Node) (n : Node) :
    Node.outlineAll (ns ++ [n]) = Node.outlineAll ns ++ [n.outline] :=
  Node.outlineAll_append ns [n]

theorem Branch.outlineAll_concat (bs : List Branch) (b : Branch) :
    Branch.outlineAll (bs ++ [b]) = Branch.outlineAll bs ++ [b.outline] :=
  Branch.outlineAll_append bs [b]

namespace Opener

/-- The content that an open construct has apart from the nodes that stand in it now. -/
def held : Opener → List (Tree Entry)
  | element start head =>
    (ElementName.ofHead start head).outline ++
      (AttributeNode.ofHead start head).map AttributeNode.outline
  | block _ _ branches _ _ => Branch.outlineAll branches.reverse

/-- The construct with its content numbered from `next` on. -/
def numbered (next : Nat) : Opener → OpenNode
  | element start head => .element start head (Tree.slots next (element start head).held)
  | block start tag branches label branchStart =>
    .block start tag (Tree.slots next (Branch.outlineAll branches.reverse)) label branchStart

end Opener

namespace Builder

/-- The records of a document that holds nothing yet, and of trees that are complete. -/
def arena (source : Text) (ts : List (Tree Entry)) : List Record :=
  ⟨0, none, ⟨.child, .document, .ofText 0 source⟩, []⟩ ::
    Record.layoutAll none (Tree.numberAll 1 ts).1

section Arena

variable (source : Text) (ts us : List (Tree Entry))

theorem length_arena : (arena source ts).length = 1 + Tree.sizeAll ts := by
  rw [arena, List.length_cons, Record.length_layoutAll, Nat.add_comm]

theorem arena_append :
    arena source (ts ++ us) =
      arena source ts ++ Record.layoutAll none (Tree.numberAll (1 + Tree.sizeAll ts) us).1 := by
  rw [arena, Tree.numberAll_append_fst, Record.layoutAll_append]
  rfl

theorem allocateAll_arena :
    Record.allocateAll (arena source ts) us =
      .ok (arena source (ts ++ us), Tree.slots (1 + Tree.sizeAll ts) us) := by
  rw [Record.allocateAll_eq, length_arena, arena_append]

theorem arena_concat (t : Tree Entry) :
    arena source (ts ++ [t]) =
      arena source ts ++ Record.layout none (t.number (1 + Tree.sizeAll ts)).1 := by
  rw [arena_append]
  simp [Tree.numberAll, Record.layoutAll]

theorem allocate_arena (t : Tree Entry) :
    Record.allocate (arena source ts) t =
      .ok (arena source (ts ++ [t]), (t.number (1 + Tree.sizeAll ts)).1.slot) := by
  rw [Record.allocate_eq, length_arena, arena_concat]

/-- A new record takes the trees at the end as its content. -/
theorem push_arena (entry : Entry) :
    Record.push (arena source (ts ++ us)) entry (Tree.slots (1 + Tree.sizeAll ts) us) =
      .ok (arena source (ts ++ [.node entry us]),
        ((Tree.node entry us).number (1 + Tree.sizeAll ts)).1.slot) := by
  have h := Record.push_layoutAll (arena source ts) entry us
  rw [length_arena] at h
  rw [arena_append, h, arena_concat]

/-- The content may have been added in two parts. -/
theorem push_arena_append (vs : List (Tree Entry)) (entry : Entry) :
    Record.push (arena source (ts ++ us ++ vs)) entry
        (Tree.slots (1 + Tree.sizeAll ts) us ++ Tree.slots (1 + Tree.sizeAll (ts ++ us)) vs) =
      .ok (arena source (ts ++ [.node entry (us ++ vs)]),
        ((Tree.node entry (us ++ vs)).number (1 + Tree.sizeAll ts)).1.slot) := by
  rw [Tree.sizeAll_append, ← Nat.add_assoc, ← Tree.slots_append, List.append_assoc]
  exact push_arena source ts (us ++ vs) entry

end Arena

/-! ## The builder of a state -/

/-- The trees that are complete outside the innermost container. -/
def completeIn : List Frame → List (Tree Entry)
  | [] => []
  | f :: fs => completeIn fs ++ Node.outlineAll f.outer.reverse ++ f.opener.held

def framesOf : List Frame → List BuilderFrame
  | [] => []
  | f :: fs =>
    let outer := Node.outlineAll f.outer.reverse
    ⟨f.opener.numbered (1 + Tree.sizeAll (completeIn fs ++ outer)),
      Tree.slots (1 + Tree.sizeAll (completeIn fs)) outer⟩ :: framesOf fs

/-- The builder that has come as far as a parse has. -/
def ofState (source : Text) (s : State) : Builder where
  records := arena source (completeIn s.frames ++ Node.outlineAll s.siblings.reverse)
  siblings :=
    Tree.slots (1 + Tree.sizeAll (completeIn s.frames)) (Node.outlineAll s.siblings.reverse)
  frames := framesOf s.frames

variable (source : Text)

/-- A new node adds its tree and its slot. -/
theorem ofState_cons (n : Node) (siblings : List Node) (frames : List Frame) :
    let ts := completeIn frames ++ Node.outlineAll siblings.reverse
    ofState source ⟨n :: siblings, frames⟩ =
      ⟨arena source (ts ++ [n.outline]),
        (ofState source ⟨siblings, frames⟩).siblings ++
          [(n.outline.number (1 + Tree.sizeAll ts)).1.slot],
        framesOf frames⟩ := by
  simp [ofState, Node.outlineAll_concat, Tree.slots_append, Tree.slots_cons, Tree.sizeAll_append,
    Nat.add_assoc]

theorem leaf_ofState (s : State) (n : Node) :
    (ofState source s).leaf n = .ok (ofState source (s.append n)) := by
  rw [State.append, ofState_cons, leaf, ofState]
  simp only [allocate_arena]
  rfl

theorem openElement_ofState (s : State) (start : Nat) (head : Head) :
    (ofState source s).openElement start head =
      .ok (ofState source (s.push (.element start head))) := by
  simp [openElement, ofState, allocateAll_arena, bind, Except.bind, pure, Except.pure, State.push,
    framesOf, Opener.numbered, completeIn, Opener.held, Node.outlineAll, Tree.slots_append,
    Tree.sizeAll_append, Nat.add_assoc]

theorem openBlock_ofState (s : State) (tag : Tag) (position : Span) :
    (ofState source s).openBlock tag position =
      ofState source (s.push (.block position.start tag [] none position.stop)) := by
  simp [openBlock, ofState, State.push, framesOf, Opener.numbered, completeIn, Opener.held,
    Branch.outlineAll, Node.outlineAll]

/-- What the builder makes of what a step of the parse does. -/
def ofResult (source : Text) : State.Result → Except Failure Builder
  | .ok (s, _) => .ok (ofState source s)
  | .error fault => .error (.fault fault)

theorem inline_ofState (s : State) {t : Token} (h : t.item.symbol = .leaf) :
    (ofState source s).inline t = ofResult source (s.step t) := by
  rcases Token.symbol_eq_leaf_iff.1 h with ⟨value, ht, hv⟩ | ⟨n, hn⟩
  · have hn : Node.ofText? t.start value = none := Node.ofText?_eq_none_iff.2 hv
    simp only [inline, Token.leafNode?, State.step, ht, hn]
    rfl
  · simp only [inline, hn, leaf_ofState, State.step_of_leafNode? hn]
    rfl

theorem closing_numbered (o : Opener) (next : Nat) : (o.numbered next).closing = o.closing := by
  cases o <;> rfl

theorem endTag_ofState (s : State) (key : Key) (position : Span) :
    (ofState source s).endTag key position.stop = ofResult source (s.endTag key position) := by
  obtain ⟨siblings, frames⟩ := s
  match frames with
  | [] => rfl
  | ⟨.element start head, outer⟩ :: fs =>
    simp only [endTag, State.endTag, ofState, framesOf, Opener.numbered]
    split
    · simp only [completeIn, push_arena_append, bind, Except.bind, ofResult]
      rw [ofState_cons]
      rfl
    · rfl
  | ⟨.block _ _ _ _ _, _⟩ :: _ => rfl

theorem startBranch_ofState (s : State) (tag : Tag) (position : Span) :
    (ofState source s).startBranch tag position.start =
      ofResult source (s.startBranch tag position) := by
  obtain ⟨siblings, frames⟩ := s
  match frames with
  | [] => rfl
  | ⟨.element _ _, _⟩ :: _ => rfl
  | ⟨.block start block branches label branchStart, outer⟩ :: fs =>
    simp only [startBranch, State.startBranch, ofState, framesOf, Opener.numbered]
    split
    · simp only [pushBranch, completeIn, Opener.held, push_arena, bind, Except.bind, ofResult]
      simp [ofState, framesOf, completeIn, Opener.numbered, Opener.held, State.finishBranch,
        Branch.outlineAll_concat, Branch.outline, Node.outlineAll, Tree.slots_append,
        Tree.slots_cons, Tree.sizeAll_append, Nat.add_assoc, pure, Except.pure]
    · rfl

theorem endBlock_ofState (s : State) (name : Text) (tag : Tag) (position : Span) :
    (ofState source s).endBlock name tag position =
      ofResult source (s.endBlock name tag position) := by
  obtain ⟨siblings, frames⟩ := s
  match frames with
  | [] => rfl
  | ⟨.element _ _, _⟩ :: _ => rfl
  | ⟨.block start block branches label branchStart, outer⟩ :: fs =>
    simp only [endBlock, State.endBlock, ofState, framesOf, Opener.numbered]
    split
    · have hpush := push_arena source (completeIn fs ++ Node.outlineAll outer.reverse)
        (Branch.outlineAll branches.reverse ++
          [(Branch.mk label siblings.reverse ⟨branchStart, position.start⟩).outline])
        ⟨.child, .block block tag.trims, ⟨start, position.stop⟩⟩
      rw [Tree.slots_append, Tree.slots_cons, Tree.slots_nil, ← List.append_assoc, Nat.add_assoc,
        ← Tree.sizeAll_append] at hpush
      simp only [Branch.outline] at hpush
      simp only [pushBranch, completeIn, Opener.held, push_arena, bind, Except.bind, ofResult,
        hpush, State.finishBranch]
      rw [ofState_cons, Node.outline, List.reverse_cons, Branch.outlineAll_concat, Branch.outline]
      rfl
    · rfl

/-- The builder takes a token as the parse does. -/
theorem step_ofState (s : State) (t : Token) :
    (ofState source s).step t = ofResult source (s.step t) := by
  cases ht : t.item with
  | startTag head =>
    by_cases ho : head.opens = true
    · obtain ⟨e, h⟩ := State.exists_step_eq_ok_iff.2 (Move.openElement (s := s) ht ho)
      simp only [step, ht, ho, if_true, openElement_ofState, h, ofResult]
    · simp only [step, ht, if_neg ho]
      exact inline_ofState source s (by simp [ht, Lexeme.symbol, ho])
  | endTag name gap =>
    simp only [step, State.step, ht]
    exact endTag_ofState source s name.key t.span
  | tag inner =>
    simp only [step, State.step, State.liquidTag, ht]
    cases hr : Keyword.roleOf (Tag.ofInner inner).name with
    | opensBlock => simp only [openBlock_ofState, ofResult]
    | startsBranch => exact startBranch_ofState source s (.ofInner inner) t.span
    | closes name => exact endBlock_ofState source s name (.ofInner inner) t.span
    | inline =>
      have h := inline_ofState source s (t := t) (by simp [ht, Lexeme.symbol, hr])
      simpa only [State.step, State.liquidTag, ht, hr] using h
  | invalid flaw rest => simp only [step, State.step, ht, ofResult]
  | _ =>
    simp only [step, ht]
    exact inline_ofState source s (by rw [ht]; rfl)

theorem run_ofState (s : State) (ts : List Token) :
    (ofState source s).run ts = match s.reach ts with
      | .ok s' => (ofState source s').finish
      | .error (fault, _) => .error (.fault fault) := by
  induction ts generalizing s with
  | nil => rfl
  | cons t ts ih =>
    simp only [run, step_ofState, State.reach]
    cases s.step t with
    | error fault => rfl
    | ok result => exact ih result.1

theorem closing_getLast?_framesOf (frames : List Frame) :
    (framesOf frames).getLast?.map (fun f => f.node.closing) =
      frames.getLast?.map fun f => f.opener.closing := by
  induction frames with
  | nil => rfl
  | cons f fs ih =>
    cases fs with
    | nil => simp [framesOf, closing_numbered]
    | cons g fs => simpa [framesOf, List.getLast?_cons_cons] using ih

/-- With nothing open, the document takes all trees as its content. -/
theorem finish_ofState (siblings : List Node) :
    (ofState source ⟨siblings, []⟩).finish = .ok (Document.mk source siblings.reverse).records := by
  have h := Record.link_layoutAll 0 (Node.outlineAll siblings.reverse)
    [⟨0, none, ⟨.child, .document, .ofText 0 source⟩,
      Tree.slots 1 (Node.outlineAll siblings.reverse)⟩] []
  rw [Document.records_eq]
  simpa [finish, ofState, framesOf, completeIn, arena, Tree.sizeAll, Tree.slots, Document.outline,
    Document.position, Tree.value] using h

/-- The builder and the parse agree on every template. -/
theorem build_eq (source : Text) :
    build source = match Document.parse source with
      | .ok d => .ok d.records
      | .error r => .error (.fault r.fault) := by
  have hinit : initial source = ofState source State.initial := by
    simp [initial, ofState, State.initial, arena, completeIn, framesOf, Node.outlineAll,
      Tree.numberAll, Record.layoutAll]
  rw [build, hinit, run_ofState]
  simp only [Document.parse, Document.run, State.run_eq]
  cases State.initial.reach (Token.ofText source) with
  | error fault => rfl
  | ok s =>
    obtain ⟨siblings, frames⟩ := s
    cases hf : frames.getLast? with
    | none =>
      obtain rfl := List.getLast?_eq_none_iff.1 hf
      exact finish_ofState source siblings
    | some f =>
      have hlast := closing_getLast?_framesOf frames
      rw [hf] at hlast
      obtain ⟨g, hg, hclosing⟩ := Option.map_eq_some_iff.1 hlast
      have hg : (framesOf frames).getLast? = some g := hg
      simp only [finish, ofState, hg, hclosing, State.finish, hf, Document.ofOutcome]
      rfl

end Builder

open Record

/-- **One tree in post-order**: the arena of a document that was parsed has each record at its
number. Walking it from the root in post-order meets all other numbers once, in order; the root has
no parent, and the parent of every other record is the one record that holds it. Making the records
while parsing gives the same arena, and never links a record twice or one that does not exist,
whatever the template. -/
theorem Document.records_of_parse (source : Text) :
    (∀ id, Builder.build source ≠ .error (.linkedTwice id)) ∧
    (∀ id, Builder.build source ≠ .error (.missing id)) ∧
    ∀ d, parse source = .ok d →
      Builder.build source = .ok d.records ∧
      d.records.length = d.size ∧
      (∀ (i : Nat) (r : Record), d.records[i]? = some r → r.id = i) ∧
      (∃ root, d.records[0]? = some root ∧ root.parent = none ∧
        ∀ ids, PostOrder d.records root.contentIds ids ↔
          ids = List.range' 1 (d.records.length - 1)) ∧
      ∀ (i : Nat) (r : Record), 0 < i → d.records[i]? = some r →
        ∃ p holder, r.parent = some p ∧ d.records[p]? = some holder ∧ i ∈ holder.contentIds ∧
          ∀ (q : Nat) (r' : Record), d.records[q]? = some r' → i ∈ r'.contentIds → q = p := by
  have hbuild := Builder.build_eq source
  refine ⟨fun id h => ?_, fun id h => ?_, fun d h => ⟨?_, ?_, ?_, ?_, ?_⟩⟩
  · rw [hbuild] at h
    split at h <;> cases h
  · rw [hbuild] at h
    split at h <;> cases h
  · rw [hbuild, h]
  · exact d.length_records
  · exact fun i r hr => d.numbered_records.id_eq hr
  · obtain ⟨root, hroot, hparent, hwalk⟩ := d.postOrder_records
    refine ⟨root, hroot, hparent, fun ids => ⟨fun h => h.unique hwalk, ?_⟩⟩
    rintro rfl
    exact hwalk
  · exact fun i r hi hr => d.exists_unique_holder hi hr

/-- A dynamic name, an attribute with two parts, and a block with two branches. -/
theorem Document.records_of_parse_nested :
    ∃ d, parse "<{{n}} a=x{{y}}>{% if b %}c{% else %}{% endif %}</{{n}}>".toList = .ok d ∧
      d.records.length = 10 ∧
      Builder.build "<{{n}} a=x{{y}}>{% if b %}c{% else %}{% endif %}</{{n}}>".toList =
        .ok d.records := by
  have hlen : outcomeEvent
      (parse "<{{n}} a=x{{y}}>{% if b %}c{% else %}{% endif %}</{{n}}>".toList) = .accepted 10 := by
    decide +kernel
  cases h : parse "<{{n}} a=x{{y}}>{% if b %}c{% else %}{% endif %}</{{n}}>".toList with
  | ok d =>
    rw [h] at hlen
    obtain ⟨hbuild, hsize, -⟩ := (records_of_parse _).2.2 d h
    exact ⟨d, rfl, hsize.trans (Event.accepted.inj hlen), hbuild⟩
  | error r => rw [h] at hlen; cases hlen

end LiquidTemplate
