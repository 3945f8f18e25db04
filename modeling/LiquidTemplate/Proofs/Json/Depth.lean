import LiquidTemplate.Command.Basic
import LiquidTemplate.Proofs.Arena.Depth
import LiquidTemplate.Proofs.Arena.Simulation

/-!
# How deep a document may be

A node has a JSON form within the levels it may take up if and only if its outline is no higher than
that, whichever way its nodes hang together (`Node.isSome_toJson?`). So a document has one if and
only if no chain of parents is longer than the limit (`Document.serializable_iff_parentChains`).
-/

namespace LiquidTemplate

open Json (below?)
open LiquidTemplate.Tree (height heightAll heightAll_append_le_iff)

/-! ## Lists of nodes -/

/-- A value is made of two parts if both are there. -/
theorem Json.isSome_both {α β γ : Type} (a : Option α) (b : Option β) (f : α → β → γ) :
    (do return f (← a) (← b)).isSome ↔ a.isSome ∧ b.isSome := by
  cases a <;> cases b <;> simp

/-- What a node holds has a JSON form if each of it has one, a level further down. -/
theorem Json.isSome_below? {α : Type} {write : Nat → α → Option Json} {outline : α → Tree Entry}
    {xs : List α} {room : Nat}
    (h : ∀ x ∈ xs, ∀ room, (write room x).isSome ↔ (outline x).height ≤ room) :
    (below? write room xs).isSome ↔ heightAll (xs.map outline) ≤ room := by
  induction xs with
  | nil => simp [below?, heightAll]
  | cons x xs ih =>
    obtain ⟨hx, hxs⟩ := List.forall_mem_cons.1 h
    cases room with
    | zero => simp [below?, heightAll]
    | succ room =>
      rw [below?, isSome_both, hx, ih hxs, List.map_cons, heightAll, Nat.max_le,
        Nat.add_le_add_iff_right]

theorem PartNode.height_outline (p : PartNode) : p.outline.height = 0 := by
  cases p <;> rfl

theorem AttributeNode.isSome_toJson? (room : Nat) (a : AttributeNode) :
    (a.toJson? room).isSome ↔ a.outline.height ≤ room := by
  have hparts : (below? (fun _ p => some (PartNode.toJson p)) room a.parts).isSome ↔
      heightAll (a.parts.map PartNode.outline) ≤ room :=
    Json.isSome_below? fun p _ room => by simp [p.height_outline]
  rw [outline, height, ← parts, ← hparts, toJson?]
  cases below? (fun _ p => some (PartNode.toJson p)) room a.parts <;> rfl

theorem AttributeNode.isSome_listToJson? (room : Nat) (as : List AttributeNode) :
    (listToJson? room as).isSome ↔ heightAll (as.map outline) ≤ room := by
  rw [← Json.isSome_below? fun a _ room => a.isSome_toJson? room, listToJson?]
  cases below? toJson? room as <;> rfl

theorem ElementName.isSome_toJson? (room : Nat) (name : ElementName) :
    (name.toJson? room).isSome ↔ heightAll name.outline ≤ room := by
  cases name with
  | fixed name => simp [toJson?, outline, heightAll]
  | dynamic d =>
    cases room <;> simp [toJson?, outline, heightAll, DropNode.outline, Tree.leaf, height]

/-! ## Nodes -/

mutual

/-- A node has a JSON form within the levels that its outline needs, and within no fewer. -/
theorem Node.isSome_toJson? : ∀ (n : Node) (room : Nat),
    (n.toJson? room).isSome ↔ n.outline.height ≤ room
  | .text _ _, room | .drop _, room | .tag _ _, room | .comment _ _, room | .doctype _ _, room
  | .rawTag _ _ _ _, room => by
    simp [Node.toJson?, Node.outline, DropNode.outline, Tree.leaf, height, heightAll]
  | .rawElement _ _ attributes _, room | .voidElement _ attributes _, room => by
    rw [Node.outline, height, ← AttributeNode.isSome_listToJson?, Node.toJson?]
    cases AttributeNode.listToJson? room attributes <;> rfl
  | .selfClosingElement name attributes _, room => by
    rw [Node.outline, height, heightAll_append_le_iff, ← AttributeNode.isSome_listToJson?,
      ← ElementName.isSome_toJson?, Node.toJson?]
    exact Json.isSome_both _ _ _
  | .element name attributes children _, room => by
    rw [Node.outline, height, heightAll_append_le_iff, heightAll_append_le_iff,
      ← AttributeNode.isSome_listToJson?, ← ElementName.isSome_toJson?,
      ← Node.isSome_belowToJson? children room, Node.toJson?, and_assoc]
    cases name.toJson? room with
    | none => simp
    | some _ => simpa using Json.isSome_both (AttributeNode.listToJson? room attributes) _ _
  | .block _ branches _ _, room => by
    rw [Node.outline, height, ← Branch.isSome_belowToJson? branches room, Node.toJson?]
    cases Branch.belowToJson? room branches <;> rfl

theorem Branch.isSome_toJson? : ∀ (b : Branch) (room : Nat),
    (b.toJson? room).isSome ↔ b.outline.height ≤ room
  | .mk _ children _, room => by
    rw [Branch.outline, height, ← Node.isSome_belowToJson? children room, Branch.toJson?]
    cases Node.belowToJson? room children <;> rfl

theorem Node.isSome_belowToJson? : ∀ (ns : List Node) (room : Nat),
    (Node.belowToJson? room ns).isSome ↔ heightAll (Node.outlineAll ns) ≤ room
  | [], room => by simp [Node.belowToJson?, Node.outlineAll, heightAll]
  | n :: ns, 0 => by simp [Node.belowToJson?, Node.outlineAll, heightAll]
  | n :: ns, room + 1 => by
    rw [Node.belowToJson?, Json.isSome_both, Node.isSome_toJson? n room,
      Node.isSome_belowToJson? ns (room + 1), Node.outlineAll, heightAll, Nat.max_le,
      Nat.add_le_add_iff_right]

theorem Branch.isSome_belowToJson? : ∀ (bs : List Branch) (room : Nat),
    (Branch.belowToJson? room bs).isSome ↔ heightAll (Branch.outlineAll bs) ≤ room
  | [], room => by simp [Branch.belowToJson?, Branch.outlineAll, heightAll]
  | b :: bs, 0 => by simp [Branch.belowToJson?, Branch.outlineAll, heightAll]
  | b :: bs, room + 1 => by
    rw [Branch.belowToJson?, Json.isSome_both, Branch.isSome_toJson? b room,
      Branch.isSome_belowToJson? bs (room + 1), Branch.outlineAll, heightAll, Nat.max_le,
      Nat.add_le_add_iff_right]

end

/-! ## Documents -/

namespace Document

open Record

theorem isSome_toJson? (d : Document) : d.toJson?.isSome ↔ d.outline.height ≤ maxDepth := by
  rw [outline, height, ← Node.isSome_belowToJson?, toJson?]
  cases Node.belowToJson? maxDepth d.children <;> rfl

theorem isSome_render? (d : Document) (layout : Json.Layout) :
    (d.render? layout).isSome ↔ d.toJson?.isSome := by
  rw [render?, Option.isSome_map]

theorem depthMessage_eq :
    depthMessage = "node nesting exceeds the serializable depth of 256".toList := by
  decide

/-- **A document can be written unless a node stands too deep.** In the arena that is built for a
template that is accepted, every node has one chain of parents. The document has a JSON form, and a
text in either layout, if and only if every chain has at most 256 steps; one that is longer, from
whichever node, leaves nothing to print but the message. -/
theorem serializable_iff_parentChains {source : Text} {d : Document} (h : parse source = .ok d) :
    Builder.build source = .ok d.records ∧
    (∀ id < d.records.length, ∃ n, ParentChain d.records id n ∧
      ∀ m, ParentChain d.records id m → m = n) ∧
    (d.toJson?.isSome ↔ ∀ id < d.records.length, ∃ n ≤ 256, ParentChain d.records id n) ∧
    (∀ layout, (d.render? layout).isSome ↔
      ∀ id < d.records.length, ∃ n ≤ 256, ParentChain d.records id n) ∧
    ∀ id n, ParentChain d.records id n → 256 < n →
      d.toJson? = none ∧ (∀ layout, d.render? layout = none) ∧
      ∀ path pretty, (Command.ast path pretty).run (.ok source) =
        .failed ("Error serializing ".toList ++ path ++ ": ".toList ++
          "node nesting exceeds the serializable depth of 256".toList) := by
  have hiff : d.toJson?.isSome ↔ ∀ id < d.records.length, ∃ n ≤ 256, ParentChain d.records id n :=
    d.isSome_toJson?.trans d.parentChains_le_iff.symm
  refine ⟨by rw [Builder.build_eq, h], fun id => d.existsUnique_parentChain, hiff,
    fun layout => (d.isSome_render? layout).trans hiff, fun id n hchain hn => ?_⟩
  have hnone : d.toJson? = none := by
    rw [← Option.not_isSome_iff_eq_none, hiff]
    intro hall
    obtain ⟨m, hm, hchain'⟩ := hall id hchain.lt_length
    rw [hchain.unique hchain'] at hn
    omega
  have hrender (layout : Json.Layout) : d.render? layout = none := by
    rw [render?, hnone, Option.map_none]
  refine ⟨hnone, hrender, fun path pretty => ?_⟩
  rw [← depthMessage_eq]
  simp only [Command.run, h, Command.finish, hrender]

/-- A void element that stands as deep as a node may, without an attribute and with one. -/
theorem serializable_iff_parentChains_attribute :
    (∃ d, parse ((List.replicate 255 "<b>".toList).flatten ++ "<hr>".toList ++
        (List.replicate 255 "</b>".toList).flatten) = .ok d ∧
      d.records.length = 257 ∧ ∀ id < d.records.length, ∃ n ≤ 256, ParentChain d.records id n) ∧
    ∃ d, parse ((List.replicate 255 "<b>".toList).flatten ++ "<hr a>".toList ++
        (List.replicate 255 "</b>".toList).flatten) = .ok d ∧
      d.records.length = 258 ∧ (∃ id n, ParentChain d.records id n ∧ 256 < n) ∧
      d.toJson? = none := by
  have hfits : (parse ((List.replicate 255 "<b>".toList).flatten ++ "<hr>".toList ++
      (List.replicate 255 "</b>".toList).flatten)).toOption.map
      (fun d => (d.size, d.toJson?.isSome)) = some (257, true) := by
    decide +kernel
  have hdeep : (parse ((List.replicate 255 "<b>".toList).flatten ++ "<hr a>".toList ++
      (List.replicate 255 "</b>".toList).flatten)).toOption.map
      (fun d => (d.size, d.toJson?.isSome)) = some (258, false) := by
    decide +kernel
  constructor
  · obtain ⟨d, hd, hd'⟩ := exists_of_map_parse hfits
    obtain ⟨hsize, hsome⟩ := Prod.mk.inj hd'
    exact ⟨d, hd, d.length_records.trans hsize,
      (serializable_iff_parentChains hd).2.2.1.1 hsome⟩
  · obtain ⟨d, hd, hd'⟩ := exists_of_map_parse hdeep
    obtain ⟨hsize, hnone⟩ := Prod.mk.inj hd'
    obtain ⟨-, hchains, hiff, -, hfail⟩ := serializable_iff_parentChains hd
    have hlong : ∃ id n, ParentChain d.records id n ∧ 256 < n := by
      refine Classical.byContradiction fun hno => ?_
      rw [← Bool.not_eq_true, hiff] at hnone
      refine hnone fun id hid => ?_
      obtain ⟨n, hn, -⟩ := hchains id hid
      exact ⟨n, Nat.le_of_not_lt fun hlt => hno ⟨id, n, hn, hlt⟩, hn⟩
    obtain ⟨id, n, hn, hlt⟩ := hlong
    exact ⟨d, hd, d.length_records.trans hsize, ⟨id, n, hn, hlt⟩, (hfail id n hn hlt).1⟩

end Document

end LiquidTemplate
