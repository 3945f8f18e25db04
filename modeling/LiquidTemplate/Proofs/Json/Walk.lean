import LiquidTemplate.Proofs.Arena.Walk
import LiquidTemplate.Proofs.Json.Braces

/-!
# A document is written in the order of its walk

Apart from those of positions, the braces that a reader finds in the text of a document are those of
the nodes, in the order in which a walk visits them, and each is nested in that of the node from
which it is visited (`Document.written_in_walk_order`).
-/

namespace LiquidTemplate

def Shown.isPosition : Shown → Bool
  | entry _ => false
  | position _ => true

namespace Json

/-! ## Positions -/

/-- Whether the object at the beginning of a text is a position. -/
def beginsPosition (t : Text) : Bool :=
  (quote "start".toList).isPrefixOf (t.tail.dropWhile fun c => c = '\n' ∨ c = ' ')

/-- The opening braces of a text, without those of positions, each behind the innermost brace that
is open before it. -/
def nodeBraces (t : Text) : List (Option Text × Text) :=
  (braces [] t).filter fun b => !beginsPosition b.2

variable {layout : Layout}

theorem dropWhile_lineBreak_append {n : Nat} {t rest : Text} :
    (layout.lineBreak n ++ (quote t ++ rest)).dropWhile (fun c => c = '\n' ∨ c = ' ') =
      quote t ++ rest := by
  rw [List.dropWhile_append_of_pos fun c hc => decide_eq_true (eq_of_mem_lineBreak hc)]
  rfl

/-- Positions begin like positions, and nodes do not. -/
theorem Shows.beginsPosition_eq {t : Text} {x : Shown} (h : Shows layout t x) :
    beginsPosition t = x.isPosition := by
  obtain ⟨v, level, rest, hform, rfl⟩ := h
  cases x with
  | entry e =>
    obtain ⟨fields, rfl⟩ := hform
    rw [ofNode, object_append, beginsPosition, List.tail_cons, dropWhile_lineBreak_append]
    rfl
  | position p =>
    obtain rfl := hform
    rw [Span.toJson, object_append, beginsPosition, List.tail_cons, dropWhile_lineBreak_append]
    rfl

mutual

/-- Without the positions, the objects of an outline are its nodes. -/
theorem exists_entries : ∀ (t : Tree Entry) {l : Tree (Text × Option Shown)},
    l.map Prod.snd = t.framed → (∀ y ∈ l.values, ∀ x ∈ y.2, Shows layout y.1 x) →
    ∃ n : Tree (Text × Entry), n.map Prod.snd = t ∧
      (∀ y ∈ n.values, Shows layout y.1 (.entry y.2)) ∧
      ∀ holder, ((l.map Prod.fst).listed holder).filter (fun b => !beginsPosition b.2) =
        (n.map Prod.fst).listed holder
  | .node entry ts, .node (text, shown) ls, hl, hshows => by
    rw [Tree.map, Tree.framed, Tree.node.injEq] at hl
    obtain ⟨rfl : shown = some (.entry entry), hls⟩ := hl
    -- the last object in that of a node is its position; the others are its contents
    rw [Tree.mapAll_eq_map, List.map_eq_append_iff] at hls
    obtain ⟨ls, last, rfl, hls, hlast⟩ := hls
    obtain ⟨⟨⟨behind, shown⟩, below⟩, rfl, hleaf⟩ := List.map_eq_singleton_iff.1 hlast
    rw [Tree.map, Tree.leaf, Tree.node.injEq, Tree.mapAll_eq_map, List.map_eq_nil_iff] at hleaf
    obtain ⟨rfl : shown = some (.position entry.position), rfl⟩ := hleaf
    rw [← Tree.mapAll_eq_map] at hls
    rw [Tree.values, Tree.valuesAll_append, List.forall_mem_cons, List.forall_mem_append] at hshows
    obtain ⟨hentry, hcontents, hposition⟩ := hshows
    obtain ⟨ns, rfl, hns, hlisted⟩ := exists_entriesAll ts hls hcontents
    refine ⟨.node (text, entry) ns, rfl, List.forall_mem_cons.2 ⟨hentry _ rfl, hns⟩,
      fun holder => ?_⟩
    have hnode := (hentry _ rfl).beginsPosition_eq
    have hlast := (hposition _ List.mem_cons_self _ rfl).beginsPosition_eq
    rw [Tree.map, Tree.mapAll_append, Tree.listed, Tree.listedAll_append]
    simp [hlisted, hnode, hlast, Shown.isPosition, Tree.mapAll, Tree.map, Tree.listedAll,
      Tree.listed]

theorem exists_entriesAll : ∀ (ts : List (Tree Entry)) {ls : List (Tree (Text × Option Shown))},
    Tree.mapAll Prod.snd ls = Tree.framedAll ts →
    (∀ y ∈ Tree.valuesAll ls, ∀ x ∈ y.2, Shows layout y.1 x) →
    ∃ ns : List (Tree (Text × Entry)), Tree.mapAll Prod.snd ns = ts ∧
      (∀ y ∈ Tree.valuesAll ns, Shows layout y.1 (.entry y.2)) ∧
      ∀ holder, (Tree.listedAll holder (Tree.mapAll Prod.fst ls)).filter
        (fun b => !beginsPosition b.2) = Tree.listedAll holder (Tree.mapAll Prod.fst ns)
  | [], [], _, _ => ⟨[], rfl, List.forall_mem_nil _, fun _ => rfl⟩
  | [], _ :: _, hls, _ | _ :: _, [], hls, _ => by simp [Tree.mapAll, Tree.framedAll] at hls
  | t :: ts, l :: ls, hls, hshows => by
    rw [Tree.mapAll, Tree.framedAll, List.cons.injEq] at hls
    rw [Tree.valuesAll, List.forall_mem_append] at hshows
    obtain ⟨n, rfl, hn, hlisted⟩ := exists_entries t hls.1 hshows.1
    obtain ⟨ns, rfl, hns, hlistedAll⟩ := exists_entriesAll ts hls.2 hshows.2
    refine ⟨n :: ns, rfl, List.forall_mem_append.2 ⟨hn, hns⟩, fun holder => ?_⟩
    rw [Tree.mapAll, Tree.listedAll, List.filter_append, hlisted, hlistedAll]
    rfl

end

end Json

/-! ## Numbers -/

/-- Where every number stands for one thing, what is known of the thing can be told from its
number. -/
theorem exists_of_nodup_fst {α β : Type} [Inhabited β] (f : α → β) {xs : List (Nat × α)}
    (h : (xs.map Prod.fst).Nodup) : ∃ g : Nat → β, ∀ x ∈ xs, g x.1 = f x.2 := by
  induction xs with
  | nil => exact ⟨fun _ => default, List.forall_mem_nil _⟩
  | cons y ys ih =>
    rw [List.map_cons, List.nodup_cons, List.mem_map] at h
    obtain ⟨g, hg⟩ := ih h.2
    refine ⟨fun n => if n = y.1 then f y.2 else g n, List.forall_mem_cons.2 ⟨if_pos rfl, ?_⟩⟩
    intro x hx
    have hne : x.1 ≠ y.1 := fun hxy => h.1 ⟨x, hx, hxy⟩
    exact (if_neg hne).trans (hg x hx)

namespace Document

/-- A tree with the outline of a document is numbered like the document. -/
theorem exists_numbered {α : Type} {d : Document} {n : Tree (α × Entry)}
    (hn : n.map Prod.snd = d.outline) :
    ∃ m : Tree (Nat × (α × Entry)), m.map Prod.snd = n ∧ m.map (Prod.map id Prod.snd) = d.numbered ∧
      (m.values.map Prod.fst).Nodup := by
  obtain ⟨y, ns⟩ := n
  refine ⟨.node (0, y) (Tree.numberAll 1 ns).1, ?_, ?_, ?_⟩
  · rw [Tree.map, Tree.mapAll_snd_numberAll]
  · rw [numbered, ← hn, Tree.map, ← Tree.numberAll_mapAll]
    rfl
  · have hperm : ((0, y) :: Tree.valuesAll (Tree.numberAll 1 ns).1).map Prod.fst |>.Perm
        (List.range' 0 (Tree.sizeAll ns + 1)) := (Tree.perm_numberAll ns 1).cons 0
    exact hperm.nodup_iff.2 List.nodup_range'

/-- The braces of the nodes, each where the node of a number is written. -/
theorem exists_place {d : Document} {layout : Json.Layout} {text : Text}
    (h : d.render? layout = some text) :
    ∃ place : Nat → Text,
      Json.nodeBraces text =
        (none, place 0) :: d.walk.map (fun v => (some (place v.1.1), place v.2.1)) ∧
      ∀ v ∈ d.numbered.values, Json.Shows layout (place v.1) (.entry v.2) := by
  obtain ⟨j, hj, rfl⟩ := Option.map_eq_some_iff.1 h
  have hfinds : Json.Finds layout (Json.chars layout 0 j ++ []) [] (Json.objects .child j) :=
    Json.finds_chars j
  rw [objects_toJson? hj, List.append_nil, ← Json.render_eq] at hfinds
  obtain ⟨located, hlocated, hshown, hbraces⟩ := hfinds
  obtain ⟨ns, hns, hshows, hlisted⟩ := Json.exists_entriesAll [d.outline] hlocated hshown
  rw [Tree.mapAll_eq_map] at hns
  obtain ⟨n, rfl, hn⟩ := List.map_eq_singleton_iff.1 hns
  -- the nodes found in the text are numbered like those of the document, so a number tells the text
  obtain ⟨m, rfl, hnumbered, hnodup⟩ := exists_numbered hn
  obtain ⟨place, hplace⟩ := exists_of_nodup_fst Prod.fst hnodup
  have hplaces : (m.map Prod.snd).map Prod.fst = d.numbered.map fun v => place v.1 := by
    rw [← hnumbered, Tree.map_map, Tree.map_map]
    exact Tree.map_congr m fun x hx => (hplace x hx).symm
  refine ⟨place, ?_, fun v hv => ?_⟩
  · rw [Json.nodeBraces, hbraces, List.head?_nil, Json.braces, List.append_nil, hlisted,
      Tree.mapAll, Tree.mapAll, Tree.listedAll, Tree.listedAll, List.append_nil, hplaces]
    have hmap := Tree.listed_map (fun v => place v.1) d.numbered none
    rw [Option.map_none] at hmap
    rw [hmap, Tree.listed_none, List.map_cons, List.map_map]
    rfl
  · rw [← hnumbered, Tree.values_map, List.mem_map] at hv
    obtain ⟨x, hx, rfl⟩ := hv
    have hvalue : x.2 ∈ Tree.valuesAll [m.map Prod.snd] := by
      rw [Tree.valuesAll, Tree.valuesAll, List.append_nil, Tree.values_map]
      exact List.mem_map_of_mem hx
    have hx' := hshows _ hvalue
    rw [← hplace x hx] at hx'
    exact hx'

/-- **A document is written in the order of its walk.** Let a template be accepted and its document
be written. The braces of the objects in the text that are no positions are, in order, that of the
document and then those of the nodes that a walk of the arena visits. The innermost brace that is
open where a node begins is that of the node from which it is visited. At the brace of a node stands
an object with the type and the position of the node. -/
theorem written_in_walk_order {source text : Text} {d : Document} {layout : Json.Layout}
    (h : parse source = .ok d) (htext : d.render? layout = some text) :
    Builder.build source = .ok d.records ∧
    ∃ root visits, ∃ place : Nat → Text, d.records[0]? = some root ∧
      Walk.after d.records visits.length (.start root) = some ⟨[], visits⟩ ∧
      d.walk = visits.map (fun v => ((v.1.id, v.1.entry), (v.2.id, v.2.entry))) ∧
      Json.nodeBraces text =
        (none, place root.id) :: visits.map (fun v => (some (place v.1.id), place v.2.id)) ∧
      ∀ r ∈ root :: visits.map Prod.snd, ∃ level fields rest,
        place r.id = Json.chars layout level
          (Json.ofNode r.entry.kind.typeName fields r.entry.position) ++ rest := by
  obtain ⟨root, visits, hroot, hpre, hwalk⟩ := d.preOrder_records
  obtain ⟨place, hbraces, hshows⟩ := exists_place htext
  have hrootValue : (root.id, root.entry) = d.numbered.value := by
    rw [records_eq, List.getElem?_cons_zero, Option.some.injEq] at hroot
    rw [← hroot]
    rfl
  rw [← hwalk, List.map_map] at hbraces
  refine ⟨by rw [Builder.build_eq, h], root, visits, place, hroot,
    after_start (List.mem_of_getElem? hroot) hpre, hwalk.symm, ?_,
    List.forall_mem_cons.2 ⟨?_, ?_⟩⟩
  · rw [hbraces, (Prod.mk.inj hrootValue).1]
    rfl
  · obtain ⟨_, level, rest, ⟨fields, rfl⟩, hplace⟩ := hshows (root.id, root.entry)
      (by rw [hrootValue]; exact List.mem_cons_self)
    exact ⟨level, fields, rest, hplace⟩
  · refine List.forall_mem_map.2 fun v hv => ?_
    have hvisit : Record.visit v ∈ d.walk := hwalk ▸ List.mem_map_of_mem hv
    obtain ⟨_, level, rest, ⟨fields, rfl⟩, hplace⟩ := hshows _ (Tree.snd_mem_of_mem_walk hvisit)
    exact ⟨level, fields, rest, hplace⟩

/-- An element with a dynamic name, an attribute of two parts, and a block with quotes and braces in
its text. -/
theorem written_in_walk_order_nested :
    ∃ d text, ∃ place : Nat → Text,
      parse "<{{n}} a=x{{y}}>{% if b %}\x7b\x22\x7d{% endif %}</{{n}}>".toList = .ok d ∧
      d.render? .indented = some text ∧
      Json.nodeBraces text =
        [(none, place 0), (some (place 0), place 8), (some (place 8), place 1),
          (some (place 8), place 4), (some (place 4), place 2), (some (place 4), place 3),
          (some (place 8), place 7), (some (place 7), place 6), (some (place 6), place 5)] := by
  have hcomputed : (parse
      "<{{n}} a=x{{y}}>{% if b %}\x7b\x22\x7d{% endif %}</{{n}}>".toList).toOption.map
      (fun d => ((d.render? .indented).isSome, d.walk.map fun v => (v.1.1, v.2.1))) =
      some (true, [(0, 8), (8, 1), (8, 4), (4, 2), (4, 3), (8, 7), (7, 6), (6, 5)]) := by
    decide +kernel
  obtain ⟨d, hd, hd'⟩ := exists_of_map_parse hcomputed
  obtain ⟨hsome, hids⟩ := Prod.mk.inj hd'
  obtain ⟨text, htext⟩ := Option.isSome_iff_exists.1 hsome
  obtain ⟨-, root, visits, place, hroot, -, hwalk, hbraces, -⟩ := written_in_walk_order hd htext
  have hzero : root.id = 0 := d.numbered_records.id_eq hroot
  have hvisits : visits.map (fun v => (some (place v.1.id), place v.2.id)) =
      (d.walk.map fun v => (v.1.1, v.2.1)).map fun v => (some (place v.1), place v.2) := by
    rw [hwalk, List.map_map, List.map_map]
    rfl
  rw [hzero, hvisits, hids] at hbraces
  exact ⟨d, text, place, hd, htext, hbraces⟩

end Document

end LiquidTemplate
