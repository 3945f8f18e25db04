import LiquidTemplate.Proofs.Arena.Contents
import LiquidTemplate.Proofs.Arena.Simulation

/-!
# Walking an arena

An arena is walked with a stack of numbers that are still to be visited: each round takes the last
one, visits its record and puts what that holds on the stack, the first of it on top. The arena
alone does not say that this ends. Where the records below a node have a pre-order
(`Record.PreOrder`), the rounds visit it and nothing else (`Record.PreOrder.after`), and in the
arena of a document they have one, which meets every number but that of the document once
(`Document.walk_visits_once`).
-/

namespace LiquidTemplate

namespace Record

/-- The visits to these nodes, in order, each before those to what the node holds. A visit is a
record behind the one that holds it. -/
inductive PreOrder (records : List Record) : Record → List Nat → List (Record × Record) → Prop
  | nil {holder : Record} : PreOrder records holder [] []
  | cons {holder r : Record} {id : Nat} {ids : List Nat} {below rest : List (Record × Record)} :
    records[id]? = some r → PreOrder records r r.contentIds below →
      PreOrder records holder ids rest →
      PreOrder records holder (id :: ids) ((holder, r) :: (below ++ rest))

/-- There is at most one pre-order. -/
theorem PreOrder.unique {records : List Record} {holder : Record} {ids : List Nat}
    {vs ws : List (Record × Record)} (h : PreOrder records holder ids vs)
    (h' : PreOrder records holder ids ws) : vs = ws := by
  induction h generalizing ws with
  | nil => cases h'; rfl
  | cons hr hb hrest ihb ihrest =>
    cases h' with
    | cons hr' hb' hrest' =>
      obtain rfl := Option.some.inj (hr.symm.trans hr')
      rw [ihb hb', ihrest hrest']

end Record

/-! ## The loop -/

/-- How far a walk has come: the stack of `walk`, and what it has visited. -/
structure Walk where
  /-- The numbers that are to be visited, the next one last, each with the record that holds it. -/
  pending : List (Nat × Record)
  visits : List (Record × Record)

namespace Walk

/-- The contents of a record, as they are put on the stack. -/
def stacked (r : Record) : List (Nat × Record) := r.contentsByRole.reverse.map fun id => (id, r)

/-- A walk that has visited nothing below this record. -/
def start (root : Record) : Walk := ⟨stacked root, []⟩

variable (records : List Record)

/-- One round of the loop of `walk`: visits the next number. There is none where nothing is pending,
nor where the number has no record. -/
def round (w : Walk) : Option Walk :=
  match w.pending.getLast? with
  | none => none
  | some (id, holder) =>
    match records[id]? with
    | none => none
    | some r => some ⟨w.pending.dropLast ++ stacked r, w.visits ++ [(holder, r)]⟩

/-- Where a walk stands after so many rounds, if there are as many. -/
def after : Nat → Walk → Option Walk
  | 0, w => some w
  | n + 1, w => (w.round records).bind (after n)

end Walk

namespace Record

variable {records : List Record}

/-- The walk visits the pre-order of what is on top of the stack, and then goes on with what is
below that. -/
theorem PreOrder.after (hroles : ∀ r ∈ records, r.contentsByRole = r.contentIds) {holder : Record}
    {ids : List Nat} {vs : List (Record × Record)} (h : PreOrder records holder ids vs)
    (below : List (Nat × Record)) (visits : List (Record × Record)) (n : Nat) :
    Walk.after records (vs.length + n) ⟨below ++ ids.reverse.map fun id => (id, holder), visits⟩ =
      Walk.after records n ⟨below, visits ++ vs⟩ := by
  induction h generalizing below visits n with
  | nil => simp
  | @cons holder r id ids vs ws hr hb hrest ihb ihrest =>
    have hstacked : Walk.stacked r = r.contentIds.reverse.map fun id => (id, r) := by
      rw [Walk.stacked, hroles r (List.mem_of_getElem? hr)]
    have hround : Walk.round records
        ⟨below ++ (id :: ids).reverse.map fun id => (id, holder), visits⟩ =
        some ⟨below ++ (ids.reverse.map fun id => (id, holder)) ++
          r.contentIds.reverse.map fun id => (id, r), visits ++ [(holder, r)]⟩ := by
      rw [← hstacked, List.reverse_cons, List.map_append, ← List.append_assoc]
      simp [Walk.round, hr]
    have hlength : ((holder, r) :: (vs ++ ws)).length + n = (vs.length + (ws.length + n)) + 1 := by
      simp only [List.length_cons, List.length_append]
      omega
    rw [hlength, Walk.after, hround, Option.bind_some, ihb, ihrest]
    simp

/-! ## What is visited -/

/-- A pre-order and a post-order meet the same numbers. -/
theorem PreOrder.perm (hrecords : Numbered records) {holder : Record} {ids xs : List Nat}
    {vs : List (Record × Record)} (h : PreOrder records holder ids vs)
    (h' : PostOrder records ids xs) : (vs.map fun v => v.2.id).Perm xs := by
  induction h generalizing xs with
  | nil => cases h'; exact .nil
  | cons hr hb hrest ihb ihrest =>
    cases h' with
    | cons hr' hb' hrest' =>
      obtain rfl := Option.some.inj (hr.symm.trans hr')
      rw [List.map_cons, List.map_append, hrecords.id_eq hr]
      exact (((ihb hb').append (ihrest hrest')).cons _).trans List.perm_middle.symm

/-- Every visit is to a record of the arena, and from the one that is its parent. -/
theorem PreOrder.forall_visits (hrecords : Numbered records) (hlinked : ContentLinked records)
    {holder : Record} {ids : List Nat} {vs : List (Record × Record)}
    (h : PreOrder records holder ids vs) (hholder : holder ∈ records)
    (hids : ∀ id ∈ ids, id ∈ holder.contentIds) :
    ∀ v ∈ vs, v.1 ∈ records ∧ v.2 ∈ records ∧ v.2.parent = some v.1.id := by
  induction h with
  | nil => exact List.forall_mem_nil _
  | @cons holder r id ids _ _ hr hb hrest ihb ihrest =>
    have hmem := List.mem_of_getElem? hr
    obtain ⟨hid, hids⟩ := List.forall_mem_cons.1 hids
    have hparent : r.parent = some holder.id := by
      obtain ⟨r', hr', hid', hparent⟩ := hlinked holder hholder id hid
      have hget := hrecords.getElem?_id hr'
      rw [hid', hr] at hget
      rw [Option.some.inj hget, hparent]
    exact List.forall_mem_cons.2 ⟨⟨hholder, hmem, hparent⟩, List.forall_mem_append.2
      ⟨ihb hmem fun _ hid => hid, ihrest hholder hids⟩⟩

/-! ## Layouts -/

/-- A visit, without what is known of the two nodes beyond their entries. -/
def visit (v : Record × Record) : (Nat × Entry) × (Nat × Entry) :=
  ((v.1.id, v.1.entry), (v.2.id, v.2.entry))

mutual

theorem preOrder_layout : ∀ (t : Tree Entry) (holder : Record) (next : Nat) {ids : List Nat}
    {rest : List (Record × Record)},
    (∀ r ∈ layout (some holder.id) (t.number next).1, records[r.id]? = some r) →
    PreOrder records holder ids rest →
    ∃ vs, PreOrder records holder ((t.number next).1.slot.2 :: ids) (vs ++ rest) ∧
      vs.map visit = (t.number next).1.preorder (holder.id, holder.entry)
  | .node entry ts, holder, next, ids, rest, h, hrest => by
    rw [Tree.number_node_fst, layout, List.forall_mem_append] at h
    have hr := h.2 _ (List.mem_singleton_self _)
    obtain ⟨vs, hvs, hvisits⟩ := preOrder_layoutAll ts
      ⟨next + Tree.sizeAll ts, some holder.id, entry, (Tree.numberAll next ts).1.map Tree.slot⟩
      next h.1
    rw [Tree.number_node_fst, Tree.preorder]
    refine ⟨_ :: vs, .cons hr hvs hrest, ?_⟩
    rw [List.map_cons, hvisits]
    rfl

/-- Where all records of a layout are found, its pre-order is that of the trees. -/
theorem preOrder_layoutAll : ∀ (ts : List (Tree Entry)) (holder : Record) (next : Nat),
    (∀ r ∈ layoutAll (some holder.id) (Tree.numberAll next ts).1, records[r.id]? = some r) →
    ∃ vs, PreOrder records holder (((Tree.numberAll next ts).1.map Tree.slot).map Prod.snd) vs ∧
      vs.map visit = Tree.preorderAll (holder.id, holder.entry) (Tree.numberAll next ts).1
  | [], _, _, _ => ⟨[], .nil, rfl⟩
  | t :: ts, holder, next, h => by
    rw [Tree.numberAll_cons_fst, layoutAll, List.forall_mem_append] at h
    obtain ⟨rest, hrest, hrestVisits⟩ := preOrder_layoutAll ts holder _ h.2
    obtain ⟨vs, hvs, hvisits⟩ := preOrder_layout t holder next h.1 hrest
    refine ⟨vs ++ rest, ?_, ?_⟩
    · rw [Tree.numberAll_cons_fst]
      exact hvs
    · rw [Tree.numberAll_cons_fst, Tree.preorderAll, List.map_append, hvisits, hrestVisits]

end

end Record

namespace Document

open Record

/-- The nodes below a document have a pre-order, which is the order of its walk. -/
theorem preOrder_records (d : Document) :
    ∃ root visits, d.records[0]? = some root ∧ PreOrder d.records root root.contentIds visits ∧
      visits.map visit = d.walk := by
  obtain ⟨visits, hvisits, hwalk⟩ := preOrder_layoutAll (Node.outlineAll d.children)
    ⟨0, none, d.outline.value, (Tree.numberAll 1 (Node.outlineAll d.children)).1.map Tree.slot⟩
    1 d.forall_layoutAll_getElem?
  refine ⟨_, visits, by rw [records_eq]; rfl, hvisits, ?_⟩
  rw [hwalk, walk, Tree.walk_eq_descendants]
  rfl

/-- The walk visits the pre-order of the nodes below the root, and then nothing is pending. -/
theorem after_start {d : Document} {root : Record} {visits : List (Record × Record)}
    (hroot : root ∈ d.records) (hpre : PreOrder d.records root root.contentIds visits) :
    Walk.after d.records visits.length (.start root) = some ⟨[], visits⟩ := by
  have hafter := hpre.after (fun r => contentsByRole_eq) [] [] 0
  rw [List.nil_append, ← contentsByRole_eq hroot] at hafter
  exact hafter

/-- **A walk visits every node once, in pre-order.** In the arena that is built for a template that
is accepted, the walk from the root has nothing left after as many rounds as there are other nodes:
up to there, no number is without a record. What it visits is the pre-order of the nodes below the
root, the only one there is. Every number but that of the root is visited once, from its parent; and
a record holds its name, attributes, parts and children in this order. -/
theorem walk_visits_once {source : Text} {d : Document} (h : parse source = .ok d) :
    Builder.build source = .ok d.records ∧
    ∃ root visits, d.records[0]? = some root ∧
      Walk.after d.records (d.records.length - 1) (.start root) = some ⟨[], visits⟩ ∧
      (∀ vs, PreOrder d.records root root.contentIds vs ↔ vs = visits) ∧
      visits.length = d.records.length - 1 ∧
      (visits.map fun v => v.2.id).Perm (List.range' 1 (d.records.length - 1)) ∧
      (∀ v ∈ visits, v.1 ∈ d.records ∧ v.2 ∈ d.records ∧ v.2.parent = some v.1.id) ∧
      (∀ r ∈ d.records, r.contentIds =
        r.nameDrop?.toList ++ r.attributes ++ r.valueParts ++ r.children) ∧
      d.walk = visits.map fun v => ((v.1.id, v.1.entry), (v.2.id, v.2.entry)) := by
  obtain ⟨root, visits, hroot, hpre, hwalk⟩ := d.preOrder_records
  obtain ⟨_, hroot', -, hpost⟩ := d.postOrder_records
  obtain rfl := Option.some.inj (hroot.symm.trans hroot')
  have hmem := List.mem_of_getElem? hroot
  have hperm := hpre.perm d.numbered_records hpost
  have hlength : visits.length = d.records.length - 1 := by
    have := hperm.length_eq
    rwa [List.length_map, List.length_range'] at this
  refine ⟨by rw [Builder.build_eq, h], root, visits, hroot, ?_, ?_, hlength, hperm, ?_, ?_,
    hwalk.symm⟩
  · rw [← hlength]
    exact after_start hmem hpre
  · exact fun vs => ⟨fun hvs => hvs.unique hpre, fun hvs => hvs ▸ hpre⟩
  · exact hpre.forall_visits d.numbered_records d.contentLinked_records hmem fun _ hid => hid
  · exact fun r hr => (contentsByRole_eq hr).symm

/-- An element with a dynamic name, an attribute of two parts, and a block with two branches. -/
theorem walk_visits_once_nested :
    ∃ d root visits,
      parse "<{{n}} a=x{{y}}>{% if b %}c{% else %}{% endif %}</{{n}}>".toList = .ok d ∧
      d.records[0]? = some root ∧
      Walk.after d.records 9 (.start root) = some ⟨[], visits⟩ ∧
      (visits.map fun v => (v.1.id, v.2.id)) =
        [(0, 9), (9, 1), (9, 4), (4, 2), (4, 3), (9, 8), (8, 6), (6, 5), (8, 7)] := by
  have hcomputed : (parse
      "<{{n}} a=x{{y}}>{% if b %}c{% else %}{% endif %}</{{n}}>".toList).toOption.map
      (fun d => (d.size, d.walk.map fun v => (v.1.1, v.2.1))) =
      some (10, [(0, 9), (9, 1), (9, 4), (4, 2), (4, 3), (9, 8), (8, 6), (6, 5), (8, 7)]) := by
    decide +kernel
  obtain ⟨d, hd, hd'⟩ := exists_of_map_parse hcomputed
  obtain ⟨hsize, hids⟩ := Prod.mk.inj hd'
  obtain ⟨-, root, visits, hroot, hafter, -, -, -, -, -, hwalk⟩ := walk_visits_once hd
  rw [length_records, hsize] at hafter
  rw [hwalk, List.map_map] at hids
  exact ⟨d, root, visits, hd, hroot, hafter, hids⟩

end Document

end LiquidTemplate
