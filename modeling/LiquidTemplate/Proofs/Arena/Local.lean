import LiquidTemplate.Proofs.Arena.PostOrder

/-!
# Local properties of an arena

The records of a document and the records that each of them refers to are the nodes of its outline
and the nodes that each of those holds (`Document.map_family_records`). So a property of a node and
the nodes it holds, without what is further down, is proved on the outline and then holds of the
records (`Document.of_everywhere`).
-/

namespace LiquidTemplate

namespace Tree

variable {α β : Type} {P : α → List α → Prop}

mutual

/-- The property holds of the value of each node and the values of the nodes it holds. -/
def Everywhere (P : α → List α → Prop) : Tree α → Prop
  | node value children => P value (children.map Tree.value) ∧ EverywhereAll P children

def EverywhereAll (P : α → List α → Prop) : List (Tree α) → Prop
  | [] => True
  | t :: ts => t.Everywhere P ∧ EverywhereAll P ts

end

theorem everywhereAll_iff {ts : List (Tree α)} :
    EverywhereAll P ts ↔ ∀ t ∈ ts, t.Everywhere P := by
  induction ts with
  | nil => simp [EverywhereAll]
  | cons t ts ih => rw [EverywhereAll, ih, List.forall_mem_cons]

theorem everywhereAll_append {ts us : List (Tree α)} :
    EverywhereAll P (ts ++ us) ↔ EverywhereAll P ts ∧ EverywhereAll P us := by
  rw [everywhereAll_iff, everywhereAll_iff, everywhereAll_iff, List.forall_mem_append]

mutual

/-- Each node with the nodes that it holds, behind all below it. -/
def families : Tree α → List (α × List α)
  | node value children => familiesAll children ++ [(value, children.map Tree.value)]

def familiesAll : List (Tree α) → List (α × List α)
  | [] => []
  | t :: ts => t.families ++ familiesAll ts

end

theorem familiesAll_append (ts us : List (Tree α)) :
    familiesAll (ts ++ us) = familiesAll ts ++ familiesAll us := by
  induction ts with
  | nil => rfl
  | cons t ts ih => rw [List.cons_append, familiesAll, familiesAll, ih, List.append_assoc]

mutual

theorem everywhere_iff_families : ∀ t : Tree α, t.Everywhere P ↔ ∀ f ∈ t.families, P f.1 f.2
  | .node value ts => by
    rw [Everywhere, families, List.forall_mem_append, List.forall_mem_singleton,
      everywhereAll_iff_families ts, and_comm]

theorem everywhereAll_iff_families : ∀ ts : List (Tree α),
    EverywhereAll P ts ↔ ∀ f ∈ familiesAll ts, P f.1 f.2
  | [] => by simp [EverywhereAll, familiesAll]
  | t :: ts => by
    rw [EverywhereAll, familiesAll, List.forall_mem_append, everywhere_iff_families t,
      everywhereAll_iff_families ts]

end

end Tree

namespace Record

/-- The node itself, as it stands in the content of another. -/
def slot (r : Record) : Slot := (r.entry.role, r.id)

/-- The records that a record refers to. -/
def heldIn (records : List Record) (r : Record) : List Record :=
  r.contentIds.filterMap fun id => records[id]?

variable {records : List Record} {P : Entry → List Entry → Prop}

theorem ofNode_mem_layoutAll {parent : Option Nat} {ts : List (Tree (Nat × Entry))}
    {t : Tree (Nat × Entry)} (h : t ∈ ts) : ofNode parent t ∈ layoutAll parent ts := by
  obtain ⟨before, after, rfl⟩ := List.append_of_mem h
  obtain ⟨⟨id, entry⟩, us⟩ := t
  rw [layoutAll_append, layoutAll, layout]
  exact List.mem_append_right _ (List.mem_append_left _
    (List.mem_append_right _ (List.mem_singleton_self _)))

/-- Where all records of a layout are found, the records of its roots are. -/
theorem filterMap_slots {parent : Option Nat} {ts : List (Tree (Nat × Entry))}
    (h : ∀ r ∈ layoutAll parent ts, records[r.id]? = some r) :
    ((ts.map Tree.slot).map Prod.snd).filterMap (fun id => records[id]?) =
      ts.map (ofNode parent) := by
  induction ts with
  | nil => rfl
  | cons t ts ih =>
    have hroot := h _ (ofNode_mem_layoutAll List.mem_cons_self)
    have hrest := ih fun r hr => h r (List.mem_append_right _ hr)
    obtain ⟨⟨id, entry⟩, us⟩ := t
    have hid : records[id]? = some (ofNode parent (.node (id, entry) us)) := hroot
    simp only [List.map_cons, List.filterMap_cons, Tree.slot, Tree.value, hid, hrest]

theorem map_entry_ofNode (parent : Option Nat) (next : Nat) (ts : List (Tree Entry)) :
    ((Tree.numberAll next ts).1.map (ofNode parent)).map Record.entry = ts.map Tree.value := by
  induction ts generalizing next with
  | nil => rfl
  | cons t ts ih =>
    obtain ⟨entry, us⟩ := t
    rw [Tree.numberAll_cons_fst, List.map_cons, List.map_cons, List.map_cons, ih,
      Tree.number_node_fst]
    rfl

/-- A record that holds the roots of a layout. -/
theorem heldIn_eq {r : Record} {next : Nat} {ts : List (Tree Entry)}
    (hr : r.contents = (Tree.numberAll next ts).1.map Tree.slot)
    (h : ∀ q ∈ layoutAll (some r.id) (Tree.numberAll next ts).1, records[q.id]? = some q) :
    (heldIn records r).map slot = r.contents ∧
      (heldIn records r).map Record.entry = ts.map Tree.value := by
  have hheld : heldIn records r = (Tree.numberAll next ts).1.map (ofNode (some r.id)) := by
    rw [heldIn, contentIds, hr]
    exact filterMap_slots h
  refine ⟨?_, by rw [hheld, map_entry_ofNode]⟩
  rw [hheld, hr, List.map_map]
  refine List.map_congr_left fun t _ => ?_
  obtain ⟨⟨id, entry⟩, us⟩ := t
  rfl

/-- The entry of a record, and those of the records that it refers to. -/
def family (records : List Record) (r : Record) : Entry × List Entry :=
  (r.entry, (heldIn records r).map Record.entry)

mutual

theorem map_family_layout : ∀ (t : Tree Entry) (parent : Option Nat) (next : Nat),
    (∀ r ∈ layout parent (t.number next).1, records[r.id]? = some r) →
    (∀ r ∈ layout parent (t.number next).1, (heldIn records r).map slot = r.contents) ∧
      (layout parent (t.number next).1).map (family records) = t.families
  | .node entry ts, parent, next, h => by
    rw [Tree.number_node_fst, layout, List.forall_mem_append] at h ⊢
    obtain ⟨hslots, hfamilies⟩ := map_family_layoutAll ts _ next h.1
    obtain ⟨hslots', hentries⟩ := heldIn_eq
      (r := ⟨next + Tree.sizeAll ts, parent, entry, (Tree.numberAll next ts).1.map Tree.slot⟩)
      rfl h.1
    refine ⟨⟨hslots, List.forall_mem_singleton.2 hslots'⟩, ?_⟩
    rw [List.map_append, hfamilies, Tree.families, List.map_singleton, family, hentries]

/-- The records of a layout and those they refer to are the nodes of its trees and those they
hold. -/
theorem map_family_layoutAll : ∀ (ts : List (Tree Entry)) (parent : Option Nat) (next : Nat),
    (∀ r ∈ layoutAll parent (Tree.numberAll next ts).1, records[r.id]? = some r) →
    (∀ r ∈ layoutAll parent (Tree.numberAll next ts).1,
        (heldIn records r).map slot = r.contents) ∧
      (layoutAll parent (Tree.numberAll next ts).1).map (family records) = Tree.familiesAll ts
  | [], _, _, _ => ⟨List.forall_mem_nil _, rfl⟩
  | t :: ts, parent, next, h => by
    rw [Tree.numberAll_cons_fst, layoutAll, List.forall_mem_append] at h ⊢
    obtain ⟨hslots, hfamilies⟩ := map_family_layout t parent next h.1
    obtain ⟨hslots', hfamilies'⟩ := map_family_layoutAll ts parent _ h.2
    exact ⟨⟨hslots, hslots'⟩, by rw [List.map_append, hfamilies, hfamilies', Tree.familiesAll]⟩

end

end Record

namespace Document

/-- The records of the nodes that a node holds. -/
def held (d : Document) (r : Record) : List Record := r.heldIn d.records

/-- The records and those they refer to are the nodes of the outline and those they hold; the
document comes first. -/
theorem map_family_records (d : Document) :
    (∀ r ∈ d.records, (d.held r).map Record.slot = r.contents) ∧
      d.records.map (Record.family d.records) =
        (d.outline.value, d.outline.children.map Tree.value) ::
          Tree.familiesAll (Node.outlineAll d.children) := by
  have hplaced := d.forall_layoutAll_getElem?
  obtain ⟨hslots, hfamilies⟩ := Record.map_family_layoutAll _ (some 0) 1 hplaced
  obtain ⟨hslots', hentries⟩ := Record.heldIn_eq (r := ⟨0, none, d.outline.value, _⟩) rfl hplaced
  refine ⟨fun r hr => ?_, ?_⟩
  · rw [records_eq] at hr
    rcases List.mem_cons.1 hr with rfl | hr
    · exact hslots'
    · exact hslots r hr
  · have hrecords := congrArg (List.map (Record.family d.records)) d.records_eq
    rw [hrecords, List.map_cons, hfamilies, Record.family, hentries]
    rfl

/-- What holds everywhere in the outline holds of each record and those that it holds. -/
theorem of_everywhere {P : Entry → List Entry → Prop} {d : Document} (h : d.outline.Everywhere P) :
    ∀ r ∈ d.records, (d.held r).map Record.slot = r.contents ∧
      P r.entry ((d.held r).map Record.entry) := by
  obtain ⟨hslots, hfamilies⟩ := d.map_family_records
  have hall : ∀ f ∈ d.records.map (Record.family d.records), P f.1 f.2 := by
    rw [hfamilies]
    exact List.forall_mem_cons.2 ⟨h.1, (Tree.everywhereAll_iff_families _).1 h.2⟩
  exact fun r hr => ⟨hslots r hr, hall _ (List.mem_map_of_mem hr)⟩

/-- What is known of the nodes that a record holds, for those in one role. -/
theorem map_idsOf {β : Type} {d : Document} {r : Record} {g : Nat → β} {f : Entry → β}
    (h : (d.held r).map Record.slot = r.contents) (hg : ∀ c ∈ d.held r, g c.id = f c.entry)
    (role : Role) :
    (r.idsOf role).map g =
      ((d.held r).map Record.entry).filterMap fun e =>
        if e.role = role then some (f e) else none := by
  rw [Record.idsOf, ← h]
  clear h
  generalize d.held r = held at hg
  induction held with
  | nil => rfl
  | cons c held ih =>
    rw [List.forall_mem_cons] at hg
    by_cases hr : c.entry.role = role
    · simpa [Record.slot, List.filterMap_cons, hr, hg.1] using ih hg.2
    · simpa [Record.slot, List.filterMap_cons, hr] using ih hg.2

/-- Every record but the document's is held by one of the records. -/
theorem exists_mem_held {d : Document} {r : Record} (hr : r ∈ d.records) (h : r.id ≠ 0) :
    ∃ holder ∈ d.records, r ∈ d.held holder := by
  have hget := d.numbered_records.getElem?_id hr
  obtain ⟨p, holder, -, hholder, hmem, -⟩ := d.exists_unique_holder (Nat.pos_of_ne_zero h) hget
  exact ⟨holder, List.mem_of_getElem? hholder, List.mem_filterMap.2 ⟨r.id, hmem, hget⟩⟩

end Document

end LiquidTemplate
