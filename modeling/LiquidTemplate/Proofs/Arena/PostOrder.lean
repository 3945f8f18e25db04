import LiquidTemplate.Proofs.Arena.Layout

/-!
# An arena is one tree in post-order

From the contents of its records an arena can be walked in post-order (`Record.PostOrder`). The walk
from the root of a document meets every other number once, in order, and the parent of a record is
the one record that holds it.
-/

namespace LiquidTemplate.Record

/-- Each record stands at its number. -/
def Numbered (records : List Record) : Prop := records.map Record.id = List.range records.length

namespace Numbered

variable {records : List Record} {r : Record} {i : Nat}

theorem id_eq (h : Numbered records) (hr : records[i]? = some r) : r.id = i := by
  have hmap : (records.map Record.id)[i]? = some r.id := by rw [List.getElem?_map, hr]; rfl
  obtain ⟨hi, -⟩ := List.getElem?_eq_some_iff.1 hr
  rw [h, List.getElem?_range hi] at hmap
  exact (Option.some.inj hmap).symm

theorem getElem?_id (h : Numbered records) (hr : r ∈ records) : records[r.id]? = some r := by
  obtain ⟨i, hi⟩ := List.mem_iff_getElem?.1 hr
  rw [h.id_eq hi, hi]

end Numbered

/-- The walk that visits these nodes in order, each behind all it holds. -/
inductive PostOrder (records : List Record) : List Nat → List Nat → Prop
  | nil : PostOrder records [] []
  | cons {id : Nat} {r : Record} {ids below rest : List Nat} :
    records[id]? = some r → PostOrder records r.contentIds below → PostOrder records ids rest →
      PostOrder records (id :: ids) (below ++ id :: rest)

/-- There is at most one walk. -/
theorem PostOrder.unique {records : List Record} {ids xs ys : List Nat}
    (h : PostOrder records ids xs) (h' : PostOrder records ids ys) : xs = ys := by
  induction h generalizing ys with
  | nil => cases h'; rfl
  | cons hr hb hrest ihb ihrest =>
    cases h' with
    | cons hr' hb' hrest' =>
      obtain rfl := Option.some.inj (hr.symm.trans hr')
      rw [ihb hb', ihrest hrest']

mutual

theorem postOrder_layout {records : List Record} : ∀ (t : Tree Entry) (parent : Option Nat)
    (next : Nat) {ids rest : List Nat},
    (∀ r ∈ layout parent (t.number next).1, records[r.id]? = some r) →
    PostOrder records ids rest →
    PostOrder records ((t.number next).1.slot.2 :: ids) (List.range' next t.size ++ rest)
  | .node entry ts, parent, next, ids, rest, h, hrest => by
    rw [Tree.number_node_fst, layout, List.forall_mem_append] at h
    have hbelow := postOrder_layoutAll ts _ next h.1
    have := PostOrder.cons (h.2 _ (List.mem_singleton_self _)) hbelow hrest
    rw [Tree.number_node_fst, Tree.size, Nat.add_comm 1, List.range'_concat]
    simpa [Tree.slot, Tree.value] using this

/-- Where all records of a layout are found, walking its trees lists their numbers. -/
theorem postOrder_layoutAll {records : List Record} : ∀ (ts : List (Tree Entry))
    (parent : Option Nat) (next : Nat),
    (∀ r ∈ layoutAll parent (Tree.numberAll next ts).1, records[r.id]? = some r) →
    PostOrder records (((Tree.numberAll next ts).1.map Tree.slot).map Prod.snd)
      (List.range' next (Tree.sizeAll ts))
  | [], _, _, _ => .nil
  | t :: ts, parent, next, h => by
    rw [Tree.numberAll_cons_fst, layoutAll, List.forall_mem_append] at h
    have := postOrder_layout t parent next h.1 (postOrder_layoutAll ts parent _ h.2)
    rw [Tree.numberAll_cons_fst, Tree.sizeAll, ← List.range'_append_1]
    exact this

end

/-! ## Parents -/

theorem mem_layout_root (t : Tree (Nat × Entry)) (parent : Option Nat) :
    ∃ r ∈ layout parent t, r.id = t.slot.2 ∧ r.parent = parent := by
  obtain ⟨⟨id, entry⟩, ts⟩ := t
  exact ⟨_, List.mem_append_right _ (List.mem_singleton_self _), rfl, rfl⟩

/-- The roots of a layout have the parent it was made for. -/
theorem mem_layoutAll_root {ts : List (Tree (Nat × Entry))} (parent : Option Nat) {id : Nat}
    (h : id ∈ (ts.map Tree.slot).map Prod.snd) :
    ∃ r ∈ layoutAll parent ts, r.id = id ∧ r.parent = parent := by
  induction ts with
  | nil => cases h
  | cons t ts ih =>
    rcases List.mem_cons.1 h with rfl | h
    · obtain ⟨r, hr, hid⟩ := mem_layout_root t parent
      exact ⟨r, List.mem_append_left _ hr, hid⟩
    · obtain ⟨r, hr, hid⟩ := ih h
      exact ⟨r, List.mem_append_right _ hr, hid⟩

/-- What a record holds has that record as its parent. -/
def ContentLinked (records : List Record) : Prop :=
  ∀ r ∈ records, ∀ c ∈ r.contentIds, ∃ r' ∈ records, r'.id = c ∧ r'.parent = some r.id

theorem ContentLinked.append {rs rs' : List Record} (h : ContentLinked rs)
    (h' : ContentLinked rs') : ContentLinked (rs ++ rs') := by
  intro r hr c hc
  rcases List.mem_append.1 hr with hr | hr
  · obtain ⟨r', hr', h⟩ := h r hr c hc
    exact ⟨r', List.mem_append_left _ hr', h⟩
  · obtain ⟨r', hr', h⟩ := h' r hr c hc
    exact ⟨r', List.mem_append_right _ hr', h⟩

/-- A record that holds the roots of a layout joins it, in whichever place. -/
theorem ContentLinked.insert {ts : List (Tree (Nat × Entry))} {r : Record} {records : List Record}
    (h : ContentLinked (layoutAll (some r.id) ts)) (hr : r.contents = ts.map Tree.slot)
    (hmem : ∀ q, q ∈ records ↔ q = r ∨ q ∈ layoutAll (some r.id) ts) : ContentLinked records := by
  intro q hq c hc
  rcases (hmem q).1 hq with rfl | hq
  · rw [contentIds, hr] at hc
    obtain ⟨r', hr', h⟩ := mem_layoutAll_root (some q.id) hc
    exact ⟨r', (hmem r').2 (.inr hr'), h⟩
  · obtain ⟨r', hr', h⟩ := h q hq c hc
    exact ⟨r', (hmem r').2 (.inr hr'), h⟩

mutual

theorem contentLinked_layout : ∀ (t : Tree (Nat × Entry)) (parent : Option Nat),
    ContentLinked (layout parent t)
  | .node (id, entry) ts, parent =>
    .insert (r := ⟨id, parent, entry, ts.map Tree.slot⟩) (contentLinked_layoutAll ts (some id)) rfl
      fun q => by simp [layout, or_comm]

theorem contentLinked_layoutAll : ∀ (ts : List (Tree (Nat × Entry))) (parent : Option Nat),
    ContentLinked (layoutAll parent ts)
  | [], _ => by simp [ContentLinked, layoutAll]
  | t :: ts, parent => (contentLinked_layout t parent).append (contentLinked_layoutAll ts parent)

end

/-- The parent of a record is one of the records and holds it. -/
def Held (records : List Record) (r : Record) : Prop :=
  ∃ holder ∈ records, r.parent = some holder.id ∧ r.id ∈ holder.contentIds

theorem Held.mono {rs rs' : List Record} {r : Record} (h : Held rs r)
    (hsub : ∀ q ∈ rs, q ∈ rs') : Held rs' r := by
  obtain ⟨holder, hh, hp⟩ := h
  exact ⟨holder, hsub holder hh, hp⟩

/-- If the roots of a layout are held by a record, all of it is held. -/
theorem Held.insert {ts : List (Tree (Nat × Entry))} {r q : Record} {records : List Record}
    (h : (q.parent = some r.id ∧ q.id ∈ (ts.map Tree.slot).map Prod.snd) ∨
      Held (layoutAll (some r.id) ts) q)
    (hr : r.contents = ts.map Tree.slot)
    (hmem : ∀ q, q ∈ records ↔ q = r ∨ q ∈ layoutAll (some r.id) ts) : Held records q := by
  rcases h with ⟨hp, hq⟩ | h
  · exact ⟨r, (hmem r).2 (.inl rfl), hp, by rwa [contentIds, hr]⟩
  · exact h.mono fun q hq => (hmem q).2 (.inr hq)

mutual

theorem held_layout : ∀ (t : Tree (Nat × Entry)) (parent : Option Nat), ∀ r ∈ layout parent t,
    (r.parent = parent ∧ r.id = t.slot.2) ∨ Held (layout parent t) r
  | .node (id, entry) ts, parent, r, hr => by
    rw [layout, List.mem_append, List.mem_singleton] at hr
    rcases hr with hr | rfl
    · exact .inr (.insert (r := ⟨id, parent, entry, ts.map Tree.slot⟩)
        (held_layoutAll ts (some id) r hr) rfl fun q => by simp [layout, or_comm])
    · exact .inl ⟨rfl, rfl⟩

/-- A record of a layout is one of its roots, or its parent is a record that holds it. -/
theorem held_layoutAll : ∀ (ts : List (Tree (Nat × Entry))) (parent : Option Nat),
    ∀ r ∈ layoutAll parent ts,
    (r.parent = parent ∧ r.id ∈ (ts.map Tree.slot).map Prod.snd) ∨ Held (layoutAll parent ts) r
  | [], _, _, hr => by cases hr
  | t :: ts, parent, r, hr => by
    rcases List.mem_append.1 hr with hr | hr
    · rcases held_layout t parent r hr with ⟨hp, hid⟩ | h
      · exact .inl ⟨hp, by simp [hid]⟩
      · exact .inr (h.mono fun q hq => List.mem_append_left _ hq)
    · rcases held_layoutAll ts parent r hr with ⟨hp, hid⟩ | h
      · exact .inl ⟨hp, List.mem_cons_of_mem _ hid⟩
      · exact .inr (h.mono fun q hq => List.mem_append_right _ hq)

end

end LiquidTemplate.Record

namespace LiquidTemplate.Document

open Record

variable (d : Document)

/-- There is one record for each node. -/
theorem length_records : d.records.length = d.size := by
  rw [records_eq, List.length_cons, length_layoutAll, Node.sizeAll_outline, size, Nat.add_comm]

theorem numbered_records : Numbered d.records := by
  rw [Numbered, length_records, records_eq, List.map_cons, map_id_layoutAll, Node.sizeAll_outline,
    List.range_eq_range', size, Nat.add_comm, List.range'_succ]

/-- The records of what the document holds are found by their numbers. -/
theorem forall_layoutAll_getElem? :
    ∀ r ∈ layoutAll (some 0) (Tree.numberAll 1 (Node.outlineAll d.children)).1,
      d.records[r.id]? = some r := by
  intro r hr
  have hmem : r ∈ d.records := by
    rw [records_eq]
    exact List.mem_cons_of_mem _ hr
  exact d.numbered_records.getElem?_id hmem

/-- The walk below the document meets all other numbers once, in order. -/
theorem postOrder_records :
    ∃ root, d.records[0]? = some root ∧ root.parent = none ∧
      PostOrder d.records root.contentIds (List.range' 1 (d.records.length - 1)) := by
  have hwalk := postOrder_layoutAll _ _ _ d.forall_layoutAll_getElem?
  refine ⟨_, by rw [records_eq]; rfl, rfl, ?_⟩
  rw [length_records, size, Nat.add_sub_cancel_left, ← Node.sizeAll_outline]
  exact hwalk

theorem contentLinked_records : ContentLinked d.records := by
  rw [records_eq]
  exact .insert (contentLinked_layoutAll _ (some 0)) rfl fun q => List.mem_cons

/-- Every record but the document's has the one record that holds it as its parent. -/
theorem exists_unique_holder {i : Nat} {r : Record} (hi : 0 < i) (hr : d.records[i]? = some r) :
    ∃ p holder, r.parent = some p ∧ d.records[p]? = some holder ∧ i ∈ holder.contentIds ∧
      ∀ q r', d.records[q]? = some r' → i ∈ r'.contentIds → q = p := by
  have hid := d.numbered_records.id_eq hr
  have hheld : Held d.records r := by
    have hmem := List.mem_of_getElem? hr
    rw [records_eq] at hmem ⊢
    rcases List.mem_cons.1 hmem with rfl | hmem
    · exact absurd hid (Nat.ne_of_lt hi)
    · exact .insert (held_layoutAll _ (some 0) r hmem) rfl fun q => List.mem_cons
  obtain ⟨holder, hh, hp, hc⟩ := hheld
  refine ⟨holder.id, holder, hp, d.numbered_records.getElem?_id hh, hid ▸ hc, fun q r' hq hc' => ?_⟩
  obtain ⟨r'', hr'', hid'', hp''⟩ := d.contentLinked_records r' (List.mem_of_getElem? hq) i hc'
  have : r'' = r := by
    have := d.numbered_records.getElem?_id hr''
    rw [hid''] at this
    exact Option.some.inj (this.symm.trans hr)
  subst this
  rw [← d.numbered_records.id_eq hq]
  exact Option.some.inj (hp''.symm.trans hp)

end LiquidTemplate.Document
