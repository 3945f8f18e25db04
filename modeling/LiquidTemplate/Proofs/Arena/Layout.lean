import LiquidTemplate.Tree.Arena
import LiquidTemplate.Proofs.Tree.Size
import LiquidTemplate.Proofs.Tree.Values

/-!
# The layout of an arena

`Record.layoutAll` lists the records of numbered trees without an accumulator: those of a tree's
content, then its own. Numbering is in post-order, so the records stand in the order of their
numbers (`map_id_layoutAll`), and the records of a document are its own and the layout of its
content (`Document.records_eq`).
-/

namespace LiquidTemplate

namespace Tree

variable {α β : Type}

mutual

theorem number_snd : ∀ (t : Tree α) (next : Nat), (t.number next).2 = next + t.size
  | .node value ts, next => by
    simp only [number, size, numberAll_snd ts next]
    omega

/-- Numbering takes as many numbers as there are nodes. -/
theorem numberAll_snd : ∀ (ts : List (Tree α)) (next : Nat),
    (numberAll next ts).2 = next + sizeAll ts
  | [], next => rfl
  | t :: ts, next => by
    simp only [numberAll, sizeAll, number_snd t, numberAll_snd ts, Nat.add_assoc]

end

theorem numberAll_cons_fst (next : Nat) (t : Tree α) (ts : List (Tree α)) :
    (numberAll next (t :: ts)).1 = (t.number next).1 :: (numberAll (next + t.size) ts).1 := by
  simp only [numberAll, number_snd]

theorem numberAll_append_fst (next : Nat) (ts us : List (Tree α)) :
    (numberAll next (ts ++ us)).1 =
      (numberAll next ts).1 ++ (numberAll (next + sizeAll ts) us).1 := by
  induction ts generalizing next with
  | nil => rfl
  | cons t ts ih =>
    rw [List.cons_append, numberAll_cons_fst, numberAll_cons_fst, ih, sizeAll, Nat.add_assoc,
      List.cons_append]

/-- The root comes behind all that it holds. -/
theorem number_node_fst (next : Nat) (value : α) (ts : List (Tree α)) :
    ((node value ts).number next).1 = node (next + sizeAll ts, value) (numberAll next ts).1 := by
  simp only [number, numberAll_snd]

mutual

theorem number_map (f : α → β) : ∀ (t : Tree α) (next : Nat),
    ((t.map f).number next).1 = (t.number next).1.map (Prod.map id f)
  | .node value ts, next => by
    rw [map, number_node_fst, number_node_fst, map, sizeAll_mapAll, numberAll_mapAll f ts]
    rfl

theorem numberAll_mapAll (f : α → β) : ∀ (ts : List (Tree α)) (next : Nat),
    (numberAll next (mapAll f ts)).1 = mapAll (Prod.map id f) (numberAll next ts).1
  | [], _ => rfl
  | t :: ts, next => by
    rw [mapAll, numberAll_cons_fst, numberAll_cons_fst, mapAll, size_map, number_map f t,
      numberAll_mapAll f ts]

end

mutual

theorem map_snd_number : ∀ (t : Tree α) (next : Nat), (t.number next).1.map Prod.snd = t
  | .node value ts, next => by rw [number_node_fst, map, mapAll_snd_numberAll ts]

theorem mapAll_snd_numberAll : ∀ (ts : List (Tree α)) (next : Nat),
    mapAll Prod.snd (numberAll next ts).1 = ts
  | [], _ => rfl
  | t :: ts, next => by
    rw [numberAll_cons_fst, mapAll, map_snd_number t, mapAll_snd_numberAll ts]

end

mutual

theorem perm_number : ∀ (t : Tree α) (next : Nat),
    ((t.number next).1.values.map Prod.fst).Perm (List.range' next t.size)
  | .node value ts, next => by
    rw [number_node_fst, values, size, Nat.add_comm 1, List.range'_concat, Nat.one_mul]
    exact ((perm_numberAll ts next).cons _).trans (List.perm_append_singleton _ _).symm

/-- Numbering gives every number once. -/
theorem perm_numberAll : ∀ (ts : List (Tree α)) (next : Nat),
    ((valuesAll (numberAll next ts).1).map Prod.fst).Perm (List.range' next (sizeAll ts))
  | [], _ => .nil
  | t :: ts, next => by
    rw [numberAll_cons_fst, valuesAll, sizeAll, List.map_append, ← List.range'_append_1]
    exact (perm_number t next).append (perm_numberAll ts _)

end

end Tree

/-- A node in the content of another: its role and its number. -/
abbrev Slot := Role × Nat

/-- The slot of a numbered tree. -/
def Tree.slot (t : Tree (Nat × Entry)) : Slot := (t.value.2.role, t.value.1)

namespace Record

mutual

/-- The records of a numbered tree, by number. -/
def layout (parent : Option Nat) : Tree (Nat × Entry) → List Record
  | .node (id, entry) ts => layoutAll (some id) ts ++ [⟨id, parent, entry, ts.map Tree.slot⟩]

def layoutAll (parent : Option Nat) : List (Tree (Nat × Entry)) → List Record
  | [] => []
  | t :: ts => layout parent t ++ layoutAll parent ts

end

theorem layoutAll_append (parent : Option Nat) (ts us : List (Tree (Nat × Entry))) :
    layoutAll parent (ts ++ us) = layoutAll parent ts ++ layoutAll parent us := by
  induction ts with
  | nil => rfl
  | cons t ts ih => simp [layoutAll, ih]

mutual

theorem reverse_ofTreeOnto : ∀ (t : Tree (Nat × Entry)) (parent : Nat) (done : List Record),
    (ofTreeOnto parent done t).reverse = done.reverse ++ layout (some parent) t
  | .node (id, entry) ts, parent, done => by
    rw [ofTreeOnto, List.reverse_cons, reverse_ofTreesOnto ts id done, layout, List.append_assoc]
    rfl

theorem reverse_ofTreesOnto : ∀ (ts : List (Tree (Nat × Entry))) (parent : Nat)
    (done : List Record),
    (ofTreesOnto parent done ts).reverse = done.reverse ++ layoutAll (some parent) ts
  | [], _, _ => (List.append_nil _).symm
  | t :: ts, parent, done => by
    rw [ofTreesOnto, reverse_ofTreesOnto ts, reverse_ofTreeOnto t, layoutAll, List.append_assoc]

end

mutual

theorem map_id_layout : ∀ (t : Tree Entry) (parent : Option Nat) (next : Nat),
    (layout parent (t.number next).1).map Record.id = List.range' next t.size
  | .node entry ts, parent, next => by
    rw [Tree.number_node_fst, layout, List.map_append, map_id_layoutAll ts, Tree.size,
      Nat.add_comm 1, List.range'_concat]
    simp

/-- The records stand in the order of their numbers. -/
theorem map_id_layoutAll : ∀ (ts : List (Tree Entry)) (parent : Option Nat) (next : Nat),
    (layoutAll parent (Tree.numberAll next ts).1).map Record.id =
      List.range' next (Tree.sizeAll ts)
  | [], _, _ => rfl
  | t :: ts, parent, next => by
    rw [Tree.numberAll_cons_fst, layoutAll, List.map_append, map_id_layout t, map_id_layoutAll ts,
      Tree.sizeAll, List.range'_append_1]

end

theorem length_layoutAll (ts : List (Tree Entry)) (parent : Option Nat) (next : Nat) :
    (layoutAll parent (Tree.numberAll next ts).1).length = Tree.sizeAll ts := by
  rw [← List.length_map (f := Record.id), map_id_layoutAll, List.length_range']

end Record

namespace Document

/-- The records of a document are its own and those of all it holds. -/
theorem records_eq (d : Document) :
    d.records =
      ⟨0, none, d.outline.value, (Tree.numberAll 1 (Node.outlineAll d.children)).1.map Tree.slot⟩ ::
        Record.layoutAll (some 0) (Tree.numberAll 1 (Node.outlineAll d.children)).1 := by
  rw [records, numbered, Record.reverse_ofTreesOnto]
  rfl

end Document

end LiquidTemplate
