import LiquidTemplate.Proofs.Arena.PostOrder

/-!
# Depth of nodes and height of trees

A node stands as deep as there are steps from it to the document, from parent to parent
(`Record.ParentChain`). In the arena of a document every node has one such chain, and the longest of
them is as long as the outline is high (`Document.parentChains_le_iff`).
-/

namespace LiquidTemplate

namespace Tree

variable {α : Type}

mutual

/-- Number of levels below the root. -/
def height : Tree α → Nat
  | node _ children => heightAll children

/-- Number of levels that trees take up below the node that holds them. -/
def heightAll : List (Tree α) → Nat
  | [] => 0
  | t :: ts => max (t.height + 1) (heightAll ts)

end

theorem heightAll_append_le_iff {ts us : List (Tree α)} {n : Nat} :
    heightAll (ts ++ us) ≤ n ↔ heightAll ts ≤ n ∧ heightAll us ≤ n := by
  induction ts with
  | nil => simp [heightAll]
  | cons t ts ih => simp only [List.cons_append, heightAll, Nat.max_le, ih, and_assoc]

end Tree

namespace Record

/-- Going from parent to parent, it takes so many steps from the record of this number to the one
that has no parent. -/
inductive ParentChain (records : List Record) : Nat → Nat → Prop
  | root {id : Nat} {r : Record} :
    records[id]? = some r → r.parent = none → ParentChain records id 0
  | step {id parent n : Nat} {r : Record} :
    records[id]? = some r → r.parent = some parent → ParentChain records parent n →
      ParentChain records id (n + 1)

variable {records : List Record}

theorem ParentChain.lt_length {id n : Nat} (h : ParentChain records id n) :
    id < records.length := by
  cases h with
  | root hr | step hr => exact (List.getElem?_eq_some_iff.1 hr).1

/-- There is at most one chain. -/
theorem ParentChain.unique {id m n : Nat} (h : ParentChain records id m)
    (h' : ParentChain records id n) : m = n := by
  induction h generalizing n with
  | root hr hp =>
    cases h' with
    | root => rfl
    | step hr' hp' =>
      obtain rfl := Option.some.inj (hr.symm.trans hr')
      cases hp.symm.trans hp'
  | step hr hp _ ih =>
    cases h' with
    | root hr' hp' =>
      obtain rfl := Option.some.inj (hr.symm.trans hr')
      cases hp.symm.trans hp'
    | step hr' hp' hchain =>
      obtain rfl := Option.some.inj (hr.symm.trans hr')
      obtain rfl := Option.some.inj (hp.symm.trans hp')
      rw [ih hchain]

/-- The record of this number has a chain that is no longer than `m`. -/
def ParentChainLE (records : List Record) (m id : Nat) : Prop :=
  ∃ n ≤ m, ParentChain records id n

theorem ParentChain.le_iff {id m n : Nat} (h : ParentChain records id n) :
    ParentChainLE records m id ↔ n ≤ m :=
  ⟨fun ⟨_, hle, h'⟩ => h.unique h' ▸ hle, fun hle => ⟨n, hle, h⟩⟩

mutual

theorem parentChains_layout : ∀ (t : Tree Entry) {parent k m : Nat} {next : Nat},
    ParentChain records parent k →
    (∀ r ∈ layout (some parent) (t.number next).1, records[r.id]? = some r) →
    ((∀ r ∈ layout (some parent) (t.number next).1, ParentChainLE records m r.id) ↔
      k + (t.height + 1) ≤ m)
  | .node entry ts, parent, k, m, next, hparent, h => by
    rw [Tree.number_node_fst, layout, List.forall_mem_append] at h ⊢
    have hroot := ParentChain.step (h.2 _ (List.mem_singleton_self _)) rfl hparent
    rw [List.forall_mem_singleton, hroot.le_iff, Tree.height]
    by_cases hm : k + 1 ≤ m
    · rw [parentChains_layoutAll ts hroot hm h.1]
      omega
    · omega

/-- Where all records of a layout are found, the deepest of them tells its height. -/
theorem parentChains_layoutAll : ∀ (ts : List (Tree Entry)) {parent k m : Nat} {next : Nat},
    ParentChain records parent k → k ≤ m →
    (∀ r ∈ layoutAll (some parent) (Tree.numberAll next ts).1, records[r.id]? = some r) →
    ((∀ r ∈ layoutAll (some parent) (Tree.numberAll next ts).1, ParentChainLE records m r.id) ↔
      k + Tree.heightAll ts ≤ m)
  | [], _, _, _, _, _, hm, _ => ⟨fun _ => hm, fun _ => List.forall_mem_nil _⟩
  | t :: ts, parent, k, m, next, hparent, hm, h => by
    rw [Tree.numberAll_cons_fst, layoutAll, List.forall_mem_append] at h ⊢
    rw [parentChains_layout t hparent h.1, parentChains_layoutAll ts hparent hm h.2, Tree.heightAll]
    omega

end

end Record

namespace Document

open Record

variable (d : Document)

/-- The chains of all nodes are as short as the outline is low. -/
theorem parentChains_le_iff {m : Nat} :
    (∀ id < d.records.length, ParentChainLE d.records m id) ↔ d.outline.height ≤ m := by
  have hroot : ParentChain d.records 0 0 := .root (by rw [records_eq]; rfl) rfl
  have hbelow := parentChains_layoutAll (Node.outlineAll d.children) hroot (Nat.zero_le m)
    d.forall_layoutAll_getElem?
  have hmembers : (∀ id < d.records.length, ParentChainLE d.records m id) ↔
      ∀ r ∈ d.records, ParentChainLE d.records m r.id := by
    constructor
    · intro h r hr
      obtain ⟨hid, -⟩ := List.getElem?_eq_some_iff.1 (d.numbered_records.getElem?_id hr)
      exact h r.id hid
    · intro h id hid
      rw [← d.numbered_records.id_eq (List.getElem?_eq_getElem hid)]
      exact h _ (List.getElem_mem hid)
  rw [hmembers, records_eq, List.forall_mem_cons, ← records_eq, hbelow, hroot.le_iff, Nat.zero_add]
  exact and_iff_right (Nat.zero_le m)

/-- Every node has one chain of parents. -/
theorem existsUnique_parentChain {id : Nat} (hid : id < d.records.length) :
    ∃ n, ParentChain d.records id n ∧ ∀ m, ParentChain d.records id m → m = n := by
  obtain ⟨n, -, hn⟩ := d.parentChains_le_iff.2 (Nat.le_refl _) id hid
  exact ⟨n, hn, fun m hm => hm.unique hn⟩

end Document

end LiquidTemplate
