import LiquidTemplate.Proofs.Arena.Local
import LiquidTemplate.Proofs.Coverage.Entries

/-!
# Entries in order

What a node holds may stand in it in order, one node behind the other (`Entry.Holds`). Trees that
are in order throughout (`Tree.InOrder`) are put together from smaller ones, and in pre-order their
nodes have sorted starts (`Tree.sorted_valuesAll`).
-/

namespace LiquidTemplate

namespace Span

/-- Spans one behind the other, between two offsets. -/
def Chain (start stop : Nat) : List Span → Prop
  | [] => start ≤ stop
  | s :: ss => start ≤ s.start ∧ s.start ≤ s.stop ∧ Chain s.stop stop ss

namespace Chain

variable {start start' stop stop' mid : Nat} {ss us : List Span}

theorem le (h : Chain start stop ss) : start ≤ stop := by
  induction ss generalizing start with
  | nil => exact h
  | cons s ss ih =>
    obtain ⟨h₁, h₂, h₃⟩ := h
    exact Nat.le_trans h₁ (Nat.le_trans h₂ (ih h₃))

/-- Spans between two offsets are between any offsets further out. -/
theorem mono (h : Chain start stop ss) (hstart : start' ≤ start) (hstop : stop ≤ stop') :
    Chain start' stop' ss := by
  induction ss generalizing start start' with
  | nil => exact Nat.le_trans hstart (Nat.le_trans h hstop)
  | cons s ss ih =>
    obtain ⟨h₁, h₂, h₃⟩ := h
    exact ⟨Nat.le_trans hstart h₁, h₂, ih h₃ (Nat.le_refl _)⟩

theorem append (h : Chain start mid ss) (h' : Chain mid stop us) : Chain start stop (ss ++ us) := by
  induction ss generalizing start with
  | nil => exact h'.mono h (Nat.le_refl _)
  | cons s ss ih =>
    obtain ⟨h₁, h₂, h₃⟩ := h
    exact ⟨h₁, h₂, ih h₃⟩

end Chain

end Span

/-! ## Trees in order -/

/-- The node covers something, or it is the first branch of a block, which may be empty. -/
def Entry.Wide (e : Entry) : Prop := e.kind = .branch none ∨ e.position.start < e.position.stop

/-- What the node holds stands in it in order, and covers something. -/
def Entry.Holds (e : Entry) (held : List Entry) : Prop :=
  Span.Chain e.position.start e.position.stop (held.map Entry.position) ∧ ∀ c ∈ held, c.Wide

namespace Tree

/-- Trees one behind the other between two offsets, each of them in order throughout. -/
structure InOrder (start stop : Nat) (ts : List (Tree Entry)) : Prop where
  chain : Span.Chain start stop (ts.map fun t => t.value.position)
  wide : ∀ t ∈ ts, t.value.Wide
  everywhere : EverywhereAll Entry.Holds ts

namespace InOrder

variable {start start' stop stop' mid : Nat} {ts us : List (Tree Entry)}

theorem nil (h : start ≤ stop) : InOrder start stop [] := ⟨h, List.forall_mem_nil _, trivial⟩

theorem mono (h : InOrder start stop ts) (hstart : start' ≤ start) (hstop : stop ≤ stop') :
    InOrder start' stop' ts :=
  ⟨h.chain.mono hstart hstop, h.wide, h.everywhere⟩

theorem append (h : InOrder start mid ts) (h' : InOrder mid stop us) :
    InOrder start stop (ts ++ us) where
  chain := by rw [List.map_append]; exact h.chain.append h'.chain
  wide := List.forall_mem_append.2 ⟨h.wide, h'.wide⟩
  everywhere := everywhereAll_append.2 ⟨h.everywhere, h'.everywhere⟩

/-- A node around trees that are in order. -/
theorem node {e : Entry} (h : InOrder e.position.start e.position.stop ts) (hw : e.Wide) :
    InOrder e.position.start e.position.stop [.node e ts] where
  chain := ⟨Nat.le_refl _, h.chain.le, Nat.le_refl _⟩
  wide := List.forall_mem_singleton.2 hw
  everywhere := by
    refine ⟨⟨⟨?_, ?_⟩, h.everywhere⟩, trivial⟩
    · rw [List.map_map]
      exact h.chain
    · exact List.forall_mem_map.2 h.wide

/-- A node without content. -/
theorem leaf {e : Entry} (h : e.position.start < e.position.stop) :
    InOrder e.position.start e.position.stop [.leaf e] :=
  node (.nil (Nat.le_of_lt h)) (.inr h)

theorem cons {t : Tree Entry} (ht : InOrder start mid [t]) (hts : InOrder mid stop ts) :
    InOrder start stop (t :: ts) :=
  ht.append hts

/-- Trees of located items, each tree within its item. -/
theorem locate {α : Type} {chars : α → Text} {f : Located α → Tree Entry} {xs : List α}
    (h : ∀ x : Located α, x.item ∈ xs →
      InOrder x.start (x.start + Text.size (chars x.item)) [f x]) :
    InOrder start (start + Text.size (xs.flatMap chars))
      ((Located.locate (fun x => Text.size (chars x)) start xs).map f) := by
  induction xs generalizing start with
  | nil => exact nil (Nat.le_add_right _ _)
  | cons x xs ih =>
    rw [Located.locate_cons, List.map_cons, List.flatMap_cons, Text.size_append, ← Nat.add_assoc]
    exact cons (h ⟨start, x⟩ List.mem_cons_self)
      (ih fun y hy => h y (List.mem_cons_of_mem _ hy))

end InOrder

end Tree

/-! ## Starts in pre-order -/

namespace Tree

mutual

theorem within_values : ∀ t : Tree Entry, t.Everywhere Entry.Holds → t.value.Wide →
    ∀ e ∈ t.values, t.value.position.start ≤ e.position.start ∧
      e.position.start ≤ e.position.stop ∧ e.position.stop ≤ t.value.position.stop ∧ e.Wide
  | .node value ts, ⟨⟨hchain, hwide⟩, hts⟩, hvalue => by
    refine List.forall_mem_cons.2 ⟨⟨Nat.le_refl _, hchain.le, Nat.le_refl _, hvalue⟩, ?_⟩
    rw [List.map_map] at hchain
    exact within_valuesAll ts _ _ ⟨hchain, List.forall_mem_map.1 hwide, hts⟩

/-- All nodes of trees that are in order stand between the same offsets. -/
theorem within_valuesAll : ∀ (ts : List (Tree Entry)) (start stop : Nat), InOrder start stop ts →
    ∀ e ∈ valuesAll ts, start ≤ e.position.start ∧ e.position.start ≤ e.position.stop ∧
      e.position.stop ≤ stop ∧ e.Wide
  | [], _, _, _ => List.forall_mem_nil _
  | t :: ts, start, stop, ⟨⟨hstart, hle, hchain⟩, hwide, ht, hts⟩ => by
    rw [List.forall_mem_cons] at hwide
    have hthis := within_values t ht hwide.1
    have hrest := within_valuesAll ts _ stop ⟨hchain, hwide.2, hts⟩
    have hstop := hchain.le
    refine List.forall_mem_append.2 ⟨fun e he => ?_, fun e he => ?_⟩
    · obtain ⟨h₁, h₂, h₃, h₄⟩ := hthis e he
      exact ⟨Nat.le_trans hstart h₁, h₂, Nat.le_trans h₃ hstop, h₄⟩
    · obtain ⟨h₁, h₂, h₃, h₄⟩ := hrest e he
      exact ⟨Nat.le_trans hstart (Nat.le_trans hle h₁), h₂, h₃, h₄⟩

end

mutual

theorem sorted_values : ∀ t : Tree Entry, t.Everywhere Entry.Holds →
    (t.values.map fun e => e.position.start).Pairwise (· ≤ ·)
  | .node value ts, ⟨⟨hchain, hwide⟩, hts⟩ => by
    rw [List.map_map] at hchain
    have hbelow : InOrder value.position.start value.position.stop ts :=
      ⟨hchain, List.forall_mem_map.1 hwide, hts⟩
    rw [values, List.map_cons]
    refine List.pairwise_cons.2 ⟨?_, sorted_valuesAll ts _ _ hbelow⟩
    exact List.forall_mem_map.2 fun e he => (within_valuesAll ts _ _ hbelow e he).1

/-- In pre-order, trees that are in order have sorted starts. -/
theorem sorted_valuesAll : ∀ (ts : List (Tree Entry)) (start stop : Nat), InOrder start stop ts →
    ((valuesAll ts).map fun e => e.position.start).Pairwise (· ≤ ·)
  | [], _, _, _ => .nil
  | t :: ts, start, stop, ⟨⟨hstart, hle, hchain⟩, hwide, ht, hts⟩ => by
    rw [List.forall_mem_cons] at hwide
    have hrest : InOrder t.value.position.stop stop ts := ⟨hchain, hwide.2, hts⟩
    rw [valuesAll, List.map_append]
    refine List.pairwise_append.2 ⟨sorted_values t ht, sorted_valuesAll ts _ stop hrest, ?_⟩
    rw [List.forall_mem_map]
    intro e he
    rw [List.forall_mem_map]
    intro e' he'
    obtain ⟨-, hle₁, hle₂, -⟩ := within_values t ht hwide.1 e he
    exact Nat.le_trans hle₁ (Nat.le_trans hle₂ (within_valuesAll ts _ stop hrest e' he').1)

end

mutual

theorem map_entry_preorder : ∀ (t : Tree Entry) (parent : Nat × Entry) (next : Nat),
    ((t.number next).1.preorder parent).map (fun v => v.2.2) = t.values
  | .node value ts, parent, next => by
    rw [number_node_fst, preorder, List.map_cons, map_entry_preorderAll ts, values]

/-- Numbering does not change what is visited. -/
theorem map_entry_preorderAll : ∀ (ts : List (Tree Entry)) (parent : Nat × Entry) (next : Nat),
    (preorderAll parent (numberAll next ts).1).map (fun v => v.2.2) = valuesAll ts
  | [], _, _ => rfl
  | t :: ts, parent, next => by
    rw [numberAll_cons_fst, preorderAll, List.map_append, map_entry_preorder t,
      map_entry_preorderAll ts, valuesAll]

end

end Tree

end LiquidTemplate
