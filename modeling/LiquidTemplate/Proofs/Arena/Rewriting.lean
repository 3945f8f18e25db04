import LiquidTemplate.Proofs.Arena.Concatenation
import LiquidTemplate.Proofs.Nesting.Rewriting

/-!
# Records of a template that is rewritten

Numbers and parents depend on the shape of a document only, so the records of a rewritten template
differ in their entries only (`Record.layoutAll_map`). Both templates are rejected for the same
fault, or they have these documents (`Document.parse_rewritten`).
-/

namespace LiquidTemplate

variable {f : Entry → Entry}

namespace Tree

theorem map_slot_numberAll_map (hf : ∀ e, (f e).role = e.role) (ts : List (Tree Entry))
    (next : Nat) :
    (numberAll next (mapAll f ts)).1.map slot = (numberAll next ts).1.map slot := by
  rw [numberAll_mapAll, mapAll_eq_map, List.map_map]
  refine List.map_congr_left fun t _ => ?_
  obtain ⟨⟨number, entry⟩, us⟩ := t
  simp only [Function.comp_apply, map, slot, value, Prod.map, hf, id_eq]

end Tree

namespace Record

mutual

theorem layout_map (hf : ∀ e, (f e).role = e.role) :
    ∀ (t : Tree Entry) (parent : Option Nat) (next : Nat),
      layout parent ((t.map f).number next).1 =
        (layout parent (t.number next).1).map fun r => { r with entry := f r.entry }
  | .node entry ts, parent, next => by
    rw [Tree.map, Tree.number_node_fst, Tree.number_node_fst, Tree.sizeAll_mapAll, layout, layout,
      layoutAll_map hf ts, List.map_append, Tree.map_slot_numberAll_map hf]
    rfl

/-- The records of trees whose entries change, but not their roles. -/
theorem layoutAll_map (hf : ∀ e, (f e).role = e.role) :
    ∀ (ts : List (Tree Entry)) (parent : Option Nat) (next : Nat),
      layoutAll parent (Tree.numberAll next (Tree.mapAll f ts)).1 =
        (layoutAll parent (Tree.numberAll next ts).1).map fun r => { r with entry := f r.entry }
  | [], _, _ => rfl
  | t :: ts, parent, next => by
    rw [Tree.mapAll, Tree.numberAll_cons_fst, Tree.numberAll_cons_fst, Tree.size_map, layoutAll,
      layoutAll, layout_map hf t, layoutAll_map hf ts, List.map_append]

end

end Record

namespace Rewriting

/-- The record of a node whose entry is rewritten. -/
def record (w : Rewriting) (r : Record) : Record := { r with entry := w.entry r.entry }

/-- A rewriting that does what two do one after the other. -/
theorem record_record {w₁ w₂ w : Rewriting} (hmove : ∀ x, w₂.move (w₁.move x) = w.move x)
    (hopening : ∀ x trims, w₂.opening (w₁.move x) (w₁.opening x trims) = w.opening x trims)
    (hclosing : ∀ x trims, w₂.closing (w₁.move x) (w₁.closing x trims) = w.closing x trims)
    (hbody : ∀ x t, w₂.body (w₁.move x) (w₁.body x t) = w.body x t) (r : Record) :
    w₂.record (w₁.record r) = w.record r := by
  obtain ⟨id, parent, ⟨role, k, s⟩, contents⟩ := r
  have htag : ∀ x t, w₂.tag (w₁.move x) (w₁.tag x t) = w.tag x t := fun x t => by
    simp only [tag, hopening]
  have hkind : w₂.kind (w₁.span s) (w₁.kind s k) = w.kind s k := by
    cases k with
    | branch label => cases label <;> simp [kind, span, htag]
    | _ => simp [kind, span, htag, hopening, hclosing, hbody]
  have hspan : w₂.span (w₁.span s) = w.span s := by simp only [span, hmove]
  simp only [record, entry, hkind, hspan]

end Rewriting

namespace Document

variable {w : Rewriting}

theorem records_rewritten {d d' : Document}
    (h : w.Trees (Node.outlineAll d.children) (Node.outlineAll d'.children))
    (hposition : d'.position = w.span d.position) : d'.records = d.records.map w.record := by
  have hrole : ∀ e, (w.entry e).role = e.role := fun _ => rfl
  rw [records_eq, records_eq, h, Record.layoutAll_map hrole, Tree.map_slot_numberAll_map hrole,
    List.map_cons]
  simp only [outline, Tree.value, hposition]
  rfl

/-- A template and one whose tokens are rewritten are rejected for the same fault, or have the same
document but for what the rewriting says. -/
theorem parse_rewritten {source source' : Text}
    (hts : Token.AllRewritten w (Token.ofText source) (Token.ofText source'))
    (hroot : Span.ofText 0 source' = w.span (.ofText 0 source)) :
    (∀ d, parse source = .ok d →
        ∃ d', parse source' = .ok d' ∧ d'.records = d.records.map w.record) ∧
      ∀ r, parse source = .error r →
        parse source' = .error (.ofFault source' r.fault (w.move r.offset)) := by
  have hrun := State.run_rewritten hts [.started (Text.size source)] [.started (Text.size source')]
  constructor
  · intro d hd
    obtain ⟨rfl, hd⟩ := parse_eq_ok_iff_run.1 hd
    rw [run] at hd
    rw [hd] at hrun
    generalize hr : (State.initial.run _ (Token.ofText source')).2 = r at hrun
    cases hrun with
    | ok htrees =>
      refine ⟨⟨source', _⟩, parse_eq_ok_iff_run.2 ⟨rfl, hr⟩, ?_⟩
      exact records_rewritten htrees hroot
  · intro r hd
    obtain ⟨-, hd⟩ := parse_eq_error_iff_run.1 hd
    rw [run] at hd
    rw [hd] at hrun
    generalize hr : (State.initial.run _ (Token.ofText source')).2 = r' at hrun
    cases hrun with
    | error hfault =>
      rw [hfault] at hr
      exact parse_eq_error_iff_run.2 ⟨rfl, hr⟩

end Document

end LiquidTemplate
