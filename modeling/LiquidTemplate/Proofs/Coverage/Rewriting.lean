import LiquidTemplate.Proofs.Coverage.Order
import LiquidTemplate.Proofs.Nesting.Rewriting

/-!
# Tokens that are only moved

Where a rewriting changes nothing but offsets, and those all by the same number of bytes, it moves
trees that stand there in order (`Rewriting.Shifts.trees`), and a token that stands there need only
be moved to fit it (`Token.rewritten_shift`).
-/

namespace LiquidTemplate

open LiquidTemplate.Tree (InOrder)

namespace Rewriting

/-- From `start` to `stop` offsets are moved by `n`, and nothing else changes. -/
structure Shifts (w : Rewriting) (n start stop : Nat) : Prop where
  move : ∀ x, start ≤ x → x ≤ stop → w.move x = x + n
  opening : ∀ x, start ≤ x → x < stop → ∀ trims, w.opening x trims = trims
  closing : ∀ x, start < x → x ≤ stop → ∀ trims, w.closing x trims = trims
  body : ∀ x, start ≤ x → x < stop → ∀ t, w.body x t = t

namespace Shifts

variable {w : Rewriting} {n start stop start' stop' : Nat}

theorem mono (h : w.Shifts n start stop) (hstart : start ≤ start') (hstop : stop' ≤ stop) :
    w.Shifts n start' stop' where
  move x hx hx' := h.move x (by omega) (by omega)
  opening x hx hx' := h.opening x (by omega) (by omega)
  closing x hx hx' := h.closing x (by omega) (by omega)
  body x hx hx' := h.body x (by omega) (by omega)

theorem span (h : w.Shifts n start stop) {s : Span} (hstart : start ≤ s.start)
    (hle : s.start ≤ s.stop) (hstop : s.stop ≤ stop) : w.span s = s.shift n := by
  rw [Rewriting.span, h.move s.start hstart (by omega), h.move s.stop (by omega) hstop]
  rfl

theorem tag (h : w.Shifts n start stop) {x : Nat} (hx : start ≤ x) (hx' : x < stop) (t : Tag) :
    w.tag x t = t := by
  rw [Rewriting.tag, h.opening x hx hx']

theorem kind (h : w.Shifts n start stop) {s : Span} (hstart : start ≤ s.start)
    (hlt : s.start < s.stop) (hstop : s.stop ≤ stop) (k : Kind) : w.kind s k = k := by
  have hopening := h.opening s.start hstart (by omega)
  have hclosing := h.closing s.stop (by omega) hstop
  have hbody := h.body s.start hstart (by omega)
  have htag := h.tag hstart (show s.start < stop by omega)
  cases k with
  | branch label => cases label <;> simp [Rewriting.kind, htag]
  | _ => simp [Rewriting.kind, hopening, hclosing, hbody, htag]

theorem entry (h : w.Shifts n start stop) {e : Entry} (hstart : start ≤ e.position.start)
    (hle : e.position.start ≤ e.position.stop) (hstop : e.position.stop ≤ stop) (hw : e.Wide) :
    w.entry e = e.shift n := by
  obtain ⟨role, kind, position⟩ := e
  rw [Rewriting.entry, h.span hstart hle hstop]
  rcases hw with hk | hlt
  · obtain rfl : kind = .branch none := hk
    rfl
  · rw [h.kind hstart hlt hstop]
    rfl

/-- Trees that stand there in order are moved. -/
theorem trees (h : w.Shifts n start stop) {ts : List (Tree Entry)} (hts : InOrder start stop ts) :
    w.Trees ts (Tree.mapAll (Entry.shift n) ts) := by
  refine Tree.mapAll_congr ts fun e he => ?_
  obtain ⟨hstart, hle, hstop, hw⟩ := Tree.within_valuesAll ts start stop hts e he
  exact (h.entry hstart hle hstop hw).symm

/-- Trees of located items are moved with their items. -/
theorem trees_locate (h : w.Shifts n start stop) {α : Type} {chars : α → Text}
    {f : Located α → Tree Entry} (hf : ∀ x, f (x.shift n) = (f x).map (Entry.shift n))
    {xs : List α}
    (hxs : InOrder start stop ((Located.locate (fun x => Text.size (chars x)) start xs).map f)) :
    w.Trees ((Located.locate (fun x => Text.size (chars x)) start xs).map f)
      ((Located.locate (fun x => Text.size (chars x)) (start + n) xs).map f) := by
  have htrees := h.trees hxs
  have hmap : f ∘ Located.shift n = fun x => (f x).map (Entry.shift n) := funext hf
  rwa [Tree.mapAll_map, ← hmap, ← List.map_map, ← Located.locate_add] at htrees

end Shifts

end Rewriting

/-! ## Tokens -/

/-- The node of a token that is moved. -/
theorem Token.leafNode?_shift (n : Nat) (t : Token) :
    leafNode? (t.shift n) = t.leafNode?.map (Node.shift n) := by
  obtain ⟨start, item⟩ := t
  cases item with
  | text value => exact Node.ofText?_add start n value
  | drop inner => simp only [leafNode?, Located.shift, DropNode.ofInner_add]; rfl
  | tag inner =>
    simp only [leafNode?, Located.shift, span_add]
    split <;> rfl
  | startTag head =>
    simp only [leafNode?, Located.shift, Span.ofText_add, AttributeNode.ofHead_add,
      ElementName.ofHead_add]
    split
    · rfl
    · split <;> rfl
  | comment body => simp only [leafNode?, Located.shift, span_add]; rfl
  | doctype keyword raw => simp only [leafNode?, Located.shift, span_add]; rfl
  | rawElement head body closeName closeRest =>
    simp only [leafNode?, Located.shift, span_add, AttributeNode.ofHead_add]
    rfl
  | rawTag opening body closing => simp only [leafNode?, Located.shift, span_add]; rfl
  | endTag name gap => rfl
  | invalid flaw rest => rfl

namespace Token

variable {w : Rewriting} {n : Nat} {t : Token}

/-- An open element whose start tag is moved. -/
theorem rewritten_element {head : Head} {rest : Text} {start : Nat} (hh : head.ReadBefore rest)
    (h : w.Shifts n start (start + Text.size head.chars)) :
    Opener.Rewritten w (.element start head) (.element (start + n) head) := by
  have hname := ElementName.inOrder_ofHead start head
  have hattributes := AttributeNode.inOrder_ofHead hh start
  refine .element (h.move start (Nat.le_refl _) (Nat.le_add_right _ _)).symm rfl ?_ ?_ ?_
  · rw [ElementName.ofHead_add, ElementName.fixed?_shift]
  · rw [ElementName.ofHead_add, ElementName.outline_shift]
    exact (h.mono (Nat.le_refl _) hattributes.chain.le).trees hname
  · rw [AttributeNode.ofHead_add, AttributeNode.map_outline_shift]
    exact (h.mono hname.chain.le (Nat.le_refl _)).trees hattributes

theorem doesSame_shift (hr : t.item.Read) (h : w.Shifts n t.start t.stop) :
    t.DoesSame w (t.shift n) := by
  cases hleaf : t.leafNode? with
  | some node =>
    refine .leaf hleaf (by rw [leafNode?_shift, hleaf]; rfl) ?_
    have htrees := h.trees (inOrder_leaf hleaf hr)
    rw [Node.outline_shift]
    exact htrees
  | none =>
    obtain ⟨start, item⟩ := t
    cases item with
    | text value =>
      have hblank := Node.ofText?_eq_none_iff.1 hleaf
      exact .blank rfl hblank rfl hblank
    | tag inner =>
      have hne : Keyword.roleOf (Tag.ofInner inner).name ≠ .inline := by
        simpa [leafNode?] using hleaf
      have hlt := start_lt_stop (t := ⟨start, .tag inner⟩) rfl
      have htag := h.tag (Nat.le_refl _) hlt (Tag.ofInner inner)
      cases hrole : Keyword.roleOf (Tag.ofInner inner).name with
      | opensBlock => exact .opening rfl rfl (.inl hrole) htag.symm
      | startsBranch => exact .opening rfl rfl (.inr hrole) htag.symm
      | closes block =>
        exact .closing rfl rfl hrole rfl (h.closing _ hlt (Nat.le_refl _) _).symm
      | inline => exact absurd hrole hne
    | startTag head =>
      obtain ⟨rest, hhead, -⟩ := hr rfl
      have hopens : head.opens = true := by
        simp only [leafNode?] at hleaf
        split at hleaf
        · cases hleaf
        · next hv => simpa [Head.opens, hv] using hleaf
      exact .startTag rfl hopens rfl hopens (rewritten_element hhead h)
    | endTag name gap => exact .endTag rfl rfl rfl
    | invalid flaw rest => exact .invalid rfl rfl
    | _ => cases hleaf

/-- A token that is moved fits a rewriting that only moves there. -/
theorem rewritten_shift (hr : t.item.Read) (h : w.Shifts n t.start t.stop) :
    t.Rewritten w (t.shift n) where
  start := (h.move _ (Nat.le_refl _) (Nat.le_add_right _ _)).symm
  stop := by
    rw [h.move t.stop (Nat.le_add_right _ _) (Nat.le_refl _), stop_eq, stop_eq]
    exact Nat.add_right_comm _ _ _
  doesSame := doesSame_shift hr h

theorem allRewritten_shift {ts : List Token} (hr : ∀ t ∈ ts, t.item.Read)
    (h : ∀ t ∈ ts, w.Shifts n t.start t.stop) : AllRewritten w ts (ts.map (Located.shift n)) := by
  induction ts with
  | nil => exact .nil
  | cons t ts ih =>
    rw [List.forall_mem_cons] at hr h
    exact .cons (rewritten_shift hr.1 h.1) (ih hr.2 h.2)

theorem AllRewritten.append {ts ts' us us' : List Token} (h : AllRewritten w ts ts')
    (h' : AllRewritten w us us') : AllRewritten w (ts ++ us) (ts' ++ us') := by
  induction h with
  | nil => exact h'
  | cons ht _ ih => exact .cons ht ih

/-- A template in which one token is exchanged fits a rewriting that this token fits, and that
changes nothing in front and only moves what is behind. -/
theorem allRewritten_exchange {source source' : Text} {ts us : List Token} {l' : Lexeme}
    (h : ofText source = ts ++ t :: us)
    (h' : ofText source' = ts ++ ⟨t.start, l'⟩ :: us.map (Located.shift n))
    (hbefore : w.Shifts 0 0 t.start) (hafter : ∀ x, w.Shifts n t.stop x)
    (ht : t.Rewritten w ⟨t.start, l'⟩) : AllRewritten w (ofText source) (ofText source') := by
  have hread : ∀ u ∈ ts ++ t :: us, u.item.Read := fun u hu => read_of_mem_ofText (h ▸ hu)
  rw [List.forall_mem_append, List.forall_mem_cons] at hread
  obtain ⟨hfront, hback⟩ := ofText_around h
  have hts : AllRewritten w ts (ts.map (Located.shift 0)) :=
    allRewritten_shift hread.1 fun u hu => hbefore.mono (Nat.zero_le _) (hfront u hu)
  have hus : AllRewritten w us (us.map (Located.shift n)) :=
    allRewritten_shift hread.2.2 fun u hu => (hafter u.stop).mono (hback u hu) (Nat.le_refl _)
  have hsame : ts.map (Located.shift 0) = ts := List.map_id ts
  rw [hsame] at hts
  rw [h, h']
  exact hts.append (.cons ht hus)

end Token

end LiquidTemplate
