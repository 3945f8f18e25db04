import LiquidTemplate.Proofs.Coverage.Marks
import LiquidTemplate.Proofs.Trim.Replaced

/-!
# The trim markers of one construct

A document keeps the trim markers of a construct once, or not at all if the construct is the name in
an end tag (`Document.trimsOf_eq`).
-/

namespace LiquidTemplate

open LiquidTemplate.Tree (InOrder marksAll marksAll_append marksAll_node)

namespace Site

/-- The construct is the one that covers `s`. -/
def isOf (s : Span) : Site → Bool
  | opening start => start = s.start
  | closing stop => stop = s.stop

end Site

/-- Those of the markers that belong to the construct that covers `s`. -/
def Span.own (s : Span) (ms : List Mark) : List Mark := ms.filter fun m => m.1.isOf s

@[simp] theorem Span.own_append (s : Span) (ms ms' : List Mark) :
    s.own (ms ++ ms') = s.own ms ++ s.own ms' :=
  List.filter_append ..

theorem Span.own_opening (s : Span) (trims : Trims) :
    s.own [(.opening s.start, trims)] = [(.opening s.start, trims)] := by
  simp [own, Site.isOf]

theorem Span.own_closing (s : Span) (trims : Trims) :
    s.own [(.closing s.stop, trims)] = [(.closing s.stop, trims)] := by
  simp [own, Site.isOf]

theorem Span.own_opening_of_ne {s : Span} {trims : Trims} {start : Nat} (h : start ≠ s.start) :
    s.own [(.opening start, trims)] = [] := by
  simp [own, Site.isOf, h]

theorem Span.own_closing_of_ne {s : Span} {trims : Trims} {stop : Nat} (h : stop ≠ s.stop) :
    s.own [(.closing stop, trims)] = [] := by
  simp [own, Site.isOf, h]

theorem Site.Within.isOf_eq_false {site : Site} {start stop : Nat} {s : Span}
    (h : site.Within start stop) (hs : s.start < s.stop) (hd : stop ≤ s.start ∨ s.stop ≤ start) :
    site.isOf s = false := by
  cases site with
  | opening x =>
    obtain ⟨h₁, h₂⟩ := h
    exact decide_eq_false (by omega)
  | closing x =>
    obtain ⟨h₁, h₂⟩ := h
    exact decide_eq_false (by omega)

/-- No marker that stands in front of a construct or behind it belongs to it. -/
theorem Span.own_eq_nil {s : Span} {ms : List Mark} (hs : s.start < s.stop)
    (h : ∀ m ∈ ms, ∃ start stop, m.1.Within start stop ∧ (stop ≤ s.start ∨ s.stop ≤ start)) :
    s.own ms = [] := by
  refine List.filter_eq_nil_iff.2 fun m hm => ?_
  obtain ⟨start, stop, hwithin, hd⟩ := h m hm
  rw [hwithin.isOf_eq_false hs hd]
  exact Bool.false_ne_true

namespace Tree

theorem InOrder.own_eq_nil {start stop : Nat} {ts : List (Tree Entry)} {s : Span}
    (h : InOrder start stop ts) (hs : s.start < s.stop)
    (hd : stop ≤ s.start ∨ s.stop ≤ start) : s.own (marksAll ts) = [] :=
  s.own_eq_nil hs fun m hm => ⟨start, stop, h.marks_within m hm, hd⟩

/-- Of located items, only the one that the construct stands in keeps its markers. -/
theorem own_locate {α : Type} {chars : α → Text} {f : Located α → Tree Entry} {xs ys : List α}
    {a : α} {first : Nat} {s : Span} (hs : s.start < s.stop)
    (hxs : ∀ x, InOrder x (x + Text.size (xs.flatMap chars))
      ((Located.locate (fun x => Text.size (chars x)) x xs).map f))
    (hys : ∀ x, InOrder x (x + Text.size (ys.flatMap chars))
      ((Located.locate (fun x => Text.size (chars x)) x ys).map f))
    (hstart : first + Text.size (xs.flatMap chars) ≤ s.start)
    (hstop : s.stop ≤ first + Text.size (xs.flatMap chars) + Text.size (chars a)) :
    s.own (marksAll ((Located.locate (fun x => Text.size (chars x)) first (xs ++ a :: ys)).map f)) =
      s.own (marksAll [f ⟨first + Text.size (xs.flatMap chars), a⟩]) := by
  rw [Located.locate_append, Located.locate_cons, List.map_append, List.map_cons, marksAll_append,
    marksAll_cons, Span.own_append, Span.own_append]
  rw [(hxs first).own_eq_nil hs (.inl hstart), (hys _).own_eq_nil hs (.inr hstop), List.nil_append,
    List.append_nil]

end Tree

/-! ## In a token -/

/-- The trim markers that a document keeps of a construct in a lexeme: none of the name in an end
tag. -/
def Lexeme.keptTrims (l : Lexeme) (inner : Text) : List Trims :=
  match l with
  | .endTag _ _ => []
  | _ => [(Markup.ofInner inner).trims]

section Replaced

variable {inner inner' front : Text} {start : Nat} {s : Span}

theorem Attribute.Replaced.own_marks {a a' : Attribute} (hr : a.Replaced inner inner' front a')
    (h : a.Solid) (hs : s = .ofText (start + Text.size front) (Delimiter.drop.enclose inner)) :
    s.own (marksAll [(AttributeNode.ofAttribute ⟨start + Text.size a.gap, a⟩).outline]) =
      [(.opening s.start, (Markup.ofInner inner).trims)] := by
  cases hr with
  | value gap name before after quote ps qs =>
    have hsolid := h.2 _ rfl
    rw [List.forall_mem_append, List.forall_mem_cons] at hsolid
    obtain ⟨hps, -, hqs⟩ := hsolid
    rw [Attribute.start_drop] at hs
    have hwide : s.start < s.stop := hs ▸ Span.start_lt_ofText (Delimiter.enclose_ne_nil _ inner)
    simp only [AttributeNode.outline, AttributeNode.ofAttribute, Attribute.valueAt?,
      Option.map_some, Option.getD_some, ValueNode.ofValue, Value.piecesAt, List.map_map]
    rw [marksAll_node]
    subst hs
    exact (Tree.own_locate hwide (PartNode.inOrder_locate hps) (PartNode.inOrder_locate hqs)
      (Nat.le_refl _) (Nat.le_refl _)).trans (Span.own_opening _ _)

theorem Head.Replaced.own_marks {h h' : Head} {rest : Text} (hr : h.Replaced inner inner' front h')
    (hread : h.ReadBefore rest)
    (hs : s = .ofText (start + Text.size front) (Delimiter.drop.enclose inner)) :
    s.own (marksAll (h.outline start)) = [(.opening s.start, (Markup.ofInner inner).trims)] := by
  have hsolid := Attribute.solid_of_allReadBefore hread.2.1
  have hwide : s.start < s.stop := hs ▸ Span.start_lt_ofText (Delimiter.enclose_ne_nil _ inner)
  cases hr with
  | name as gap sc =>
    have hattributes := AttributeNode.inOrder_ofHead hread start
    subst hs
    rw [Head.outline, marksAll_append, Span.own_append,
      hattributes.own_eq_nil hwide (.inr (Nat.le_refl _)), List.append_nil]
    exact Span.own_opening _ _
  | @value name as bs gap sc front a a' ha =>
    rw [List.forall_mem_append, List.forall_mem_cons] at hsolid
    obtain ⟨has, hsolid, hbs⟩ := hsolid
    rw [Head.start_attribute] at hs
    have hname := ElementName.inOrder_ofHead start ⟨name, as ++ a :: bs, gap, sc⟩
    obtain ⟨back, hchars, -⟩ := ha.chars
    have hstart : s.start = start + 1 + Text.size name.chars +
      Text.size (as.flatMap Attribute.chars) + Text.size front := by rw [hs]; rfl
    rw [Head.outline, marksAll_append, Span.own_append,
      hname.own_eq_nil hwide (.inl (show start + 1 + Text.size name.chars ≤ _ by omega)),
      List.nil_append, AttributeNode.outline_ofHead]
    refine (Tree.own_locate hwide (AttributeNode.inOrder_locate has)
      (AttributeNode.inOrder_locate hbs) (hstart ▸ Nat.le_add_right _ _) ?_).trans
      (ha.own_marks hsolid hs)
    rw [hs, hchars, Text.size_append, Text.size_append]
    simp only [Span.ofText, Head.nameSpan]
    omega

theorem Lexeme.Replaced.own_marks {d : Delimiter} {t : Token} {l' : Lexeme}
    (hr : t.item.Replaced inner inner' d front l') (hread : t.item.Read)
    (hs : s = .ofText (t.start + Text.size front) (d.enclose inner)) :
    (s.own t.marks).map Prod.snd = t.item.keptTrims inner := by
  have hwide : s.start < s.stop := hs ▸ Span.start_lt_ofText (Delimiter.enclose_ne_nil d inner)
  obtain ⟨start, item⟩ := t
  dsimp only at hr hread hs
  cases hr with
  | drop =>
    subst hs
    exact congrArg (List.map Prod.snd) (Span.own_opening _ _)
  | tag =>
    have hopening : s.start = start := by rw [hs]; rfl
    have hclosing : s.stop = Token.stop ⟨start, .tag inner⟩ := by rw [hs]; rfl
    cases hrole : Keyword.roleOf (Tag.ofInner inner).name with
    | closes block =>
      rw [Token.marks_closing rfl hrole, ← hclosing, Span.own_closing]
      rfl
    | _ =>
      rw [Token.marks_tag rfl (by simp [hrole])]
      dsimp only
      rw [← hopening, Span.own_opening]
      rfl
  | opening body closing =>
    obtain ⟨hlt, -, -⟩ := Token.stop_rawTag start inner body closing
    have hstart : s.start = start := by rw [hs]; rfl
    have hstop : Token.stop ⟨start, .rawTag inner body closing⟩ ≠ s.stop := by
      rw [hs]
      exact Nat.ne_of_gt hlt
    rw [Token.marks_rawTag, Span.own_append, Span.own_closing_of_ne hstop, List.append_nil]
    dsimp only
    rw [← hstart, Span.own_opening]
    rfl
  | closing opening body =>
    obtain ⟨-, hlt, hstop⟩ := Token.stop_rawTag start opening body inner
    have hstart : start ≠ s.start := by
      rw [hs]
      exact Nat.ne_of_lt hlt
    have hstop : Token.stop ⟨start, .rawTag opening body inner⟩ = s.stop := by rw [hs]; exact hstop
    rw [Token.marks_rawTag, Span.own_append, Span.own_opening_of_ne hstart, hstop, Span.own_closing]
    rfl
  | startTag hh =>
    obtain ⟨rest, hhead, -⟩ := hread rfl
    exact congrArg (List.map Prod.snd) (hh.own_marks hhead hs)
  | rawElement body closeName closeRest hh =>
    obtain ⟨rest, hhead, name, hraw, -⟩ := hread rfl
    have hmarks := hh.own_marks hhead hs
    rw [Head.outline, ElementName.outline_of_fixed start (Head.isRawElement_of_rawName? hraw).1,
      List.nil_append] at hmarks
    rw [Token.marks_leaf rfl, Node.outline, marksAll_node]
    exact congrArg (List.map Prod.snd) hmarks
  | endTag gap =>
    rw [Token.marks_endTag rfl]
    rfl

end Replaced

theorem Span.own_eq_nil_of_tokens {s : Span} {ts : List Token} (hs : s.start < s.stop)
    (hr : ∀ t ∈ ts, t.item.Read) (hd : ∀ t ∈ ts, t.stop ≤ s.start ∨ s.stop ≤ t.start) :
    s.own (ts.flatMap Token.marks) = [] := by
  refine s.own_eq_nil hs fun m hm => ?_
  obtain ⟨t, ht, hm⟩ := List.mem_flatMap.1 hm
  exact ⟨t.start, t.stop, Token.marks_within (hr t ht) m hm, hd t ht⟩

/-! ## In a document -/

namespace Document

/-- The trim markers that a document keeps of the construct that covers `s`. -/
def trimsOf (d : Document) (s : Span) : List Trims := (s.own d.marks).map Prod.snd

theorem trimsOf_eq {source : Text} {d : Document} {e : Delimiter} {t : Token} {l' : Lexeme}
    {inner inner' front : Text} (h : parse source = .ok d) (ht : t ∈ Token.ofText source)
    (hr : t.item.Replaced inner inner' e front l') :
    d.trimsOf (.ofText (t.start + Text.size front) (e.enclose inner)) = t.item.keptTrims inner := by
  obtain ⟨ts, us, hts⟩ := List.append_of_mem ht
  obtain ⟨back, hchars, -⟩ := hr.chars
  generalize hs : Span.ofText (t.start + Text.size front) (e.enclose inner) = s
  have hwide : s.start < s.stop := hs ▸ Span.start_lt_ofText (Delimiter.enclose_ne_nil e inner)
  have hstart : t.start ≤ s.start := hs ▸ Nat.le_add_right _ _
  have hstop : s.stop ≤ t.stop := by
    rw [← hs, Token.stop_eq, hchars]
    simp only [Span.ofText, Text.size_append]
    omega
  -- the tokens in front and those behind keep nothing of it
  obtain ⟨hfront, hback⟩ := Token.ofText_around hts
  have hread : ∀ u ∈ ts ++ t :: us, u.item.Read := fun u hu => Token.read_of_mem_ofText (hts ▸ hu)
  rw [List.forall_mem_append, List.forall_mem_cons] at hread
  have hown : (s.own d.marks).Perm (s.own t.marks) := by
    have hperm : (s.own d.marks).Perm (s.own ((Token.ofText source).flatMap Token.marks)) :=
      (marks_perm h).filter _
    rwa [hts, List.flatMap_append, List.flatMap_cons, Span.own_append, Span.own_append,
      s.own_eq_nil_of_tokens hwide hread.1 fun u hu => .inl (Nat.le_trans (hfront u hu) hstart),
      s.own_eq_nil_of_tokens hwide hread.2.2 fun u hu => .inr (Nat.le_trans hstop (hback u hu)),
      List.nil_append, List.append_nil] at hperm
  have hkept := hr.own_marks hread.2.1 hs.symm
  have hperm : (d.trimsOf s).Perm (t.item.keptTrims inner) := hkept ▸ hown.map Prod.snd
  unfold Lexeme.keptTrims at hperm ⊢
  split at hperm
  · exact hperm.eq_nil
  · exact List.perm_singleton.1 hperm

end Document

end LiquidTemplate
