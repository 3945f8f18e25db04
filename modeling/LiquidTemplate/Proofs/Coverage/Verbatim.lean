import LiquidTemplate.Proofs.Arena.Rewriting
import LiquidTemplate.Proofs.Coverage.Bodies
import LiquidTemplate.Proofs.Coverage.Rewriting
import LiquidTemplate.Proofs.Lexeme.Enclosure
import LiquidTemplate.Proofs.Token.Exchange

/-!
# Bodies are opaque

The body of a comment or a raw element can be exchanged for any that has its first end in the same
place. The new template has the same document but for that body and the offsets behind it, or it is
rejected for the same fault (`Document.parse_exchangeBody`). Both are compared with the template in
which the body is empty, so that offsets only grow.
-/

namespace LiquidTemplate

namespace Rewriting

/-- What starts at `start` has `new` for its body in place of `old`, which stops at `stop`. -/
def exchangeBody (start stop : Nat) (old new : Text) : Rewriting where
  move x := if stop ≤ x then x + Text.size new - Text.size old else x
  opening _ trims := trims
  closing _ trims := trims
  body x t := if x = start then new else t

theorem body_exchangeBody_of_ne {start stop x : Nat} {old new t : Text} (h : x ≠ start) :
    (exchangeBody start stop old new).body x t = t :=
  if_neg h

section Fill

variable {start stop : Nat} {new : Text}

theorem move_fill_of_lt {x : Nat} (h : x < stop) : (exchangeBody start stop [] new).move x = x :=
  if_neg (Nat.not_le_of_lt h)

theorem move_fill_of_le {x : Nat} (h : stop ≤ x) :
    (exchangeBody start stop [] new).move x = x + Text.size new :=
  if_pos h

/-- In front of a body that is filled in nothing changes but what the body stands in. -/
theorem shifts_fill_before {first last : Nat} (hlast : last < stop)
    (h : last ≤ start ∨ start < first) : (exchangeBody start stop [] new).Shifts 0 first last where
  move _ _ hx := move_fill_of_lt (Nat.lt_of_le_of_lt hx hlast)
  opening _ _ _ _ := rfl
  closing _ _ _ _ := rfl
  body _ hx hx' _ := body_exchangeBody_of_ne (by omega)

theorem shifts_fill_behind (h : start < stop) (last : Nat) :
    (exchangeBody start stop [] new).Shifts (Text.size new) stop last where
  move _ hx _ := move_fill_of_le hx
  opening _ _ _ _ := rfl
  closing _ _ _ _ := rfl
  body _ hx _ _ := body_exchangeBody_of_ne (Nat.ne_of_gt (Nat.lt_of_lt_of_le h hx))

end Fill

section Compose

variable {start stop : Nat} {old new : Text}

theorem move_exchangeBody (x : Nat) :
    (exchangeBody start (stop + Text.size old) old new).move
        ((exchangeBody start stop [] old).move x) =
      (exchangeBody start stop [] new).move x := by
  simp only [exchangeBody, Text.size_nil, Nat.sub_zero]
  split <;> split <;> omega

/-- A body that is filled in and then exchanged is filled in as the new one. -/
theorem record_exchangeBody (h : start < stop) (r : Record) :
    (exchangeBody start (stop + Text.size old) old new).record
        ((exchangeBody start stop [] old).record r) =
      (exchangeBody start stop [] new).record r := by
  refine record_record move_exchangeBody (fun _ _ => rfl) (fun _ _ => rfl) (fun x t => ?_) r
  have hmove : (exchangeBody start stop [] old).move x = start ↔ x = start := by
    simp only [exchangeBody, Text.size_nil, Nat.sub_zero]
    split <;> omega
  by_cases hx : x = start
  · exact (if_pos (hmove.2 hx)).trans (if_pos hx).symm
  · rw [body_exchangeBody_of_ne (mt hmove.1 hx), body_exchangeBody_of_ne hx,
      body_exchangeBody_of_ne hx]

end Compose

end Rewriting

namespace Enclosure

variable {e : Enclosure} {body rest : Text}

theorem body?_lexeme (e : Enclosure) (body : Text) : (e.lexeme body).body? = some body := by
  cases e <;> rfl

theorem start_lt_opening (e : Enclosure) (start : Nat) : start < start + Text.size e.opening := by
  refine Nat.lt_add_of_pos_right (Text.size_pos ?_)
  cases e <;> exact List.cons_ne_nil _ _

theorem stop_lexeme (e : Enclosure) (start : Nat) (body : Text) :
    Token.stop ⟨start, e.lexeme body⟩ =
      start + Text.size e.opening + Text.size body + Text.size e.closing := by
  simp only [Token.stop_eq, chars_lexeme, Text.size_append, Nat.add_assoc]

/-- The attributes of an element whose body is filled in. -/
theorem trees_attributes {head : Head} (h : head.ReadBefore rest) (start : Nat) :
    (Rewriting.exchangeBody start (start + Text.size head.chars) [] body).Trees
      ((AttributeNode.ofHead start head).map AttributeNode.outline)
      ((AttributeNode.ofHead start head).map AttributeNode.outline) := by
  obtain ⟨last, hlast, hattributes⟩ := AttributeNode.exists_inOrder_ofHead h start
  have hname : start < (head.nameSpan start).stop :=
    Nat.lt_of_lt_of_le (Nat.lt_succ_self start) (Nat.le_add_right _ _)
  have hshifts : (Rewriting.exchangeBody start (start + Text.size head.chars) [] body).Shifts 0
      (head.nameSpan start).stop last := Rewriting.shifts_fill_before hlast (.inr hname)
  have htrees := hshifts.trees hattributes
  rw [← AttributeNode.map_outline_shift, ← AttributeNode.ofHead_add] at htrees
  exact htrees

/-- A token whose body is filled in. -/
theorem rewritten_fill (h : (e.lexeme []).ReadBefore rest) (start : Nat) :
    Token.Rewritten (.exchangeBody start (start + Text.size e.opening) [] body)
      ⟨start, e.lexeme []⟩ ⟨start, e.lexeme body⟩ := by
  obtain ⟨w, hw⟩ : ∃ w, w = Rewriting.exchangeBody start (start + Text.size e.opening) [] body :=
    ⟨_, rfl⟩
  have hstart : start = w.move start := by
    rw [hw, Rewriting.move_fill_of_lt (e.start_lt_opening start)]
  have hstop : Token.stop ⟨start, e.lexeme body⟩ = w.move (Token.stop ⟨start, e.lexeme []⟩) := by
    rw [hw, stop_lexeme, stop_lexeme, Rewriting.move_fill_of_le (by omega), Text.size_nil]
    omega
  have hbody : w.body start [] = body := by
    rw [hw]
    exact if_pos rfl
  have hspan : Token.span ⟨start, e.lexeme body⟩ = w.span (Token.span ⟨start, e.lexeme []⟩) := by
    rw [Token.span, hstop]
    exact congrArg (Span.mk · _) hstart
  have hentry {k : Text → Kind} (hk : ∀ s t, w.kind s (k t) = k (w.body s.start t)) :
      (⟨.child, k body, Token.span ⟨start, e.lexeme body⟩⟩ : Entry) =
        w.entry ⟨.child, k [], Token.span ⟨start, e.lexeme []⟩⟩ := by
    rw [Rewriting.entry, hk, hspan]
    exact congrArg (fun t => Entry.mk .child (k t) _) hbody.symm
  rw [← hw]
  refine ⟨hstart, hstop, ?_⟩
  cases e with
  | comment => exact .leaf rfl rfl (.node (hentry fun _ _ => rfl) rfl)
  | element head closeName closeRest =>
    exact .leaf rfl rfl (.node (hentry fun _ _ => rfl) (hw ▸ trees_attributes h.1 start))

end Enclosure

namespace Token

open Enclosure (readBefore_lexeme startsConstruct_opening)

variable {e : Enclosure} {source body new : Text} {ts us : List Token} {start : Nat}

/-- The new body is read, in front of the same tokens. -/
theorem next?_exchangeBody (h : ofText source = ts ++ ⟨start, e.lexeme body⟩ :: us)
    (hnew : e.EndsBehind new (e.closing ++ covered us)) :
    Lexeme.next? ((e.lexeme new).chars ++ covered us) = some (e.lexeme new, covered us) :=
  Lexeme.next?_of_readBefore
    ((readBefore_lexeme (readBefore_covered h (e.isConstruct_lexeme body))).2 hnew)

/-- The template in which the body of a token is empty has the same tokens in front, and the same
lexemes behind. -/
theorem exists_ofText_empty {p q : Text}
    (h : ⟨Text.size p, e.lexeme body⟩ ∈ ofText (p ++ ((e.lexeme body).chars ++ q))) :
    ∃ ts us, p = covered ts ∧ q = covered us ∧ e.EndsBehind body (e.closing ++ q) ∧
      ofText (p ++ ((e.lexeme []).chars ++ q)) = ts ++ ⟨Text.size p, e.lexeme []⟩ :: us := by
  obtain ⟨ts, us, hts⟩ := List.append_of_mem h
  obtain ⟨hcut, hsize, -⟩ := ofTextAt_start hts
  obtain ⟨hp, hq⟩ := Text.append_inj_of_size hcut hsize.symm
  have hq : q = covered us := List.append_cancel_left hq
  have hread := readBefore_covered hts (e.isConstruct_lexeme body)
  have hbody := (readBefore_lexeme hread).1 hread
  have hempty := ofText_exchange_locate hts (startsConstruct_opening hread)
    (e.chars_lexeme body) (e.chars_lexeme [])
    (next?_exchangeBody hts (Enclosure.endsBehind_nil hbody.1))
  rw [← hp, ← hq] at hempty
  rw [← hq] at hbody
  refine ⟨ts, _, hp, ?_, hbody, hempty⟩
  rw [covered_eq, map_item_locate, ← covered_eq, hq]

theorem allRewritten_fill (h : ofText source = ts ++ ⟨start, e.lexeme []⟩ :: us)
    (hnew : e.EndsBehind new (e.closing ++ covered us)) :
    AllRewritten (.exchangeBody start (start + Text.size e.opening) [] new) (ofText source)
      (ofText (covered ts ++ ((e.lexeme new).chars ++ covered us))) := by
  have hread := readBefore_covered h (e.isConstruct_lexeme [])
  have hstop : start + Text.size e.opening ≤ stop ⟨start, e.lexeme []⟩ := by
    rw [e.stop_lexeme]
    omega
  have hlt := e.start_lt_opening start
  have hsize : Text.size (e.lexeme new).chars =
      Text.size (e.lexeme []).chars + Text.size new := by
    simp only [e.chars_lexeme, Text.size_append, Text.size_nil]
    omega
  exact allRewritten_exchange h
    (ofText_exchange h (startsConstruct_opening hread) (e.chars_lexeme []) (e.chars_lexeme new)
      (next?_exchangeBody h hnew) hsize)
    (Rewriting.shifts_fill_before hlt (.inl (Nat.le_refl _)))
    (fun x => (Rewriting.shifts_fill_behind hlt x).mono hstop (Nat.le_refl _))
    (e.rewritten_fill hread start)

end Token

namespace Document

open Token

variable {e : Enclosure}

/-- A template in which an empty body is filled in. -/
theorem parse_fill {source new : Text} {ts us : List Token} {start : Nat}
    (h : Token.ofText source = ts ++ ⟨start, e.lexeme []⟩ :: us)
    (hnew : e.EndsBehind new (e.closing ++ covered us)) :
    let source' := covered ts ++ ((e.lexeme new).chars ++ covered us)
    let w := Rewriting.exchangeBody start (start + Text.size e.opening) [] new
    (∀ d, parse source = .ok d →
        ∃ d', parse source' = .ok d' ∧ d'.records = d.records.map w.record) ∧
      ∀ r, parse source = .error r →
        parse source' = .error (.ofFault source' r.fault (w.move r.offset)) := by
  refine parse_rewritten (allRewritten_fill h hnew) ?_
  obtain ⟨hsource, hstart, -⟩ := ofTextAt_start h
  have hzero := Nat.zero_lt_of_lt (e.start_lt_opening start)
  rw [covered_cons, e.chars_lexeme] at hsource
  have hsize : start + Text.size e.opening ≤ Text.size source := by
    rw [hsource]
    simp only [Text.size_append, hstart]
    omega
  rw [Span.ofText, Rewriting.span, Span.ofText, Rewriting.move_fill_of_lt hzero]
  simp only [Nat.zero_add]
  rw [Rewriting.move_fill_of_le hsize, hsource, e.chars_lexeme]
  simp only [Text.size_append, Text.size_nil, Span.mk.injEq, true_and]
  omega

/-- **Bodies are opaque**: the body of a comment or of a raw element can be exchanged for any text
that has its first end where the enclosure has it. If the template has a document, so does the new
one, with the same records but for this: the one node with a body that starts there has the new
body, and the offsets behind the body are moved by as many bytes as it is longer or shorter. If the
template is rejected, the new one is, for the same fault at the same place. -/
theorem parse_exchangeBody {p q old new : Text}
    (ht : ⟨Text.size p, e.lexeme old⟩ ∈
      Token.ofText (p ++ e.opening ++ old ++ e.closing ++ q))
    (hnew : e.EndsBehind new (e.closing ++ q)) :
    let source := p ++ e.opening ++ old ++ e.closing ++ q
    let source' := p ++ e.opening ++ new ++ e.closing ++ q
    let w := Rewriting.exchangeBody (Text.size p) (Text.size (p ++ e.opening ++ old)) old new
    (∀ d, parse source = .ok d → d.bodiesAt (Text.size p) = [old] ∧
        ∃ d', parse source' = .ok d' ∧ d'.records = d.records.map w.record) ∧
      ∀ r, parse source = .error r →
        parse source' = .error (.ofFault source' r.fault (w.move r.offset)) := by
  have hassoc (body : Text) : p ++ e.opening ++ body ++ e.closing ++ q =
      p ++ ((e.lexeme body).chars ++ q) := by
    simp only [e.chars_lexeme, List.append_assoc]
  rw [hassoc] at ht
  simp only [hassoc]
  obtain ⟨ts, us, rfl, rfl, hold, hempty⟩ := exists_ofText_empty ht
  have hlt := e.start_lt_opening (Text.size (covered ts))
  rw [Text.size_append (covered ts ++ _), Text.size_append (covered ts)]
  -- both templates are the one with the empty body, filled in
  have hfillOld := parse_fill hempty hold
  have hfillNew := parse_fill hempty hnew
  cases hparse : parse (covered ts ++ ((e.lexeme []).chars ++ covered us)) with
  | error r₀ =>
    have hrejected := hfillOld.2 r₀ hparse
    refine ⟨fun d h => ?_, fun r h => ?_⟩
    · rw [hrejected] at h
      cases h
    · obtain rfl := Except.error.inj (hrejected.symm.trans h)
      rw [hfillNew.2 r₀ hparse, ← Rewriting.move_exchangeBody]
      rfl
  | ok d₀ =>
    obtain ⟨d₁, hd₁, hrecords₁⟩ := hfillOld.1 d₀ hparse
    obtain ⟨d', hd', hrecords'⟩ := hfillNew.1 d₀ hparse
    refine ⟨fun d h => ⟨bodiesAt_eq h ht (e.body?_lexeme old), d', hd', ?_⟩, fun r h => ?_⟩
    · obtain rfl := Except.ok.inj (hd₁.symm.trans h)
      rw [hrecords', hrecords₁, List.map_map]
      exact List.map_congr_left fun r _ => (Rewriting.record_exchangeBody hlt r).symm
    · rw [hd₁] at h
      cases h

/-- A script gets a body with tags of all kinds, none of which ends it. -/
theorem parse_exchangeBody_script :
    ∃ d d', parse "<p><script a='b'>1</SCRIPT ></p>{{ y }}".toList = .ok d ∧
      d.bodiesAt 3 = ["1".toList] ∧
      parse "<p><script a='b'><!--</p>{{ x }}</scripts>{% if %}</SCRIPT ></p>{{ y }}".toList =
        .ok d' ∧
      d'.records = d.records.map (Rewriting.exchangeBody 3 18 "1".toList
        "<!--</p>{{ x }}</scripts>{% if %}".toList).record := by
  obtain ⟨e, he⟩ : ∃ e, e = Enclosure.element ⟨.fixed "script".toList,
      [⟨" ".toList, "a".toList, some ⟨[], [], some .single, [.text "b".toList]⟩⟩], [], false⟩
      "SCRIPT".toList " ".toList := ⟨_, rfl⟩
  have ht : ⟨Text.size "<p>".toList, e.lexeme "1".toList⟩ ∈ Token.ofText
      ("<p>".toList ++ e.opening ++ "1".toList ++ e.closing ++ "</p>{{ y }}".toList) := by
    rw [he]
    decide +kernel
  have hnew : e.EndsBehind "<!--</p>{{ x }}</scripts>{% if %}".toList
      (e.closing ++ "</p>{{ y }}".toList) := by
    rw [he]
    decide +kernel
  have hsource : "<p>".toList ++ e.opening ++ "1".toList ++ e.closing ++ "</p>{{ y }}".toList =
      "<p><script a='b'>1</SCRIPT ></p>{{ y }}".toList := by
    rw [he]
    decide +kernel
  have hsource' : "<p>".toList ++ e.opening ++ "<!--</p>{{ x }}</scripts>{% if %}".toList ++
      e.closing ++ "</p>{{ y }}".toList =
        "<p><script a='b'><!--</p>{{ x }}</scripts>{% if %}</SCRIPT ></p>{{ y }}".toList := by
    rw [he]
    decide +kernel
  have hstop : Text.size ("<p>".toList ++ e.opening ++ "1".toList) = 18 := by
    rw [he]
    decide +kernel
  have haccepted : (parse "<p><script a='b'>1</SCRIPT ></p>{{ y }}".toList).isOk = true := by
    decide +kernel
  have hok := (parse_exchangeBody ht hnew).1
  rw [hsource, hsource', hstop] at hok
  cases h : parse "<p><script a='b'>1</SCRIPT ></p>{{ y }}".toList with
  | error r => rw [h] at haccepted; cases haccepted
  | ok d =>
    obtain ⟨hbodies, d', hd', hrecords⟩ := hok d h
    exact ⟨d, d', rfl, hbodies, hd', hrecords⟩

end Document

end LiquidTemplate
