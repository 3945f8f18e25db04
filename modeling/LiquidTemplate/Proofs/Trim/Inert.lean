import LiquidTemplate.Proofs.Arena.Rewriting
import LiquidTemplate.Proofs.Trim.Kept
import LiquidTemplate.Proofs.Trim.Nodes
import LiquidTemplate.Proofs.Trim.Tokens

/-!
# Trim markers do nothing but to be there

A trim marker that is added to a construct of a template changes none of its other tokens. The new
template has the same document but for that marker and the offsets behind it, or it is rejected for
the same fault (`Document.parse_addMarker`).
-/

namespace LiquidTemplate

/-- Puts `u` into a text behind this many bytes. -/
def Text.insertAt (offset : Nat) (u t : Text) : Text :=
  let parts := splitAtMost offset t
  parts.1 ++ u ++ parts.2

theorem Text.insertAt_size (before u after : Text) :
    insertAt (size before) u (before ++ after) = before ++ u ++ after := by
  rw [insertAt, splitAtMost_size_append]

namespace Side

/-- Where a marker is added to the construct that covers `s`: behind its opening delimiter, or in
front of its closing one. -/
def offset (side : Side) (s : Span) : Nat :=
  match side with
  | start => s.start + 2
  | stop => s.stop - 2

/-- The template with a marker on this side of the construct that covers `s`. -/
def addMarker (side : Side) (s : Span) (source : Text) : Text :=
  Text.insertAt (side.offset s) ['-'] source

/-- What the marker changes in a document: all behind it is moved by a byte, and it is one of the
trim markers of what starts where the construct does, or of the end tag that stops where it does. -/
def rewriting (side : Side) (s : Span) : Rewriting where
  move x := if side.offset s ≤ x then x + 1 else x
  opening x trims := if x = s.start then side.set trims else trims
  closing x trims := if x = s.stop then side.set trims else trims
  body _ t := t

variable {d : Delimiter} {inner : Text}

theorem size_delimiters (hd : d ≠ .comment) :
    Text.size d.opening = 2 ∧ Text.size d.closing = 2 := by
  cases d with
  | comment => exact absurd rfl hd
  | _ => exact ⟨rfl, rfl⟩

theorem addMarker_eq (side : Side) (hd : d ≠ .comment) (before after : Text) :
    side.addMarker (.ofText (Text.size before) (d.enclose inner))
        (before ++ d.enclose inner ++ after) =
      before ++ d.enclose (side.mark inner) ++ after := by
  obtain ⟨hopening, hclosing⟩ := size_delimiters hd
  cases side with
  | start =>
    have hoffset : offset .start (.ofText (Text.size before) (d.enclose inner)) =
        Text.size (before ++ d.opening) := by
      rw [Text.size_append, hopening]
      rfl
    have hinsert := Text.insertAt_size (before ++ d.opening) ['-'] (inner ++ d.closing ++ after)
    rw [addMarker, hoffset]
    simpa [Delimiter.enclose, mark] using hinsert
  | stop =>
    have hoffset : offset .stop (.ofText (Text.size before) (d.enclose inner)) =
        Text.size (before ++ d.opening ++ inner) := by
      simp only [offset, Span.ofText, Delimiter.enclose, Text.size_append]
      omega
    have hinsert := Text.insertAt_size (before ++ d.opening ++ inner) ['-'] (d.closing ++ after)
    rw [addMarker, hoffset]
    simpa [Delimiter.enclose, mark] using hinsert

theorem replaces_rewriting {side : Side} (hd : d ≠ .comment) (h : side.IsFree inner) (start : Nat) :
    (side.rewriting (.ofText start (d.enclose inner))).Replaces d start 1 inner
      (side.mark inner) := by
  obtain ⟨hopening, hclosing⟩ := size_delimiters hd
  have hoffset : start < side.offset (.ofText start (d.enclose inner)) ∧
      side.offset (.ofText start (d.enclose inner)) ≤ start + Text.size (d.enclose inner) := by
    cases side <;> simp only [offset, Span.ofText, Delimiter.enclose, Text.size_append] <;> omega
  obtain ⟨hlt, hle⟩ := hoffset
  have hwide := Nat.lt_of_lt_of_le hlt hle
  exact {
    size := side.size_enclose_mark d inner
    text := by rw [ofInner_mark h]
    before := fun x => {
      move := fun y _ hy => if_neg (by omega)
      opening := fun y _ hy trims => if_neg (Nat.ne_of_lt hy)
      closing := fun y _ hy trims => if_neg (Nat.ne_of_lt (Nat.lt_of_le_of_lt hy hwide))
      body := fun y _ _ t => rfl }
    after := fun x => {
      move := fun y hy _ => if_pos (Nat.le_trans hle hy)
      opening := fun y hy _ trims => if_neg (Nat.ne_of_gt (Nat.lt_of_lt_of_le hwide hy))
      closing := fun y hy _ trims => if_neg (Nat.ne_of_gt hy)
      body := fun y _ _ t => rfl }
    opening := by rw [ofInner_mark h]; exact if_pos rfl
    closing := by rw [ofInner_mark h]; exact if_pos rfl
    body := fun _ _ => rfl }

end Side

namespace Token

variable {w : Rewriting} {d : Delimiter} {n : Nat} {source inner inner' front : Text}
  {ts us : List Token} {t : Token} {l' : Lexeme}

/-- The template around a construct in one of its tokens. -/
theorem source_eq (h : ofText source = ts ++ t :: us) {back : Text}
    (hchars : t.item.chars = front ++ d.enclose inner ++ back) :
    source = (covered ts ++ front) ++ d.enclose inner ++ (back ++ covered us) ∧
      t.start + Text.size front = Text.size (covered ts ++ front) := by
  constructor
  · rw [source_of_ofText h, covered_cons, hchars]
    simp only [List.append_assoc]
  · obtain ⟨-, hstart, -⟩ := contiguous_of_ofText h
    rw [hstart, Text.size_append]

/-- All tokens fit a rewriting that replaces what a construct encloses. -/
theorem allRewritten_replaced (h : ofText source = ts ++ t :: us)
    (hr : t.item.Replaced inner inner' d front l') (hs : d.SameMarkup inner inner')
    (hw : w.Replaces d (t.start + Text.size front) n inner inner') :
    AllRewritten w (ofText source) (ofText (covered ts ++ (l'.chars ++ covered us))) := by
  obtain ⟨back, hchars, hchars'⟩ := hr.chars
  have hsize : Text.size l'.chars = Text.size t.item.chars + n := by
    have := hw.size
    rw [hchars, hchars']
    simp only [Text.size_append]
    omega
  have hstop : t.start + Text.size front + Text.size (d.enclose inner) ≤ t.stop := by
    rw [stop_eq, hchars]
    simp only [Text.size_append]
    omega
  have hread : t.item.Read := read_of_mem_ofText (h ▸ List.mem_append_right ts List.mem_cons_self)
  exact allRewritten_exchange h (ofText_replaced h hr hs hsize)
    ((hw.before 0).mono (Nat.le_refl _) (Nat.le_add_right _ _))
    (fun x => (hw.after x).mono hstop (Nat.le_refl _)) (hr.rewritten hw hread)

end Token

namespace Document

open Token

/-- **Trim markers are inert**: to any construct that a template is read with, on either side that
has no trim marker, one can be added. If the template has a document, then so does the new one, with
the same records but for this: the offsets behind the marker are one byte further on, and what the
document kept as the construct's trim markers, once, or not at all for a name in an end tag, has the
new one in it. If the template is rejected, the new one is, for the same fault at the same place. -/
theorem parse_addMarker {source : Text} {t : Token} {d : Delimiter} {s : Span}
    (ht : t ∈ Token.ofText source) (hs : (d, s) ∈ (reading t).markups) :
    ∃ inner, Text.slice? source s = some (d.enclose inner) ∧
      ∀ side : Side, side.IsFree inner →
        (∀ doc, parse source = .ok doc → doc.trimsOf s = t.item.keptTrims inner ∧
          ∃ doc', parse (side.addMarker s source) = .ok doc' ∧
            doc'.records = doc.records.map (side.rewriting s).record) ∧
        ∀ r, parse source = .error r → parse (side.addMarker s source) =
          .error (.ofFault (side.addMarker s source) r.fault
            ((side.rewriting s).move r.offset)) := by
  obtain ⟨hd, inner, front, hspan, hall⟩ := exists_replaced_of_mem_markups hs
  obtain ⟨ts, us, hts⟩ := List.append_of_mem ht
  obtain ⟨l, hl⟩ := hall inner
  obtain ⟨back, hchars, -⟩ := hl.chars
  obtain ⟨hsource, hstart⟩ := source_eq hts hchars
  refine ⟨inner, ?_, fun side hfree => ?_⟩
  · rw [Text.slice?_eq_some_iff]
    exact ⟨_, _, hsource, by rw [hspan, ← hstart]; rfl, by rw [hspan]; rfl⟩
  · obtain ⟨l', hr⟩ := hall (side.mark inner)
    obtain ⟨back', hchars', hmarked⟩ := hr.chars
    obtain rfl : back = back' := List.append_cancel_left (hchars.symm.trans hchars')
    have hw := Side.replaces_rewriting hd hfree (t.start + Text.size front)
    have hmarked : side.addMarker s source = covered ts ++ (l'.chars ++ covered us) := by
      rw [hspan, hstart, hsource, side.addMarker_eq hd, hmarked]
      simp only [List.append_assoc]
    have hroot : Span.ofText 0 (side.addMarker s source) =
        (side.rewriting s).span (.ofText 0 source) := by
      have hgrown := hw.span ((Nat.zero_add _).trans hstart.symm) (back ++ covered us)
      rwa [← hsource, ← hspan, ← side.addMarker_eq hd, ← hsource, ← hstart, ← hspan] at hgrown
    rw [← hspan] at hw
    have htokens := allRewritten_replaced hts hr (Side.sameMarkup_mark hd hfree) hw
    rw [← hmarked] at htokens
    obtain ⟨hok, herror⟩ := parse_rewritten htokens hroot
    refine ⟨fun doc h => ⟨?_, hok doc h⟩, herror⟩
    rw [hspan]
    exact trimsOf_eq h ht hr

/-- A marker at the end of a drop in an attribute. -/
theorem parse_addMarker_attribute :
    ∃ doc doc', parse "<a b={{ c }}>{% if x %}y{% endif %}</a>".toList = .ok doc ∧
      doc.trimsOf ⟨5, 12⟩ = [.none] ∧
      parse "<a b={{ c -}}>{% if x %}y{% endif %}</a>".toList = .ok doc' ∧
      doc'.records = doc.records.map (Side.stop.rewriting ⟨5, 12⟩).record := by
  obtain ⟨t, ht, hs, hkept⟩ : ∃ t ∈ Token.ofText "<a b={{ c }}>{% if x %}y{% endif %}</a>".toList,
      (.drop, ⟨5, 12⟩) ∈ (reading t).markups ∧ t.item.keptTrims " c ".toList = [.none] := by
    decide +kernel
  obtain ⟨inner, hslice, hinert⟩ := parse_addMarker ht hs
  obtain rfl : " c ".toList = inner := by
    have hcovered : Text.slice? "<a b={{ c }}>{% if x %}y{% endif %}</a>".toList ⟨5, 12⟩ =
        some (Delimiter.drop.enclose " c ".toList) := by decide +kernel
    rw [hcovered, Option.some.injEq] at hslice
    exact List.append_cancel_left (List.append_cancel_right hslice)
  have hfree : Side.stop.IsFree " c ".toList := ⟨by decide, by decide⟩
  have hmarked : Side.stop.addMarker ⟨5, 12⟩ "<a b={{ c }}>{% if x %}y{% endif %}</a>".toList =
      "<a b={{ c -}}>{% if x %}y{% endif %}</a>".toList := by decide +kernel
  have haccepted : (parse "<a b={{ c }}>{% if x %}y{% endif %}</a>".toList).isOk = true := by
    decide +kernel
  cases h : parse "<a b={{ c }}>{% if x %}y{% endif %}</a>".toList with
  | error r => rw [h] at haccepted; cases haccepted
  | ok doc =>
    obtain ⟨htrims, doc', hdoc', hrecords⟩ := (hinert .stop hfree).1 doc h
    rw [hmarked] at hdoc'
    exact ⟨doc, doc', rfl, htrims.trans hkept, hdoc', hrecords⟩

end Document

end LiquidTemplate
