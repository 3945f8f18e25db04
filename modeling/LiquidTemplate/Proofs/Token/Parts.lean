import LiquidTemplate.Token.Parts
import LiquidTemplate.Proofs.Text.Within

/-!
# Parts stand in their tokens

The parts of a token cover it from end to end, so each of them is within it at the offset that is
computed for it.
-/

namespace LiquidTemplate

open Located (Within within_append_left within_append_right within_append_middle
  within_of_mem_locate)

namespace Value

theorem within_pieces {start : Nat} {v : Value} {p : Located Piece} (h : p ∈ v.piecesAt start) :
    Within ⟨p.start, p.item.chars⟩ ⟨start, v.chars⟩ ∧ p.item ∈ v.pieces := by
  obtain ⟨hp, hmem⟩ := within_of_mem_locate h
  exact ⟨hp.trans (within_append_middle start _ _ _), hmem⟩

end Value

namespace Attribute

variable {start : Nat} {a : Attribute}

theorem within_name : Within ⟨start, a.name⟩ ⟨start, a.body⟩ := within_append_left start _ _

theorem within_value {v : Located Value} (h : v ∈ a.valueAt? start) :
    Within ⟨v.start, v.item.chars⟩ ⟨start, a.body⟩ := by
  obtain ⟨s, hs, rfl⟩ := Option.map_eq_some_iff.1 h
  have hvalue : Within ⟨start + Text.size a.name + Text.size (s.before ++ ['='] ++ s.after),
      s.value.chars⟩ ⟨start + Text.size a.name, s.chars⟩ := within_append_right _ _ _
  have hassigned : a.assigned = s.chars := by rw [assigned, hs]
  rw [← hassigned] at hvalue
  have h := hvalue.trans (within_append_right start a.name a.assigned)
  rw [Text.size_append, Text.size_append, show Text.size ['='] = 1 from rfl, ← Nat.add_assoc,
    ← Nat.add_assoc] at h
  exact h

end Attribute

namespace Head

variable {start : Nat} {h : Head}

theorem within_tail : Within ⟨start + 1, h.tail⟩ ⟨start, h.chars⟩ :=
  within_append_right start ['<'] h.tail

theorem within_name : Within ⟨start + 1, h.name.chars⟩ ⟨start, h.chars⟩ := by
  have hname : Within ⟨start + 1, h.name.chars⟩ ⟨start + 1, h.tail⟩ := by
    rw [tail, List.append_assoc, List.append_assoc]
    exact within_append_left _ _ _
  exact hname.trans within_tail

theorem within_attributes {a : Located Attribute} (ha : a ∈ h.attributesAt start) :
    Within ⟨a.start, a.item.body⟩ ⟨start, h.chars⟩ ∧ a.item ∈ h.attributes := by
  obtain ⟨b, hb, rfl⟩ := List.mem_map.1 ha
  obtain ⟨hb, hmem⟩ := within_of_mem_locate hb
  have hbody : Within ⟨b.start + Text.size b.item.gap, b.item.body⟩ ⟨b.start, b.item.chars⟩ :=
    within_append_right _ _ _
  have hall : Within ⟨(h.nameSpan start).stop, h.attributes.flatMap Attribute.chars⟩
      ⟨start + 1, h.tail⟩ := by
    rw [tail, List.append_assoc]
    exact within_append_middle _ _ _ _
  exact ⟨((hbody.trans hb).trans hall).trans within_tail, hmem⟩

end Head

/-- What trimming leaves is part of the text. -/
theorem Text.within_trim (start : Nat) (t : Text) :
    Within ⟨start + size (leadingBlanks t), trim t⟩ ⟨start, t⟩ :=
  ⟨leadingBlanks t, trailingBlanks t, (trim_append t).symm, rfl⟩

namespace Lexeme

variable (start : Nat)

theorem within_endTag_name (name : TagName) (gap : Text) :
    Within ⟨start + 2, name.chars⟩ ⟨start, (endTag name gap).chars⟩ := by
  rw [chars, List.append_assoc]
  exact within_append_middle start ['<', '/'] _ _

theorem within_comment_body (body : Text) :
    Within ⟨start + Text.size Delimiter.comment.opening, body⟩ ⟨start, (comment body).chars⟩ :=
  within_append_middle start _ _ _

theorem within_doctype_value (keyword raw : Text) :
    Within ⟨start + 2 + Text.size keyword + Text.size (Text.leadingBlanks raw), Text.trim raw⟩
      ⟨start, (doctype keyword raw).chars⟩ := by
  have hraw := within_append_middle start (['<', '!'] ++ keyword) raw ['>']
  rw [Text.size_append, ← Nat.add_assoc] at hraw
  exact (Text.within_trim _ raw).trans hraw

/-- The end tag of a raw element. -/
def closeChars (closeName closeRest : Text) : Text := ['<', '/'] ++ closeName ++ closeRest ++ ['>']

/-- A raw element is its head, its body and its end tag. -/
theorem within_rawElement (head : Head) (body closeName closeRest : Text) :
    let whole : Located Text := ⟨start, (rawElement head body closeName closeRest).chars⟩
    let bodyStart := start + Text.size head.chars
    Within ⟨start, head.chars⟩ whole ∧ Within ⟨bodyStart, body⟩ whole ∧
      Within ⟨bodyStart + Text.size body, closeChars closeName closeRest⟩ whole ∧
        start + Text.size whole.item =
          bodyStart + Text.size body + Text.size (closeChars closeName closeRest) := by
  have hchars : (rawElement head body closeName closeRest).chars =
      head.chars ++ body ++ closeChars closeName closeRest := by
    simp [chars, closeChars]
  simp only [hchars, Text.size_append, ← Nat.add_assoc]
  refine ⟨?_, within_append_middle start _ _ _, ?_, trivial⟩
  · rw [List.append_assoc]
    exact within_append_left start _ _
  · rw [Nat.add_assoc, ← Text.size_append]
    exact within_append_right start _ _

/-- A raw tag is a tag, its body and a tag. -/
theorem within_rawTag (opening body closing : Text) :
    let whole : Located Text := ⟨start, (rawTag opening body closing).chars⟩
    let bodyStart := start + Text.size (Delimiter.tag.enclose opening)
    Within ⟨start, Delimiter.tag.enclose opening⟩ whole ∧ Within ⟨bodyStart, body⟩ whole ∧
      Within ⟨bodyStart + Text.size body, Delimiter.tag.enclose closing⟩ whole ∧
        start + Text.size whole.item =
          bodyStart + Text.size body + Text.size (Delimiter.tag.enclose closing) := by
  simp only [chars, Text.size_append, ← Nat.add_assoc]
  refine ⟨?_, within_append_middle start _ _ _, ?_, trivial⟩
  · rw [List.append_assoc]
    exact within_append_left start _ _
  · rw [Nat.add_assoc, ← Text.size_append]
    exact within_append_right start _ _

end Lexeme

end LiquidTemplate
