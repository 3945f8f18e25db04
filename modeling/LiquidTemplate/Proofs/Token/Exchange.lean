import LiquidTemplate.Proofs.Lexeme.Grammar
import LiquidTemplate.Proofs.Token.Cursor
import LiquidTemplate.Proofs.Tree.Relocation

/-!
# Exchanging a token

Where a construct begins, the lexemes in front of it end, however it goes on
(`Lexeme.ofText_front`). So if a construct is exchanged for one that begins in the same way and is
read in front of the same text, the tokens in front stay where they are and those behind are only
moved (`Token.ofText_exchange`).
-/

namespace LiquidTemplate

namespace Lexeme

variable {l l' : Lexeme}

/-- Where text or a construct ends in front of a construct, it does so however that goes on. -/
theorem next?_front {p x u : Text} (hp : Lexeme.startsConstruct p = true)
    (h : next? (l.chars ++ (u ++ p ++ x)) = some (l, u ++ p ++ x)) (y : Text) :
    next? (l.chars ++ (u ++ p ++ y)) = some (l, u ++ p ++ y) := by
  have hne : u ++ p ++ x ≠ [] := by
    intro hnil
    rw [(List.append_eq_nil_iff.1 (List.append_eq_nil_iff.1 hnil).1).2] at hp
    cases hp
  cases hl : l.isConstruct with
  | true => exact next?_append hl h _
  | false =>
    cases l with
    | text v =>
      have hs : Lexeme.startsConstruct (u ++ p) = true := by
        have hs := (next?_text_iff.1 h).2.2.1.resolve_left hne
        by_cases hu : u = []
        · rwa [hu]
        · exact startsConstruct_of_append hu hp hs
      have hcut : next? (v ++ (u ++ p)) = some (text v, u ++ p) :=
        next?_text_of_append h (.inr hs)
      have hnext := next?_text_append hcut hs y
      rwa [List.append_assoc] at hnext
    | invalid flaw r => exact absurd (rest_eq_nil_of_next?_invalid h rfl) hne
    | _ => cases hl

/-- Lexemes in front of a construct do not depend on how that goes on. -/
theorem ofText_front {p x : Text} (hp : Lexeme.startsConstruct p = true) {ls : List Lexeme}
    (h : ofText (ls.flatMap chars ++ (p ++ x)) = ls ++ ofText (p ++ x)) (y : Text) :
    ofText (ls.flatMap chars ++ (p ++ y)) = ls ++ ofText (p ++ y) := by
  induction ls with
  | nil => rfl
  | cons l ls ih =>
    obtain ⟨rest, hn, hrest⟩ := ofText_eq_cons h
    have hchars := append_of_next? hn
    rw [List.flatMap_cons, List.append_assoc, List.append_cancel_left_eq] at hchars
    subst hchars
    rw [List.flatMap_cons, List.append_assoc, ← List.append_assoc _ p x] at hn
    have hnext := next?_front hp hn y
    rw [List.append_assoc _ p y] at hnext
    rw [List.flatMap_cons, List.append_assoc, ofText_of_next? hnext, ih hrest]
    rfl

/-- Lexemes around a construct do not change when it is exchanged for one that begins in the same
way. -/
theorem ofText_exchange {t u x x' : Text} {xs ys : List Lexeme} (h : ofText t = xs ++ l :: ys)
    (hu : startsConstruct u = true) (hl : l.chars = u ++ x) (hl' : l'.chars = u ++ x')
    (hn : next? (l'.chars ++ ys.flatMap chars) = some (l', ys.flatMap chars)) :
    ofText (xs.flatMap chars ++ (l'.chars ++ ys.flatMap chars)) = xs ++ l' :: ys := by
  have hys : ofText (ys.flatMap chars) = ys := by
    rw [List.append_cons] at h
    exact ofText_of_append h
  have htail := ofText_of_append h
  have ht : t = xs.flatMap chars ++ (u ++ (x ++ ys.flatMap chars)) := by
    rw [← flatMap_chars_ofText t, h, List.flatMap_append, List.flatMap_cons, hl, List.append_assoc]
  rw [List.flatMap_cons, hl, List.append_assoc] at htail
  rw [← htail, ht] at h
  have hfront := ofText_front hu h (x' ++ ys.flatMap chars)
  have hnew : u ++ (x' ++ ys.flatMap chars) = l'.chars ++ ys.flatMap chars := by
    rw [hl', List.append_assoc]
  rwa [hnew, ofText_of_next? hn, hys] at hfront

end Lexeme

namespace Token

variable {source : Text} {ts us : List Token} {t : Token}

/-- A construct of a template is one in front of the tokens behind it. -/
theorem readBefore_covered (h : ofText source = ts ++ t :: us) (ht : t.item.isConstruct = true) :
    t.item.ReadBefore (covered us) :=
  (Lexeme.next?_chars_iff ht).1 (next?_start h)

section Exchange

variable {u x x' : Text} {l' : Lexeme} {n : Nat}

/-- In a template in which a construct is exchanged, the tokens in front and the token itself stay
where they are, and those behind it are located anew. -/
theorem ofText_exchange_locate (h : ofText source = ts ++ t :: us)
    (hu : Lexeme.startsConstruct u = true) (hl : t.item.chars = u ++ x) (hl' : l'.chars = u ++ x')
    (hnext : Lexeme.next? (l'.chars ++ covered us) = some (l', covered us)) :
    ofText (covered ts ++ (l'.chars ++ covered us)) = ts ++ ⟨t.start, l'⟩ ::
      Located.locate Lexeme.size (t.start + l'.size) (us.map Located.item) := by
  obtain ⟨hts, hstart, -⟩ := contiguous_of_ofText h
  rw [covered_eq us] at hnext
  have hlexemes := Lexeme.ofText_exchange (lexemes_of_ofText h) hu hl hl' hnext
  rw [← covered_eq, ← covered_eq] at hlexemes
  rw [ofText, ofTextAt, hlexemes, Lexeme.locate_append, contiguous_iff.1 hts, ← covered_eq,
    Nat.zero_add, ← hstart, Located.locate_cons]

/-- If the new construct is longer by `n` bytes, those behind it are moved by as many. -/
theorem ofText_exchange (h : ofText source = ts ++ t :: us)
    (hu : Lexeme.startsConstruct u = true) (hl : t.item.chars = u ++ x) (hl' : l'.chars = u ++ x')
    (hnext : Lexeme.next? (l'.chars ++ covered us) = some (l', covered us))
    (hn : Text.size l'.chars = Text.size t.item.chars + n) :
    ofText (covered ts ++ (l'.chars ++ covered us)) =
      ts ++ ⟨t.start, l'⟩ :: us.map (Located.shift n) := by
  obtain ⟨-, -, hus⟩ := contiguous_of_ofText h
  have hmoved : t.start + l'.size = t.stop + n := by
    rw [stop_eq, Lexeme.size, hn]
    omega
  rw [ofText_exchange_locate h hu hl hl' hnext, hmoved, Located.locate_add, contiguous_iff.1 hus]

end Exchange

end Token

end LiquidTemplate
