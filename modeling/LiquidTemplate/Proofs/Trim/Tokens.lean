import LiquidTemplate.Proofs.Reader.Spans
import LiquidTemplate.Proofs.Token.Exchange
import LiquidTemplate.Proofs.Tree.Relocation
import LiquidTemplate.Proofs.Trim.Replaced

/-!
# Replacing a construct in a template

Wherever the scanner reports a drop or a tag, what it encloses can be replaced
(`Token.exists_replaced_of_mem_markups`). If only trim markers change there, all other tokens remain
what they are, and those behind it are moved (`Token.ofText_replaced`).
-/

namespace LiquidTemplate

namespace Lexeme

variable {inner inner' front : Text} {d : Delimiter} {l l' : Lexeme}

theorem Replaced.isConstruct (h : l.Replaced inner inner' d front l') : l.isConstruct = true := by
  cases h <;> rfl

/-- A head begins a construct even if it is cut off behind an opening delimiter. -/
theorem startsConstruct_of_head {h h' : Head} {rest : Text} (hr : h.Replaced inner inner' front h')
    (hh : h.ReadBefore rest) : startsConstruct (front ++ Delimiter.drop.opening) = true := by
  cases hr with
  | name as gap sc => rfl
  | value name as bs gap sc ha =>
    rw [List.append_assoc, List.append_assoc, List.append_assoc]
    refine startsConstruct_iff.2 ⟨.startTag, _, rfl, ?_⟩
    cases name with
    | fixed name =>
      obtain ⟨⟨c, run, rfl, hc⟩, -⟩ := hh.1
      exact Opening.startsName_iff.2 (.inr ⟨c, _, rfl, hc⟩)
    | dynamic inner => rfl

/-- Up to the opening delimiter of the construct that is replaced, it is clear that a construct
begins. -/
theorem Replaced.startsConstruct {rest : Text} (hr : l.Replaced inner inner' d front l')
    (h : l.ReadBefore rest) : startsConstruct (front ++ d.opening) = true := by
  cases hr with
  | startTag hh => exact startsConstruct_of_head hh h.1
  | rawElement body closeName closeRest hh => exact startsConstruct_of_head hh h.1
  | _ => rfl

/-- What replacing does to a construct begins behind the start of a construct, and the new one is
read in front of what follows the old one. -/
theorem Replaced.exists_front {rest : Text} (hr : l.Replaced inner inner' d front l')
    (hs : d.SameMarkup inner inner') (h : l.ReadBefore rest) :
    ∃ u x x', Lexeme.startsConstruct u = true ∧ l.chars = u ++ x ∧ l'.chars = u ++ x' ∧
      next? (l'.chars ++ rest) = some (l', rest) := by
  obtain ⟨back, hchars, hchars'⟩ := hr.chars
  refine ⟨front ++ d.opening, inner ++ d.closing ++ back, inner' ++ d.closing ++ back,
    hr.startsConstruct h, ?_, ?_, next?_of_readBefore (hr.readBefore hs h)⟩
  · simp [hchars, Delimiter.enclose]
  · simp [hchars', Delimiter.enclose]

end Lexeme

/-! ## Where constructs are reported -/

open Located (exists_append_of_mem_locate)

theorem Value.exists_of_mem_drops {v : Located Value} {s : Span}
    (h : s ∈ (ValueParts.ofValue v).drops) :
    ∃ ps inner qs, v.item.pieces = ps ++ .drop inner :: qs ∧
      s = .ofText (v.start + Text.size (Quote.chars v.item.quote) +
        Text.size (ps.flatMap Piece.chars)) (Delimiter.drop.enclose inner) := by
  obtain ⟨parts, hparts, rfl⟩ := List.mem_map.1 h
  obtain ⟨hparts, hdrop⟩ := List.mem_filter.1 hparts
  obtain ⟨⟨start, piece⟩, hp, rfl⟩ := List.mem_map.1 hparts
  cases piece with
  | text value => cases hdrop
  | drop inner =>
    obtain ⟨ps, qs, hpieces, rfl⟩ := exists_append_of_mem_locate hp
    exact ⟨ps, inner, qs, hpieces, rfl⟩

/-- `start` is where the blanks in front of the attribute start. -/
theorem Attribute.exists_of_mem_drops {a : Attribute} {start : Nat} {s : Span}
    (h : s ∈ (AttributeParts.ofAttribute ⟨start + Text.size a.gap, a⟩).drops) :
    ∃ inner front, s = .ofText (start + Text.size front) (Delimiter.drop.enclose inner) ∧
      ∀ inner', ∃ a', a.Replaced inner inner' front a' := by
  obtain ⟨gap, name, assignment⟩ := a
  cases assignment with
  | none => cases h
  | some assignment =>
    obtain ⟨before, after, quote, pieces⟩ := assignment
    obtain ⟨ps, inner, qs, rfl, rfl⟩ := Value.exists_of_mem_drops h
    refine ⟨inner, _, ?_, fun inner' => ⟨_, .value gap name before after quote ps qs⟩⟩
    simp only [Text.size_append, Nat.add_assoc]
    rfl

theorem Head.exists_of_mem_drops {h : Head} {start : Nat} {s : Span}
    (hs : s ∈ (HeadParts.ofHead start h).drops) :
    ∃ inner front, s = .ofText (start + Text.size front) (Delimiter.drop.enclose inner) ∧
      ∀ inner', ∃ h', h.Replaced inner inner' front h' := by
  obtain ⟨name, attributes, gap, sc⟩ := h
  rcases List.mem_append.1 hs with hs | hs
  · cases name with
    | fixed name => cases hs
    | dynamic inner =>
      obtain rfl := List.mem_singleton.1 hs
      exact ⟨inner, ['<'], rfl, fun inner' => ⟨_, .name attributes gap sc⟩⟩
  · obtain ⟨parts, hparts, hs⟩ := List.mem_flatMap.1 hs
    obtain ⟨a, ha, rfl⟩ := List.mem_map.1 hparts
    obtain ⟨⟨start', a⟩, hb, rfl⟩ := List.mem_map.1 ha
    obtain ⟨as, bs, hattributes, hstart⟩ := exists_append_of_mem_locate hb
    dsimp only at hattributes hstart
    subst hattributes hstart
    obtain ⟨inner, front, rfl, hall⟩ := Attribute.exists_of_mem_drops hs
    refine ⟨inner, ['<'] ++ name.chars ++ as.flatMap Attribute.chars ++ front, ?_, fun inner' => ?_⟩
    · simp only [Text.size_append, Head.nameSpan, Span.ofText, Nat.add_assoc]
      rfl
    · obtain ⟨a', ha'⟩ := hall inner'
      exact ⟨_, .value name as bs gap sc ha'⟩

namespace Token

variable {inner inner' front : Text} {d : Delimiter}

/-- What a reported construct encloses can be replaced. -/
theorem exists_replaced_of_mem_markups {t : Token} {s : Span}
    (h : (d, s) ∈ (reading t).markups) :
    d ≠ .comment ∧ ∃ inner front, s = .ofText (t.start + Text.size front) (d.enclose inner) ∧
      ∀ inner', ∃ l', t.item.Replaced inner inner' d front l' := by
  obtain ⟨start, l⟩ := t
  cases l with
  | drop inner =>
    cases List.mem_singleton.1 h
    exact ⟨nofun, inner, [], rfl, fun inner' => ⟨_, .drop⟩⟩
  | tag inner =>
    cases List.mem_singleton.1 h
    exact ⟨nofun, inner, [], rfl, fun inner' => ⟨_, .tag⟩⟩
  | startTag head =>
    obtain ⟨s', hs', heq⟩ := List.mem_map.1 h
    cases heq
    obtain ⟨inner, front, hs, hall⟩ := Head.exists_of_mem_drops hs'
    refine ⟨nofun, inner, front, hs, fun inner' => ?_⟩
    obtain ⟨h', hh⟩ := hall inner'
    exact ⟨_, .startTag hh⟩
  | endTag name gap =>
    obtain ⟨s', hs', heq⟩ := List.mem_map.1 h
    cases heq
    cases name with
    | fixed name => cases hs'
    | dynamic inner =>
      obtain rfl := List.mem_singleton.1 hs'
      exact ⟨nofun, inner, ['<', '/'], rfl, fun inner' => ⟨_, .endTag gap⟩⟩
  | rawElement head body closeName closeRest =>
    obtain ⟨s', hs', heq⟩ := List.mem_map.1 h
    cases heq
    obtain ⟨inner, front, hs, hall⟩ := Head.exists_of_mem_drops hs'
    refine ⟨nofun, inner, front, hs, fun inner' => ?_⟩
    obtain ⟨h', hh⟩ := hall inner'
    exact ⟨_, .rawElement body closeName closeRest hh⟩
  | rawTag opening body closing =>
    rcases List.mem_cons.1 h with heq | h
    · cases heq
      exact ⟨nofun, opening, [], rfl, fun inner' => ⟨_, .opening body closing⟩⟩
    · cases List.mem_singleton.1 h
      refine ⟨nofun, closing, Delimiter.tag.enclose opening ++ body, ?_,
        fun inner' => ⟨_, .closing opening body⟩⟩
      have hstop := (Lexeme.within_rawTag start opening body closing).2.2.2
      rw [Text.size_append, ← Nat.add_assoc]
      exact congrArg (Span.mk _) hstop
  | text _ => cases h
  | comment _ => cases h
  | doctype _ _ => cases h
  | invalid _ _ => cases h

/-- In a template in which a construct is replaced by the same markup, the tokens in front and the
token itself stay where they are, and those behind it are moved. -/
theorem ofText_replaced {source : Text} {t : Token} {ts us : List Token} {l' : Lexeme} {n : Nat}
    (h : ofText source = ts ++ t :: us) (hr : t.item.Replaced inner inner' d front l')
    (hs : d.SameMarkup inner inner') (hn : Text.size l'.chars = Text.size t.item.chars + n) :
    ofText (covered ts ++ (l'.chars ++ covered us)) =
      ts ++ ⟨t.start, l'⟩ :: us.map (Located.shift n) := by
  obtain ⟨u, x, x', hu, hx, hx', hnext⟩ := hr.exists_front hs (readBefore_covered h hr.isConstruct)
  exact ofText_exchange h hu hx hx' hnext hn

end Token

end LiquidTemplate
