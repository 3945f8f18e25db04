import LiquidTemplate.Token.Parts
import LiquidTemplate.Proofs.Token.Contiguous

/-!
# Spans that tile a text

Spans tile a stretch of a template when they stand in it one behind the other and every gap between
them is of an allowed kind (`Tiled`). Tokens tile whatever they were cut from, without gaps; their
place in a template is `Token.Stand`.
-/

namespace LiquidTemplate

/-- The text `t`, which starts at `start` in the source, is the texts of the spans in order, with a
gap before, between and behind them. -/
def Tiled (source : Text) (gap : Text → Prop) : Nat → List Span → Text → Prop
  | _, [], t => gap t
  | start, s :: ss, t =>
    ∃ before covered rest, t = before ++ covered ++ rest ∧ gap before ∧
      s.start = start + Text.size before ∧ Text.slice? source s = some covered ∧
      Tiled source gap s.stop ss rest

/-- Where two tilings meet, their gaps join. -/
theorem Tiled.append {source : Text} {gap : Text → Prop}
    (hgap : ∀ {g h : Text}, gap g → gap h → gap (g ++ h)) {start : Nat} {ss ss' : List Span}
    {t t' : Text} (h : Tiled source gap start ss t)
    (h' : Tiled source gap (start + Text.size t) ss' t') :
    Tiled source gap start (ss ++ ss') (t ++ t') := by
  induction ss generalizing start t with
  | nil =>
    cases ss' with
    | nil => exact hgap h h'
    | cons s ss' =>
      obtain ⟨before, covered, rest, rfl, hb, hs, hc, hr⟩ := h'
      refine ⟨t ++ before, covered, rest, by simp, hgap h hb, ?_, hc, hr⟩
      rw [hs, Text.size_append]
      omega
  | cons s ss ih =>
    obtain ⟨before, covered, rest, rfl, hb, hs, hc, hr⟩ := h
    refine ⟨before, covered, rest ++ t', by simp, hb, hs, hc, ih hr ?_⟩
    have hstop : s.stop = s.start + Text.size covered := by
      obtain ⟨_, _, _, _, hstop⟩ := Text.slice?_eq_some_iff.1 hc
      exact hstop
    rw [hstop, hs]
    simpa [Nat.add_assoc] using h'

/-- One span tiles the text it covers. -/
theorem tiled_singleton {source t : Text} {gap : Text → Prop} (hgap : gap []) {s : Span}
    (h : Text.slice? source s = some t) : Tiled source gap s.start [s] t :=
  ⟨[], t, [], by simp, hgap, rfl, h, hgap⟩

/-- What trimming leaves tiles the text with the blanks around it as gaps. -/
theorem tiled_trim {source front value back : Text} (h : source = front ++ value ++ back) :
    Tiled source Text.AllBlank (Text.size front)
      [.ofText (Text.size front + Text.size (Text.leadingBlanks value)) (Text.trim value)]
      value := by
  refine ⟨_, _, _, (Text.trim_append value).symm, Text.allBlank_leadingBlanks value, rfl, ?_,
    Text.allBlank_trailingBlanks value⟩
  refine Text.slice?_eq_some_iff.2
    ⟨front ++ Text.leadingBlanks value, Text.trailingBlanks value ++ back, ?_, ?_, rfl⟩
  · rw [h]
    conv => lhs; rw [← Text.trim_append value]
    simp
  · rw [Text.size_append]
    rfl

namespace Token

/-- The tokens stand in the source behind the text `front`. -/
structure Stand (source front : Text) (ts : List Token) : Prop where
  contiguous : Contiguous (Text.size front) ts
  covered : ∃ back, source = front ++ Token.covered ts ++ back
  lexed : ∀ t ∈ ts, t.item ∈ Lexeme.ofText source

namespace Stand

variable {source front : Text} {ts us : List Token}

theorem of_append (h : Stand source front (ts ++ us)) :
    Stand source front ts ∧ Stand source (front ++ Token.covered ts) us := by
  obtain ⟨hc, ⟨back, hs⟩, hl⟩ := h
  rw [contiguous_append] at hc
  rw [covered_append] at hs
  refine ⟨⟨hc.1, ⟨Token.covered us ++ back, by simpa using hs⟩, ?_⟩,
    ⟨by simpa using hc.2, ⟨back, by simpa using hs⟩, ?_⟩⟩
  · exact fun t ht => hl t (List.mem_append_left _ ht)
  · exact fun t ht => hl t (List.mem_append_right _ ht)

theorem of_cons {t : Token} (h : Stand source front (t :: ts)) :
    t.start = Text.size front ∧ Stand source (front ++ t.item.chars) ts := by
  have happ : Stand source front ([t] ++ ts) := h
  have hrest := happ.of_append.2
  rw [covered_cons, covered_nil, List.append_nil] at hrest
  exact ⟨h.contiguous.1, hrest⟩

/-- The tokens cover the text they were cut from. -/
theorem slice? (h : Stand source front ts) :
    Text.slice? source ⟨Text.size front, Text.size front + Text.size (Token.covered ts)⟩ =
      some (Token.covered ts) := by
  obtain ⟨back, hs⟩ := h.covered
  exact Text.slice?_eq_some_iff.2 ⟨front, back, hs, rfl, rfl⟩

/-- A run of tokens is covered from where its first one starts to where its last one stops. -/
theorem slice?_enclosed {t t' : Token} (h : Stand source front (t :: ts ++ [t'])) :
    Text.slice? source ⟨t.start, t'.stop⟩ =
      some (t.item.chars ++ Token.covered ts ++ t'.item.chars) := by
  have hstart : t.start = Text.size front := h.contiguous.1
  have hlast : t'.start = Text.size front + Text.size (Token.covered (t :: ts)) := by
    simpa using h.of_append.2.of_cons.1
  have hslice := h.slice?
  simp only [covered_append, covered_cons, covered_nil, List.append_nil,
    Text.size_append] at hslice hlast
  rw [stop_eq, hlast, hstart, Nat.add_assoc]
  exact hslice

/-- Each construct is the only token of its text. -/
theorem ofText_chars (h : Stand source front ts) {t : Token} {l : Lexeme} (ht : t ∈ ts)
    (hl : t.item = l) (hc : l.isConstruct = true) : ofText t.item.chars = [⟨0, l⟩] := by
  subst hl
  rw [ofText, ofTextAt, Lexeme.ofText_chars (h.lexed t ht) hc]
  rfl

end Stand

theorem stand_ofText (source : Text) : Stand source [] (ofText source) where
  contiguous := contiguous_ofText source
  covered := ⟨[], by simp⟩
  lexed := forall_mem_ofText_iff.2 fun _ hl => hl

end Token

end LiquidTemplate
