import Mathlib.Data.List.Chain
import LiquidTemplate.Proofs.Arena.Order
import LiquidTemplate.Proofs.Coverage.Tiling
import LiquidTemplate.Proofs.Token.Heads

/-!
# Pieces cover values

The pieces of a value tile what stands between its quotes, text and drops in turn. What would stop
the value or begin a drop is in a text piece only where a Liquid tag of that piece covers it. All
this is read off the grammar of values, by induction on the run of pieces and, inside a text piece,
on the run of characters and tags (`ValueParts.DerivedIn.splitIn`).
-/

namespace LiquidTemplate

open Cursor (Stands)
open Reader (pieceParts slice?_eq stands_of_slice? stands_skip stands_unique)

/-! ## Text in a value -/

/-- The character may stand in a value with these quotes, outside of drops and Liquid tags. -/
def Value.Holds (quote : Option Quote) (c : Char) : Prop :=
  match quote with
  | some q => c ≠ q.char
  | none => isUnquotedChar c = true

/-- In the span there are Liquid tags, one behind the other. Wherever a drop would begin there, one
of them covers its opening, and all characters outside of them may stand in a value with these
quotes. -/
def Span.IsTextIn (source : Text) (quote : Option Quote) (s : Span) : Prop :=
  ∃ tags, Chain s.start s.stop tags ∧ (∀ t ∈ tags, t.IsTag source) ∧
    (∀ k rest, s.start ≤ k → k < s.stop → Stands source ⟨k, '{' :: '{' :: rest⟩ →
      ∃ t ∈ tags, t.start ≤ k ∧ k + 2 ≤ t.stop) ∧
    ∀ k c rest, s.start ≤ k → k < s.stop → Stands source ⟨k, c :: rest⟩ →
      (∃ t ∈ tags, t.start ≤ k ∧ k < t.stop) ∨ Value.Holds quote c

section

variable {source t u : Text} {i j k : Nat}

theorem Value.holds_of_stops {quote : Option Quote} {c : Char} (h : stops quote c = false) :
    Holds quote c := by
  cases quote with
  | none => simpa [stops, Holds] using h
  | some q => simpa [stops, Holds] using h

theorem Cursor.Stands.between (h : Stands source ⟨i, t⟩) (h' : Stands source ⟨j, u⟩) (hle : i ≤ j) :
    ∃ m, t = m ++ u ∧ j = i + Text.size m := by
  obtain ⟨before, rfl, rfl⟩ := h
  obtain ⟨before', hs, hj⟩ := h'
  obtain ⟨m, v, hm, hjm, rfl⟩ := Text.mem_placesFrom_iff.1
    (show j ∈ Text.placesFrom (before ++ t) (Text.size before) (· = u) from
      ⟨hle, before', u, hs, hj, rfl⟩)
  exact ⟨m, hm, hjm⟩

/-- Inside a character nothing stands. -/
theorem Cursor.Stands.eq_or_le {c : Char} (h : Stands source ⟨i, c :: t⟩)
    (h' : Stands source ⟨j, u⟩) (hle : i ≤ j) : j = i ∨ i + c.utf8Size ≤ j := by
  obtain ⟨m, hm, rfl⟩ := h.between h' hle
  cases m with
  | nil => exact .inl rfl
  | cons d m =>
    obtain ⟨rfl, -⟩ := List.cons.inj hm
    exact .inr (by rw [Text.size_cons]; omega)

/-- A tag ends in a brace that opens nothing, so a drop that would begin in it has both braces in
it. -/
theorem Span.IsTag.covers_opening (h : IsTag source ⟨i, j⟩) (hk : Stands source ⟨k, '{' :: t⟩)
    (hle : i ≤ k) (hlt : k < j) : k + 2 ≤ j := by
  obtain ⟨inner, rest, hstands, rfl, -⟩ := isTag_iff.1 h
  obtain ⟨m, hm, rfl⟩ := hstands.between hk hle
  have hchars : (Atom.tag inner).chars = ['{', '%'] ++ inner ++ ['%'] ++ ['}'] := by
    simp [Atom.chars, Delimiter.enclose, Delimiter.opening, Delimiter.closing]
  have hbrace : Text.size ['}'] = 1 := rfl
  rw [hchars, Text.size_append, hbrace] at hlt ⊢
  by_contra hend
  have hsize : Text.size (['{', '%'] ++ inner ++ ['%']) = Text.size m := by omega
  rw [hchars, List.append_assoc _ ['}']] at hm
  have hlast := (Text.append_inj_of_size hm hsize).2
  exact absurd (List.cons.inj hlast).1 (by decide)

/-- What a run of text is made of is covered by its tags, or may stand in the value. -/
theorem TextRun.isTextIn {quote : Option Quote} (h : TextRun source (Value.stops quote) i j) :
    i ≤ j ∧ Span.IsTextIn source quote ⟨i, j⟩ := by
  induction h with
  | done i =>
    refine ⟨Nat.le_refl i, [], Nat.le_refl i, List.forall_mem_nil _, ?_, ?_⟩
    · exact fun k rest hle hlt => absurd hlt (Nat.not_lt.2 hle)
    · exact fun k c rest hle hlt => absurd hlt (Nat.not_lt.2 hle)
  | @char i j c rest hc hs ho _ ih =>
    obtain ⟨hle, tags, hchain, htags, hdrops, hchars⟩ := ih
    refine ⟨by omega, tags, hchain.mono (Nat.le_add_right _ _) (Nat.le_refl _), htags, ?_, ?_⟩
    · intro k more hik hkj hk
      rcases hc.eq_or_le hk hik with rfl | hik
      · rw [stands_unique hc hk] at ho
        cases ho
      · exact hdrops k more hik hkj hk
    · intro k d more hik hkj hk
      rcases hc.eq_or_le hk hik with rfl | hik
      · obtain ⟨rfl, -⟩ := List.cons.inj (stands_unique hc hk)
        exact .inr (Value.holds_of_stops hs)
      · exact hchars k d more hik hkj hk
  | @tag i k j ht _ ih =>
    obtain ⟨hle, tags, hchain, htags, hdrops, hchars⟩ := ih
    have hik : i ≤ k := by
      obtain ⟨inner, rest, -, rfl, -⟩ := Span.isTag_iff.1 ht
      exact Nat.le_add_right _ _
    refine ⟨hik.trans hle, ⟨i, k⟩ :: tags, ⟨Nat.le_refl i, hik, hchain⟩,
      List.forall_mem_cons.2 ⟨ht, htags⟩, ?_, ?_⟩
    · intro n rest hin hnj hn
      rcases Nat.lt_or_ge n k with hnk | hkn
      · exact ⟨⟨i, k⟩, List.mem_cons_self, hin, ht.covers_opening hn hin hnk⟩
      · obtain ⟨t, hmem, hcover⟩ := hdrops n rest hkn hnj hn
        exact ⟨t, List.mem_cons_of_mem _ hmem, hcover⟩
    · intro n c rest hin hnj hn
      rcases Nat.lt_or_ge n k with hnk | hkn
      · exact .inl ⟨⟨i, k⟩, List.mem_cons_self, hin, hnk⟩
      · refine (hchars n c rest hkn hnj hn).imp_left ?_
        rintro ⟨t, hmem, hcover⟩
        exact ⟨t, List.mem_cons_of_mem _ hmem, hcover⟩

end

/-! ## Pieces of a value -/

/-- The value without its quotes. -/
def ValueParts.inner (v : ValueParts) : Span :=
  ⟨v.whole.start + Text.size (Quote.chars v.quote), v.whole.stop - Text.size (Quote.chars v.quote)⟩

/-- The value is split into its pieces: they are not empty and tile what stands between the quotes,
no two text pieces are neighbours, a drop runs up to its first end, and in text nothing stops the
value or begins a drop but in Liquid tags. -/
structure ValueParts.SplitIn (source : Text) (v : ValueParts) : Prop where
  tiled : ∃ content, Text.slice? source v.inner = some content ∧
    Text.slice? source v.whole =
      some (Quote.chars v.quote ++ content ++ Quote.chars v.quote) ∧
    Tiled source (· = []) v.inner.start (v.pieces.map PieceParts.whole) content
  nonempty : ∀ p ∈ v.pieces, p.whole.start < p.whole.stop
  alternate : v.pieces.IsChain fun p q => p.isDrop = true ∨ q.isDrop = true
  drops : ∀ p ∈ v.pieces, p.isDrop = true → p.whole.IsDrop source
  texts : ∀ p ∈ v.pieces, p.isDrop = false → p.whole.IsTextIn source v.quote

section

variable {source rest : Text} {i j : Nat}

/-- Items that stand one behind the other tile their text. -/
theorem tiled_locate {α : Type} {chars : α → Text} {xs : List α}
    (h : Stands source ⟨i, xs.flatMap chars ++ rest⟩) :
    Tiled source (· = []) i
      ((Located.locate (fun x => Text.size (chars x)) i xs).map
        fun x => .ofText x.start (chars x.item))
      (xs.flatMap chars) := by
  induction xs generalizing i with
  | nil => rfl
  | cons x xs ih =>
    rw [List.flatMap_cons, List.append_assoc] at h
    rw [Located.locate_cons, List.map_cons, List.flatMap_cons]
    exact ⟨[], chars x, xs.flatMap chars, rfl, rfl, rfl, slice?_eq h rfl, ih (stands_skip h)⟩

theorem PieceRun.pieces {quote : Option Quote} {ps : List PieceParts}
    (h : PieceRun source (Value.stops quote) i ps j) :
    (ps.IsChain fun p q => p.isDrop = true ∨ q.isDrop = true) ∧
      ∀ p ∈ ps, p.whole.start < p.whole.stop ∧ (p.isDrop = true → p.whole.IsDrop source) ∧
        (p.isDrop = false → p.whole.IsTextIn source quote) := by
  induction h with
  | done => exact ⟨.nil, List.forall_mem_nil _⟩
  | @drop i k j ps hd _ ih =>
    have hlt : i < k := by
      obtain ⟨inner, rest, -, rfl, -⟩ := Span.isDrop_iff.1 hd
      exact Nat.lt_add_of_pos_right (Text.size_pos (Atom.chars_ne_nil _))
    exact ⟨List.isChain_cons.2 ⟨fun _ _ => .inl rfl, ih.1⟩,
      List.forall_mem_cons.2 ⟨⟨hlt, fun _ => hd, nofun⟩, ih.2⟩⟩
  | text hlt ht hps _ ih =>
    exact ⟨List.isChain_cons.2 ⟨fun p hp => .inr (hps p hp), ih.1⟩,
      List.forall_mem_cons.2 ⟨⟨hlt, nofun, fun _ => ht.isTextIn.2⟩, ih.2⟩⟩

/-- The values of the grammar are split into their pieces. -/
theorem ValueParts.DerivedIn.splitIn {v : ValueParts} (h : v.DerivedIn source) :
    v.SplitIn source := by
  obtain ⟨value, rest, hstands, -, hv⟩ := derivedIn_iff.1 h
  obtain ⟨i, j, -, hrun, -⟩ := h
  obtain ⟨hchain, hpieces⟩ := hrun.pieces
  refine ⟨⟨value.content, ?_⟩, fun p hp => (hpieces p hp).1, hchain, fun p hp => (hpieces p hp).2.1,
    fun p hp => (hpieces p hp).2.2⟩
  rw [← hv]
  generalize v.whole.start = start at hstands
  have hwhole := slice?_eq hstands rfl
  rw [Value.chars, List.append_assoc, List.append_assoc] at hstands
  have hcontent := stands_skip hstands
  refine ⟨slice?_eq hcontent ?_, hwhole, ?_⟩
  · simp only [ofValue, Span.ofText, Value.chars, Text.size_append]
    omega
  · rw [ofValue, List.map_map]
    exact tiled_locate hcontent

end

/-! ## Values of tokens -/

/-- The attributes among the parts of a token. -/
def Parts.attributes : Parts → List AttributeParts
  | .startTag head | .rawElement head _ _ => head.attributes
  | _ => []

/-- The attributes of tokens stand by the grammar. -/
theorem Cursor.Stands.derivedIn {source : Text} {c : Cursor} {t : Token} (hc : c.Stands source)
    (ht : t ∈ c.tokens) : ∀ a ∈ t.parts.attributes, a.DerivedIn source := by
  obtain ⟨before, rest, hs, hstart, hn⟩ := next?_of_mem_tokens hc ht
  have hstands : Stands source ⟨t.start, t.item.chars ++ rest⟩ := ⟨before, hs, hstart⟩
  obtain ⟨start, item⟩ := t
  cases item with
  | startTag head =>
    have hhead := ((Lexeme.next?_chars_iff rfl).1 hn).1
    exact (HeadParts.derivedIn_ofHead hstands hhead).forall_attributes
  | rawElement head body closeName closeRest =>
    have hhead := ((Lexeme.next?_chars_iff rfl).1 hn).1
    have hstands' : Stands source
        ⟨start, head.chars ++ (body ++ (Lexeme.closeChars closeName closeRest ++ rest))⟩ := by
      simpa [Lexeme.chars, Lexeme.closeChars] using hstands
    exact (HeadParts.derivedIn_ofHead hstands' hhead).forall_attributes
  | _ => exact List.forall_mem_nil _

/-- The values of tokens are split into their pieces. -/
theorem Cursor.Stands.splitIn {source : Text} {c : Cursor} {t : Token} (hc : c.Stands source)
    (ht : t ∈ c.tokens) {a : AttributeParts} (ha : a ∈ t.parts.attributes) {v : ValueParts}
    (hv : v ∈ a.value) : v.SplitIn source := by
  have hvalue := (hc.derivedIn ht a ha).value
  rw [Option.mem_def.1 hv] at hvalue
  obtain ⟨-, -, -, hv, -⟩ := hvalue
  exact hv.splitIn

end LiquidTemplate
