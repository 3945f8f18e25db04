import LiquidTemplate.Proofs.Reader.Heads
import LiquidTemplate.Proofs.Token.FirstEnds

/-!
# Values in a template

What a value is, said by offsets into the template alone: between its quotes, text and drops follow
each other up to the first character that stops the value, and text is made of characters and whole
Liquid tags. The values that stand in a template are those that are read there
(`ValueParts.derivedIn_iff`).
-/

namespace LiquidTemplate

open Cursor (Stands)
open Reader (pieceParts slice?_eq stands_of_slice? stands_skip stands_unique)

/-! ## Drops and Liquid tags -/

/-- The span is a drop up to its first `}}`. -/
def Span.IsDrop (source : Text) (s : Span) : Prop :=
  ∃ inner, s.EndsFirst source ['{', '{'] inner ['}', '}']

/-- The span is a Liquid tag up to its first `%}`. -/
def Span.IsTag (source : Text) (s : Span) : Prop :=
  ∃ inner, s.EndsFirst source ['{', '%'] inner ['%', '}']

section

variable {source : Text} {i j : Nat}

theorem Delimiter.endsFirst_iff {d : Delimiter} {inner : Text} {s : Span} :
    s.EndsFirst source d.opening inner d.closing ↔
      Text.slice? source s = some (d.enclose inner) ∧ d.Closes inner := by
  constructor
  · rintro ⟨hslice, hleast⟩
    refine ⟨hslice, ?_⟩
    obtain ⟨before, rest, rfl, hstart, -⟩ := Text.slice?_eq_some_iff.1 hslice
    have hsource : before ++ (d.opening ++ inner ++ d.closing) ++ rest =
        before ++ d.opening ++ (inner ++ d.closing ++ rest) := by simp
    rw [hsource, ← hstart, ← Text.size_append] at hleast
    cases hf : d.finish? (inner ++ d.closing ++ rest) with
    | none =>
      have hnone := (Text.splitFirst?_eq_none_iff_places (before ++ d.opening)).1 hf
      rw [hnone] at hleast
      exact hleast.1.elim
    | some found =>
      obtain ⟨m, after⟩ := found
      have hm := hleast.unique (Text.isLeast_of_splitFirst? (before ++ d.opening) hf)
      have htext := append_of_finish? hf
      rw [List.append_assoc, List.append_assoc] at htext
      obtain ⟨rfl, -⟩ := Text.append_inj_of_size htext (Nat.add_left_cancel hm)
      exact closes_of_finish? hf
  · rintro ⟨hslice, hcloses⟩
    obtain ⟨before, rest, rfl, hstart, hstop⟩ := Text.slice?_eq_some_iff.1 hslice
    have hspan : s = .ofText (Text.size before) (d.enclose inner) := by
      rw [Span.ofText, hstart, ← hstop]
    rw [hspan, List.append_assoc]
    exact endsFirst_enclose hcloses

theorem Delimiter.exists_endsFirst_iff {d : Delimiter} :
    (∃ inner, Span.EndsFirst source d.opening inner d.closing ⟨i, j⟩) ↔
      ∃ inner rest, Stands source ⟨i, d.enclose inner ++ rest⟩ ∧
        j = i + Text.size (d.enclose inner) ∧ d.Closes inner := by
  constructor
  · rintro ⟨inner, h⟩
    obtain ⟨hslice, hcloses⟩ := endsFirst_iff.1 h
    obtain ⟨rest, hstands, hstop⟩ := stands_of_slice? hslice
    exact ⟨inner, rest, hstands, hstop, hcloses⟩
  · rintro ⟨inner, rest, hstands, hstop, hcloses⟩
    exact ⟨inner, endsFirst_iff.2 ⟨slice?_eq hstands hstop, hcloses⟩⟩

theorem Span.isDrop_iff :
    Span.IsDrop source ⟨i, j⟩ ↔ ∃ inner rest, Stands source ⟨i, (Atom.drop inner).chars ++ rest⟩ ∧
      j = i + Text.size (Atom.drop inner).chars ∧ Delimiter.drop.Closes inner :=
  Delimiter.exists_endsFirst_iff (d := .drop)

theorem Span.isTag_iff :
    Span.IsTag source ⟨i, j⟩ ↔ ∃ inner rest, Stands source ⟨i, (Atom.tag inner).chars ++ rest⟩ ∧
      j = i + Text.size (Atom.tag inner).chars ∧ Delimiter.tag.Closes inner :=
  Delimiter.exists_endsFirst_iff (d := .tag)

end

/-! ## Pieces -/

/-- From the first offset to the second there are only characters that do not stop the value and
begin neither a drop nor a Liquid tag, and Liquid tags. -/
inductive TextRun (source : Text) (stop : Char → Bool) : Nat → Nat → Prop
  | done (i : Nat) : TextRun source stop i i
  | char {i j : Nat} {c : Char} {rest : Text} : Stands source ⟨i, c :: rest⟩ → stop c = false →
    opensLiquid (c :: rest) = false → TextRun source stop (i + c.utf8Size) j →
    TextRun source stop i j
  | tag {i k j : Nat} : Span.IsTag source ⟨i, k⟩ → TextRun source stop k j →
    TextRun source stop i j

/-- From the first offset to the second the pieces follow each other: drops, and text, of which
there are never two in a row. A character that stops the value stands behind the last one, if any
character does. -/
inductive PieceRun (source : Text) (stop : Char → Bool) : Nat → List PieceParts → Nat → Prop
  | done {i : Nat} {rest : Text} : Stands source ⟨i, rest⟩ → Text.Stops (!stop ·) rest →
    PieceRun source stop i [] i
  | drop {i k j : Nat} {ps : List PieceParts} : Span.IsDrop source ⟨i, k⟩ →
    PieceRun source stop k ps j → PieceRun source stop i (⟨true, ⟨i, k⟩⟩ :: ps) j
  | text {i k j : Nat} {ps : List PieceParts} : i < k → TextRun source stop i k →
    (∀ p ∈ ps.head?, p.isDrop = true) → PieceRun source stop k ps j →
    PieceRun source stop i (⟨false, ⟨i, k⟩⟩ :: ps) j

section

variable {source rest : Text} {stop : Char → Bool} {i j k : Nat}

theorem TextRun.trans (h : TextRun source stop i k) (h' : TextRun source stop k j) :
    TextRun source stop i j := by
  induction h with
  | done => exact h'
  | char hc hs ho _ ih => exact .char hc hs ho (ih h')
  | tag ht _ ih => exact .tag ht (ih h')

/-- A run of text in front of atoms is made of atoms too, and becomes part of the first piece. -/
theorem TextRun.atoms {as : List Atom} (h : TextRun source stop i j)
    (hstands : Stands source ⟨j, as.flatMap Atom.chars ++ rest⟩)
    (has : Atom.AllReadBefore stop rest as) :
    ∃ v bs, Stands source ⟨i, bs.flatMap Atom.chars ++ rest⟩ ∧ Atom.AllReadBefore stop rest bs ∧
      bs.flatMap Atom.chars = v ++ as.flatMap Atom.chars ∧ j = i + Text.size v ∧
        Atom.pieces bs = Piece.join v (Atom.pieces as) := by
  induction h with
  | done i => exact ⟨[], as, hstands, has, rfl, rfl, (Piece.join_nil _).symm⟩
  | @char i j c more hc hs ho _ ih =>
    obtain ⟨v, bs, hbs, hread, hchars, hj, hpieces⟩ := ih hstands
    obtain rfl := stands_unique (stands_skip (s := [c]) hc) hbs
    refine ⟨c :: v, .char c :: bs, hc, ⟨⟨hs, ho⟩, hread⟩, ?_, ?_, ?_⟩
    · rw [List.flatMap_cons, hchars]
      rfl
    · rw [hj, Text.size_cons, Nat.add_assoc]
    · rw [Atom.pieces, hpieces, Piece.join_join]
      rfl
  | @tag i k j ht _ ih =>
    obtain ⟨v, bs, hbs, hread, hchars, hj, hpieces⟩ := ih hstands
    obtain ⟨inner, more, hinner, rfl, hcloses⟩ := Span.isTag_iff.1 ht
    obtain rfl := stands_unique (stands_skip hinner) hbs
    refine ⟨(Atom.tag inner).chars ++ v, .tag inner :: bs, ?_, ⟨hcloses, hread⟩, ?_, ?_, ?_⟩
    · rwa [List.flatMap_cons, List.append_assoc]
    · rw [List.flatMap_cons, hchars, List.append_assoc]
    · rw [hj, Text.size_append, Nat.add_assoc]
    · rw [Atom.pieces, hpieces, Piece.join_join]

/-- Text in front of pieces is a piece of its own, unless the first of them is text. -/
theorem Piece.join_of_isDrop {v : Text} {qs : List Piece} (hv : v ≠ [])
    (hqs : ∀ p ∈ (pieceParts k qs).head?, p.isDrop = true) : join v qs = text v :: qs := by
  match qs with
  | [] => exact if_neg hv
  | .drop inner :: qs => exact if_neg hv
  | .text w :: qs =>
    rw [Reader.pieceParts_cons] at hqs
    cases hqs _ rfl

/-- Text in front of pieces is a piece of its own, or part of the first one. -/
theorem PieceRun.join {v : Text} {qs : List Piece} (hv : v ≠ [])
    (h : TextRun source stop i (i + Text.size v))
    (h' : PieceRun source stop (i + Text.size v) (pieceParts (i + Text.size v) qs) j) :
    PieceRun source stop i (pieceParts i (Piece.join v qs)) j := by
  have hlt : i < i + Text.size v := Nat.lt_add_of_pos_right (Text.size_pos hv)
  match qs with
  | [] =>
    have hnil : ∀ p ∈ (pieceParts (i + Text.size v) []).head?, p.isDrop = true := by
      rintro p ⟨⟩
    rw [Piece.join_of_isDrop hv hnil, Reader.pieceParts_cons]
    exact .text hlt h hnil h'
  | .drop inner :: qs =>
    have hdrop : ∀ p ∈ (pieceParts (i + Text.size v) (.drop inner :: qs)).head?,
        p.isDrop = true := by
      rw [Reader.pieceParts_cons]
      rintro p ⟨⟩
      rfl
    rw [Piece.join_of_isDrop hv hdrop, Reader.pieceParts_cons]
    exact .text hlt h hdrop h'
  | .text w :: qs =>
    rw [Reader.pieceParts_cons] at h'
    rw [show Piece.join v (.text w :: qs) = .text (v ++ w) :: qs from rfl, Reader.pieceParts_cons]
    have hsize : i + Text.size (v ++ w) = i + Text.size v + Text.size w := by
      rw [Text.size_append, Nat.add_assoc]
    cases h' with
    | text hlt' hw hqs hrest =>
      have hrun := h.trans hw
      simp only [Piece.chars] at hrun hqs hrest
      simp only [PieceParts.ofPiece, Piece.chars, Span.ofText, hsize]
      exact .text (hlt.trans hlt') hrun hqs hrest

/-- Between the offsets of a run of pieces stand atoms that can be read, and their pieces are those
of the run. -/
theorem PieceRun.exists_atoms (hb : stop '{' = false) {ps : List PieceParts}
    (h : PieceRun source stop i ps j) :
    ∃ as rest, Stands source ⟨i, as.flatMap Atom.chars ++ rest⟩ ∧
      j = i + Text.size (as.flatMap Atom.chars) ∧ Atom.AllReadBefore stop rest as ∧
        ps = pieceParts i (Atom.pieces as) := by
  induction h with
  | @done i rest hstands hstop =>
    refine ⟨[], rest, hstands, rfl, ?_, rfl⟩
    rintro c more rfl
    have hc : stop c = true := by simpa using Text.stops_cons.1 hstop
    refine ⟨hc, opensLiquid_eq_false_of_ne ?_⟩
    rintro rfl
    rw [hb] at hc
    cases hc
  | @drop i k j ps hd _ ih =>
    obtain ⟨as, rest, hstands, hj, has, rfl⟩ := ih
    obtain ⟨inner, more, hinner, rfl, hcloses⟩ := Span.isDrop_iff.1 hd
    obtain rfl := stands_unique (stands_skip hinner) hstands
    refine ⟨.drop inner :: as, rest, ?_, ?_, ⟨hcloses, has⟩, ?_⟩
    · rwa [List.flatMap_cons, List.append_assoc]
    · rw [hj, List.flatMap_cons, Text.size_append, Nat.add_assoc]
    · rw [Atom.pieces, Reader.pieceParts_cons]
      rfl
  | @text i k j ps hlt ht hps _ ih =>
    obtain ⟨as, rest, hstands, hj, has, rfl⟩ := ih
    obtain ⟨v, bs, hbs, hread, hchars, rfl, hpieces⟩ := ht.atoms hstands has
    have hv : v ≠ [] := by
      rintro rfl
      exact Nat.lt_irrefl _ hlt
    refine ⟨bs, rest, hbs, ?_, hread, ?_⟩
    · rw [hj, hchars, Text.size_append, Nat.add_assoc]
    · rw [hpieces, Piece.join_of_isDrop hv hps, Reader.pieceParts_cons]
      rfl

/-- The pieces of atoms that can be read follow each other. -/
theorem PieceRun.of_atoms {as : List Atom}
    (hstands : Stands source ⟨i, as.flatMap Atom.chars ++ rest⟩)
    (has : Atom.AllReadBefore stop rest as) :
    PieceRun source stop i (pieceParts i (Atom.pieces as))
      (i + Text.size (as.flatMap Atom.chars)) := by
  induction as generalizing i with
  | nil =>
    refine .done hstands fun c hc => ?_
    obtain ⟨more, rfl⟩ := List.head?_eq_some_iff.1 hc
    simp [(has c more rfl).1]
  | cons a as ih =>
    rw [List.flatMap_cons, List.append_assoc] at hstands
    have hrun := ih (stands_skip hstands) has.2
    rw [List.flatMap_cons, Text.size_append, ← Nat.add_assoc]
    cases a with
    | drop inner =>
      rw [Atom.pieces, Reader.pieceParts_cons]
      exact .drop (Span.isDrop_iff.2 ⟨inner, _, hstands, rfl, has.1⟩) hrun
    | char c =>
      exact hrun.join (Atom.chars_ne_nil _) (.char hstands has.1.1 has.1.2 (.done _))
    | tag inner =>
      exact hrun.join (Atom.chars_ne_nil _)
        (.tag (Span.isTag_iff.2 ⟨inner, _, hstands, rfl, has.1⟩) (.done _))

end

/-! ## Values -/

/-- A value stands here: its quote, pieces up to the first character that stops it, and its quote
again. Without quotes there is at least one piece. -/
def ValueParts.DerivedIn (source : Text) (v : ValueParts) : Prop :=
  ∃ i j, Text.slice? source ⟨v.whole.start, i⟩ = some (Quote.chars v.quote) ∧
    PieceRun source (Value.stops v.quote) i v.pieces j ∧
      Text.slice? source ⟨j, v.whole.stop⟩ = some (Quote.chars v.quote) ∧
        (v.quote = none → v.pieces ≠ [])

theorem Value.stops_brace (quote : Option Quote) : stops quote '{' = false := by
  match quote with
  | none => decide
  | some .single => decide
  | some .double => decide

/-- The values that stand in a template are those that are read there. -/
theorem ValueParts.derivedIn_iff {source : Text} {v : ValueParts} :
    v.DerivedIn source ↔ ∃ value rest, Stands source ⟨v.whole.start, value.chars ++ rest⟩ ∧
      value.ReadBefore rest ∧ ofValue ⟨v.whole.start, value⟩ = v := by
  have hchars (quote : Option Quote) (as : List Atom) :
      (⟨quote, Atom.pieces as⟩ : Value).chars =
        Quote.chars quote ++ (as.flatMap Atom.chars ++ Quote.chars quote) := by
    rw [Value.chars, Value.content, Atom.flatMap_chars_pieces, List.append_assoc]
  obtain ⟨⟨start, stop⟩, quote, ps⟩ := v
  constructor
  · rintro ⟨i, j, hopen, hrun, hclose, hne⟩
    dsimp only at hopen hrun hclose hne ⊢
    obtain ⟨as, rest, hstands, rfl, has, rfl⟩ := hrun.exists_atoms (Value.stops_brace quote)
    obtain ⟨t, hstart, rfl⟩ := stands_of_slice? hopen
    obtain rfl := stands_unique (stands_skip hstart) hstands
    obtain ⟨rest', hstop, rfl⟩ := stands_of_slice? hclose
    obtain rfl := stands_unique (stands_skip hstands) hstop
    refine ⟨⟨quote, Atom.pieces as⟩, rest', ?_, ⟨as, rfl, has, ?_⟩, ?_⟩
    · rw [hchars]
      simpa using hstart
    · rintro hq rfl
      exact hne hq rfl
    · simp only [ofValue, hchars, Span.ofText, Text.size_append, ← Nat.add_assoc]
      rfl
  · rintro ⟨⟨quote', ps'⟩, rest, hstands, ⟨as, rfl, has, hne⟩, hv⟩
    simp only [ofValue, mk.injEq, Span.ofText, Span.mk.injEq, true_and] at hv
    obtain ⟨rfl, rfl, rfl⟩ := hv
    dsimp only at hstands has hne
    rw [hchars, List.append_assoc, List.append_assoc] at hstands
    have hinner := stands_skip hstands
    refine ⟨_, _, slice?_eq hstands rfl, .of_atoms hinner has,
      slice?_eq (stands_skip hinner) ?_, fun hq hnil => ?_⟩
    · simp only [hchars, Text.size_append, ← Nat.add_assoc]
    · obtain ⟨p, qs, hcons⟩ := List.exists_cons_of_ne_nil (Atom.pieces_ne_nil (hne hq))
      have hnil : pieceParts (start + Text.size (Quote.chars quote')) (Atom.pieces as) = [] := hnil
      rw [hcons, Reader.pieceParts_cons] at hnil
      cases hnil

end LiquidTemplate
