import LiquidTemplate.Token.Basic
import LiquidTemplate.Proofs.Lexeme.Sequence
import LiquidTemplate.Proofs.Text.Within

/-!
# Contiguous tokens

The tokens of a template stand one behind the other without a gap (`contiguous_ofText`), so a run of
them is known from the offset it starts at and the text it covers. A template that is cut off behind
a token keeps the tokens in front of the cut (`ofText_covered`), and what is behind the cut has the
tokens behind it (`ofTextAt_covered`).
-/

namespace LiquidTemplate

/-- Lexemes behind others start where the text of those ends. -/
theorem Lexeme.locate_append (start : Nat) (xs ys : List Lexeme) :
    Located.locate size start (xs ++ ys) =
      Located.locate size start xs ++
        Located.locate size (start + Text.size (xs.flatMap chars)) ys :=
  Located.locate_append start xs ys

namespace Token

/-- The text that tokens were cut from. -/
def covered (ts : List Token) : Text := ts.flatMap fun t => t.item.chars

@[simp] theorem covered_nil : covered [] = [] := rfl

@[simp] theorem covered_cons (t : Token) (ts : List Token) :
    covered (t :: ts) = t.item.chars ++ covered ts := rfl

@[simp] theorem covered_append (ts us : List Token) :
    covered (ts ++ us) = covered ts ++ covered us := List.flatMap_append

theorem covered_eq (ts : List Token) :
    covered ts = (ts.map Located.item).flatMap Lexeme.chars := by
  simp [covered, List.flatMap_map]

/-- The first token starts at `start`, and each other one where the one before it stops. -/
def Contiguous (start : Nat) : List Token → Prop
  | [] => True
  | t :: ts => t.start = start ∧ Contiguous t.stop ts

theorem stop_eq (t : Token) : t.stop = t.start + Text.size t.item.chars := rfl

theorem contiguous_append {start : Nat} {ts us : List Token} :
    Contiguous start (ts ++ us) ↔
      Contiguous start ts ∧ Contiguous (start + Text.size (covered ts)) us := by
  induction ts generalizing start with
  | nil => simp [Contiguous]
  | cons t ts ih =>
    simp only [List.cons_append, Contiguous, ih, stop_eq, covered_cons, Text.size_append, and_assoc]
    constructor
    · rintro ⟨rfl, ht, hu⟩
      exact ⟨rfl, ht, by rwa [← Nat.add_assoc]⟩
    · rintro ⟨rfl, ht, hu⟩
      exact ⟨rfl, ht, by rwa [Nat.add_assoc]⟩

/-- Tokens are contiguous if and only if their lexemes were located one behind the other. -/
theorem contiguous_iff {start : Nat} {ts : List Token} :
    Contiguous start ts ↔ Located.locate Lexeme.size start (ts.map Located.item) = ts := by
  induction ts generalizing start with
  | nil => simp [Contiguous]
  | cons t ts ih =>
    obtain ⟨n, l⟩ := t
    simp only [Contiguous, List.map_cons, Located.locate_cons, List.cons.injEq, ih]
    constructor
    · rintro ⟨rfl, h⟩
      exact ⟨rfl, h⟩
    · rintro ⟨h₁, h₂⟩
      cases h₁
      exact ⟨rfl, h₂⟩

theorem map_item_locate (start : Nat) (ls : List Lexeme) :
    (Located.locate Lexeme.size start ls).map Located.item = ls := by
  induction ls generalizing start with
  | nil => rfl
  | cons l ls ih => rw [Located.locate_cons, List.map_cons, ih]

@[simp] theorem map_item_ofTextAt (start : Nat) (t : Text) :
    (ofTextAt start t).map Located.item = Lexeme.ofText t := map_item_locate start _

theorem forall_mem_ofText_iff {P : Lexeme → Prop} {t : Text} :
    (∀ u ∈ ofText t, P u.item) ↔ ∀ l ∈ Lexeme.ofText t, P l := by
  rw [← map_item_ofTextAt 0 t, List.forall_mem_map]
  rfl

theorem contiguous_ofTextAt (start : Nat) (t : Text) : Contiguous start (ofTextAt start t) := by
  rw [contiguous_iff, map_item_ofTextAt]
  rfl

theorem contiguous_ofText (t : Text) : Contiguous 0 (ofText t) := contiguous_ofTextAt 0 t

@[simp] theorem covered_ofText (t : Text) : covered (ofText t) = t := by
  rw [covered_eq, ofText, map_item_ofTextAt, Lexeme.flatMap_chars_ofText]

/-! ## Tokens that are split -/

section Split

variable {source : Text} {ts us : List Token} {t : Token}

theorem source_of_ofText (h : ofText source = ts ++ us) : source = covered ts ++ covered us := by
  rw [← covered_append, ← h, covered_ofText]

theorem contiguous_of_ofText (h : ofText source = ts ++ us) :
    Contiguous 0 ts ∧ Contiguous (Text.size (covered ts)) us := by
  have hcont := contiguous_ofText source
  rwa [h, contiguous_append, Nat.zero_add] at hcont

theorem lexemes_of_ofText (h : ofText source = ts ++ us) :
    Lexeme.ofText source = ts.map Located.item ++ us.map Located.item := by
  rw [← List.map_append, ← h, ofText, map_item_ofTextAt]

/-- The tokens in front of a cut do not change when what is behind it is taken away. -/
theorem ofText_covered (h : ofText source = ts ++ us)
    (hts : ∀ t ∈ ts, t.item.isInvalid = false) : ofText (covered ts) = ts := by
  rw [ofText, ofTextAt, covered_eq,
    Lexeme.ofText_flatMap_chars (lexemes_of_ofText h) (by simpa using hts)]
  exact contiguous_iff.1 (contiguous_of_ofText h).1

/-- The text behind a cut has the tokens behind it. -/
theorem ofTextAt_covered (h : ofText source = ts ++ us) :
    ofTextAt (Text.size (covered ts)) (covered us) = us := by
  rw [ofTextAt, covered_eq us, Lexeme.ofText_of_append (lexemes_of_ofText h)]
  exact contiguous_iff.1 (contiguous_of_ofText h).2

/-- The text from a token on has this token and those behind it. -/
theorem ofTextAt_start (h : ofText source = ts ++ t :: us) :
    source = covered ts ++ covered (t :: us) ∧ Text.size (covered ts) = t.start ∧
      ofTextAt t.start (covered (t :: us)) = t :: us := by
  obtain ⟨-, hstart, -⟩ := contiguous_of_ofText h
  exact ⟨source_of_ofText h, hstart.symm, hstart ▸ ofTextAt_covered h⟩

/-- The text behind a token has those behind it. -/
theorem ofTextAt_stop (h : ofText source = ts ++ t :: us) : ofTextAt t.stop (covered us) = us := by
  obtain ⟨-, hstart, -⟩ := contiguous_of_ofText h
  rw [List.append_cons] at h
  have hstop : t.stop = Text.size (covered (ts ++ [t])) := by
    rw [stop_eq, hstart, covered_append, Text.size_append, covered_cons, covered_nil,
      List.append_nil]
  exact hstop ▸ ofTextAt_covered h

/-- A token is read in front of the text that is left behind it. -/
theorem next?_of_lexemes {text : Text}
    (h : Lexeme.ofText text = ts.map Located.item ++ (t :: us).map Located.item) :
    Lexeme.next? (t.item.chars ++ covered us) = some (t.item, covered us) := by
  have hlexemes := Lexeme.ofText_of_append h
  rw [← covered_eq, covered_cons, List.map_cons] at hlexemes
  obtain ⟨rest, hnext, -⟩ := Lexeme.ofText_eq_cons hlexemes
  obtain rfl : covered us = rest := List.append_cancel_left (Lexeme.append_of_next? hnext)
  exact hnext

theorem next?_start (h : ofText source = ts ++ t :: us) :
    Lexeme.next? (t.item.chars ++ covered us) = some (t.item, covered us) :=
  next?_of_lexemes (lexemes_of_ofText h)

end Split

/-- From the start of the first token to the end of the last one is what they cover. -/
theorem Contiguous.enclosed {start : Nat} {ts : List Token} {t t' : Token}
    (h : Contiguous start (t :: ts ++ [t'])) :
    (⟨t.start, t'.stop⟩ : Span) = ⟨start, start + Text.size (covered (t :: ts ++ [t']))⟩ := by
  have hlast : t'.start = start + Text.size (covered (t :: ts)) := (contiguous_append.1 h).2.1
  have hfirst : t.start = start := h.1
  rw [stop_eq, hlast, hfirst, covered_append, Text.size_append, covered_cons t' [], covered_nil,
    List.append_nil, Nat.add_assoc]

theorem Contiguous.le_start {start : Nat} {ts : List Token} (h : Contiguous start ts) :
    ∀ t ∈ ts, start ≤ t.start := by
  induction ts generalizing start with
  | nil => simp
  | cons t ts ih =>
    obtain ⟨rfl, hts⟩ := h
    intro u hu
    rcases List.mem_cons.1 hu with rfl | hu
    · exact Nat.le_refl _
    · have := ih hts u hu
      rw [stop_eq] at this
      omega

theorem Contiguous.stop_le {start : Nat} {ts : List Token} (h : Contiguous start ts) :
    ∀ t ∈ ts, t.stop ≤ start + Text.size (covered ts) := by
  induction ts generalizing start with
  | nil => simp
  | cons t ts ih =>
    obtain ⟨rfl, hts⟩ := h
    rw [covered_cons, Text.size_append, ← Nat.add_assoc]
    exact List.forall_mem_cons.2 ⟨Nat.le_add_right _ _, ih hts⟩

/-- The other tokens of a template are in front of a token or behind it. -/
theorem ofText_around {source : Text} {ts us : List Token} {t : Token}
    (h : ofText source = ts ++ t :: us) :
    (∀ u ∈ ts, u.stop ≤ t.start) ∧ ∀ u ∈ us, t.stop ≤ u.start := by
  obtain ⟨hts, hstart, hus⟩ := contiguous_of_ofText h
  have hstop := hts.stop_le
  rw [Nat.zero_add, ← hstart] at hstop
  exact ⟨hstop, hus.le_start⟩

/-- Tokens start one behind the other. -/
theorem Contiguous.pairwise {start : Nat} {ts : List Token} (h : Contiguous start ts) :
    (ts.map Located.start).Pairwise (· ≤ ·) := by
  induction ts generalizing start with
  | nil => simp
  | cons t ts ih =>
    obtain ⟨rfl, hts⟩ := h
    refine List.pairwise_cons.2 ⟨fun n hn => ?_, ih hts⟩
    obtain ⟨u, hu, rfl⟩ := List.mem_map.1 hn
    have := hts.le_start u hu
    rw [stop_eq] at this
    omega

end Token

end LiquidTemplate
