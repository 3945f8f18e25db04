import LiquidTemplate.Proofs.Lexeme.Closed
import LiquidTemplate.Parse.Key

/-!
# Adding a trim marker

Where a construct has no trim marker on a side, one can be added there. This changes nothing but the
marker: the construct still ends at its closing delimiter (`Side.closes_mark`), and the markup
between the markers is the same (`Side.ofInner_mark`), so names and keys are.
-/

namespace LiquidTemplate

/-- The markup of two constructs differs in trim markers only, and the second one closes where the
first one does. -/
structure Delimiter.SameMarkup (d : Delimiter) (inner inner' : Text) : Prop where
  closes : d.Closes inner → d.Closes inner'
  text : (Markup.ofInner inner').text = (Markup.ofInner inner).text

/-- Tags of the same markup differ in trim markers only. -/
theorem Tag.ofInner_eq_of_text {inner inner' : Text}
    (h : (Markup.ofInner inner').text = (Markup.ofInner inner).text) :
    ofInner inner' = { ofInner inner with trims := (Markup.ofInner inner').trims } := by
  simp only [ofInner, ofMarkup, h]

/-- A side of a construct. -/
inductive Side where
  | start
  | stop
deriving DecidableEq, Repr

namespace Side

/-- The same markers, with one on this side. -/
def set : Side → Trims → Trims
  | start, trims => { trims with start := .trim }
  | stop, trims => { trims with stop := .trim }

/-- Adds a marker to what two delimiters enclose. -/
def mark : Side → Text → Text
  | start, inner => '-' :: inner
  | stop, inner => inner ++ ['-']

/-- There is no marker on this side of what two delimiters enclose. One that is added to nothing is
always the marker in front. -/
def IsFree : Side → Text → Prop
  | start, inner => inner.head? ≠ some '-'
  | stop, inner => inner ≠ [] ∧ (Markup.ofInner inner).trims.stop = .keep

theorem size_mark (side : Side) (inner : Text) :
    Text.size (side.mark inner) = Text.size inner + 1 := by
  cases side with
  | start => exact Nat.add_comm 1 _
  | stop => exact Text.size_append inner ['-']

theorem size_enclose_mark (side : Side) (d : Delimiter) (inner : Text) :
    Text.size (d.enclose (side.mark inner)) = Text.size (d.enclose inner) + 1 := by
  simp only [Delimiter.enclose, Text.size_append, size_mark]
  omega

end Side

namespace Markup

theorem splitStart_marker (t : Text) : splitStart ('-' :: t) = (.trim, t) := rfl

theorem splitStart_of_head?_ne {t : Text} (h : t.head? ≠ some '-') :
    splitStart t = (.keep, t) := by
  unfold splitStart
  split
  · exact absurd rfl h
  · rfl

theorem splitStop_append (t : Text) : splitStop (t ++ ['-']) = (t, .trim) := by
  simp [splitStop, splitStart]

theorem fst_splitStop_of_keep {t : Text} (h : (splitStop t).2 = .keep) : (splitStop t).1 = t := by
  have hsplit := splitStop_chars t
  rwa [h, Trim.chars, List.append_nil] at hsplit

end Markup

namespace Side

variable {side : Side} {inner : Text}

/-- An added marker is read as what it is. -/
theorem ofInner_mark (h : side.IsFree inner) :
    Markup.ofInner (side.mark inner) =
      ⟨side.set (Markup.ofInner inner).trims, (Markup.ofInner inner).text⟩ := by
  cases side with
  | start =>
    simp only [mark, Markup.ofInner, set, Markup.splitStart_marker, Markup.splitStart_of_head?_ne h]
  | stop =>
    obtain ⟨hne, hkeep⟩ := h
    obtain ⟨c, rest, rfl⟩ := List.exists_cons_of_ne_nil hne
    by_cases hc : c = '-'
    · subst hc
      have hkeep : (Markup.splitStop rest).2 = .keep := hkeep
      simp only [mark, Markup.ofInner, set, List.cons_append, Markup.splitStart_marker,
        Markup.splitStop_append, Markup.fst_splitStop_of_keep hkeep]
    · have hhead (t : Text) : Markup.splitStart (c :: t) = (.keep, c :: t) :=
        Markup.splitStart_of_head?_ne (by simpa using hc)
      simp only [Markup.ofInner, hhead] at hkeep
      simp only [mark, Markup.ofInner, set, List.cons_append, hhead]
      rw [← List.cons_append, Markup.splitStop_append, Markup.fst_splitStop_of_keep hkeep]

/-- A marker is no part of a closing delimiter. -/
theorem closes_mark {d : Delimiter} (hd : d ≠ .comment) (h : d.Closes inner) :
    d.Closes (side.mark inner) := by
  obtain ⟨a, b, hclosing, ha, hb⟩ : ∃ a b, d.closing = [a, b] ∧ a ≠ '-' ∧ b ≠ '-' := by
    cases d with
    | drop => exact ⟨_, _, rfl, by decide, by decide⟩
    | tag => exact ⟨_, _, rfl, by decide, by decide⟩
    | comment => exact absurd rfl hd
  rw [Delimiter.Closes, Delimiter.finish?, Text.splitFirst?_eq_some_iff, hclosing] at h ⊢
  refine ⟨by simp, fun p q hpq hq hprefix => ?_⟩
  cases side with
  | start =>
    cases p with
    | nil =>
      obtain rfl : '-' :: inner = q := hpq
      exact ha (List.cons_prefix_cons.1 hprefix).1
    | cons c p =>
      obtain ⟨-, rfl⟩ := List.cons.inj (hpq : '-' :: inner = c :: (p ++ q))
      exact h.2 p q rfl hq hprefix
  | stop =>
    -- a closing that begins in front of the marker ends in front of it
    obtain ⟨q, rfl, hinner⟩ : ∃ r, q = r ++ ['-'] ∧ inner = p ++ r := by
      have hlast := List.dropLast_concat_getLast hq
      rw [← hlast, ← List.append_assoc] at hpq
      obtain ⟨hinner, hmarker⟩ := List.append_inj' hpq rfl
      exact ⟨_, by rw [hmarker, hlast], hinner⟩
    match q with
    | [] => exact ha (List.cons_prefix_cons.1 hprefix).1
    | [c] => exact hb (List.cons_prefix_cons.1 (List.cons_prefix_cons.1 hprefix).2).1
    | c :: e :: q =>
      obtain ⟨hc, hprefix⟩ := List.cons_prefix_cons.1 hprefix
      have he := (List.cons_prefix_cons.1 hprefix).1
      exact h.2 p _ hinner (by simp) ⟨q ++ [a, b], by simp [hc, he]⟩

theorem sameMarkup_mark {d : Delimiter} (hd : d ≠ .comment) (h : side.IsFree inner) :
    d.SameMarkup inner (side.mark inner) :=
  ⟨closes_mark hd, by rw [ofInner_mark h]⟩

end Side

end LiquidTemplate
