import Mathlib.Data.Prod.Lex
import Mathlib.Order.Bounds.Basic
import LiquidTemplate.Text.Place
import LiquidTemplate.Proofs.Text.Boundary

/-!
# Lines and columns

One more character leads to a later place (`key_lt_advance`), and it does so no matter where the
text began (`compose_advance`). Carried over a text by induction, the first says that places are
ordered as the boundaries they belong to, and the second that a place behind two texts is made of a
place in each. Offsets come in by the text that stands in front of them (`ofOffset_size`).
-/

namespace LiquidTemplate.Place

/-- The line and the column, the line compared first. -/
def key (p : Place) : Nat ×ₗ Nat := toLex (p.line, p.column)

/-- The place `q` of a text that itself begins at `p`: only on its first line do columns add up. -/
def compose (p q : Place) : Place :=
  if 1 < q.line then ⟨p.line + q.line - 1, q.column⟩ else ⟨p.line, p.column + q.column - 1⟩

/-- There is a first line and a first column, and nothing in front of them. -/
structure FromOne (p : Place) : Prop where
  line : 1 ≤ p.line
  column : 1 ≤ p.column

section

variable (p : Place) {q : Place} (c : Char) (s t : Text)

theorem advanceAll_nil : p.advanceAll [] = p := rfl

theorem advanceAll_cons : p.advanceAll (c :: t) = (p.advance c).advanceAll t := rfl

theorem advanceAll_append : p.advanceAll (s ++ t) = (p.advanceAll s).advanceAll t :=
  List.foldl_append

/-! ## Later places -/

theorem key_lt_advance : p.key < (p.advance c).key := by
  unfold advance
  split
  · exact Prod.Lex.toLex_lt_toLex.2 (.inl (Nat.lt_succ_self _))
  · exact Prod.Lex.toLex_lt_toLex.2 (.inr ⟨rfl, Nat.lt_succ_self _⟩)

variable {t} in
theorem key_lt_advanceAll (ht : t ≠ []) : p.key < (p.advanceAll t).key := by
  induction t generalizing p with
  | nil => contradiction
  | cons c t ih =>
    have hc := p.key_lt_advance c
    rw [advanceAll_cons]
    by_cases hnil : t = []
    · rwa [hnil, advanceAll_nil]
    · exact hc.trans (ih (p.advance c) hnil)

/-! ## Places behind places -/

@[simp] theorem compose_origin : p.compose origin = p := rfl

theorem FromOne.advance (hq : q.FromOne) : (q.advance c).FromOne := by
  obtain ⟨hline, hcolumn⟩ := hq
  unfold Place.advance
  split
  · exact ⟨by simp, by simp⟩
  · exact ⟨hline, by simp⟩

theorem compose_advance (hq : q.FromOne) : (p.compose q).advance c = p.compose (q.advance c) := by
  obtain ⟨hline, hcolumn⟩ := hq
  by_cases hc : c = '\n'
  · have hlater : 1 < q.line + 1 := by omega
    simp only [advance, if_pos hc, compose, if_pos hlater]
    split <;> simp only [mk.injEq, and_true] <;> omega
  · simp only [advance, if_neg hc, compose]
    split
    · rfl
    · simp only [mk.injEq, true_and]
      omega

theorem compose_advanceAll (hq : q.FromOne) :
    (p.compose q).advanceAll t = p.compose (q.advanceAll t) := by
  induction t generalizing q with
  | nil => rfl
  | cons c t ih =>
    rw [advanceAll_cons, advanceAll_cons, p.compose_advance c hq, ih (hq.advance c)]

/-- A text is read in the same way wherever it begins. -/
theorem advanceAll_eq_compose : p.advanceAll t = p.compose (origin.advanceAll t) := by
  have h := p.compose_advanceAll t (q := origin) ⟨Nat.le_refl 1, Nat.le_refl 1⟩
  rwa [compose_origin] at h

end

/-! ## Counting -/

/-- The place behind a text, which is given in reverse, is counted from its line breaks. -/
theorem advanceAll_eq (r : Text) :
    origin.advanceAll r.reverse =
      ⟨r.reverse.count '\n' + 1, (r.takeWhile (· != '\n')).length + 1⟩ := by
  induction r with
  | nil => rfl
  | cons c r ih =>
    rw [List.reverse_cons, advanceAll_append, ih, advanceAll_cons, advanceAll_nil]
    by_cases hc : c = '\n' <;> simp [advance, hc]

/-- The place behind complete lines and a part of one more. -/
theorem advanceAll_lines {lines line : Text} (hlines : ∀ c ∈ lines.getLast?, c = '\n')
    (hline : '\n' ∉ line) :
    origin.advanceAll (lines ++ line) = ⟨lines.count '\n' + 1, line.length + 1⟩ := by
  have hrun : ∀ c ∈ line.reverse, (c != '\n') = true := fun c hc => by
    simp only [bne_iff_ne]
    rintro rfl
    exact hline (List.mem_reverse.1 hc)
  have hstops : Text.Stops (· != '\n') lines.reverse := fun c hc => by
    rw [List.head?_reverse] at hc
    simp [hlines c hc]
  have h := advanceAll_eq (line.reverse ++ lines.reverse)
  rw [(Text.takeWhile_append_of_stops hrun hstops).1, ← List.reverse_append, List.reverse_reverse,
    List.length_reverse, List.count_append, List.count_eq_zero.2 hline] at h
  exact h

/-! ## Offsets -/

theorem ofOffset_size (before after : Text) :
    ofOffset (before ++ after) (Text.size before) = origin.advanceAll before := by
  rw [ofOffset, Text.splitAtMost_size_append]

/-- An offset counts as the last boundary up to there. -/
theorem ofOffset_size_splitAtMost (source : Text) (offset : Nat) :
    ofOffset source (Text.size (Text.splitAtMost offset source).1) = ofOffset source offset := by
  have h := ofOffset_size (Text.splitAtMost offset source).1 (Text.splitAtMost offset source).2
  rwa [Text.splitAtMost_append] at h

theorem strictMonoOn_ofOffset (source : Text) :
    StrictMonoOn (fun a => (ofOffset source a).key) {a | Text.IsBoundary source a} := by
  rintro a ⟨before, after, rfl, rfl⟩ b ⟨before', after', hsplit, rfl⟩ hlt
  -- the text in front of the first boundary begins the one in front of the second
  rcases List.append_eq_append_iff.1 hsplit with ⟨m, rfl, rfl⟩ | ⟨m, rfl, rfl⟩
  · have hm : m ≠ [] := by
      rintro rfl
      simp at hlt
    have hplace := ofOffset_size (before ++ m) after'
    rw [List.append_assoc] at hplace
    simp only [ofOffset_size, hplace, advanceAll_append]
    exact key_lt_advanceAll _ hm
  · rw [Text.size_append] at hlt
    omega

theorem ofOffset_size_add (s t : Text) (k : Nat) :
    ofOffset (s ++ t) (Text.size s + k) =
      (ofOffset s (Text.size s)).compose (ofOffset t k) := by
  have hs := ofOffset_size s []
  rw [List.append_nil] at hs
  rw [hs, ofOffset, ofOffset, Text.splitAtMost_append_size_add, advanceAll_append]
  exact advanceAll_eq_compose _ _

/-- **Places tell the boundaries of a text apart and keep their order.** The line is compared first.
Any other offset has the place of the last boundary up to there, which is the end if the offset lies
behind it. The line of a boundary is one more than there are line breaks in front, the column one
more than there are characters behind the last of these. In a text behind another one the place is
composed of the place where that ends and the place in the text alone. -/
theorem embeds_boundaries (source : Text) :
    (∀ a b, Text.IsBoundary source a → Text.IsBoundary source b →
      ((ofOffset source a).key < (ofOffset source b).key ↔ a < b) ∧
        (ofOffset source a = ofOffset source b → a = b)) ∧
    (∀ offset, ∃ b,
      IsGreatest {n | Text.IsBoundary source n ∧ n ≤ min offset (Text.size source)} b ∧
        ofOffset source offset = ofOffset source b) ∧
    (∀ lines line after, source = lines ++ line ++ after → (∀ c ∈ lines.getLast?, c = '\n') →
      '\n' ∉ line →
        ofOffset source (Text.size (lines ++ line)) = ⟨lines.count '\n' + 1, line.length + 1⟩) ∧
    ∀ t k, ofOffset (source ++ t) (Text.size source + k) =
      (ofOffset source (Text.size source)).compose (ofOffset t k) := by
  have hmono := strictMonoOn_ofOffset source
  refine ⟨fun a b ha hb => ⟨hmono.lt_iff_lt ha hb, fun h => ?_⟩, fun offset => ?_, ?_,
    ofOffset_size_add source⟩
  · exact hmono.injOn ha hb (congrArg key h)
  · have hb := Text.isBoundary_size_splitAtMost offset source
    refine ⟨_, ⟨⟨hb, Nat.le_min.2 ⟨Text.size_splitAtMost_le offset source, hb.le_size⟩⟩, ?_⟩,
      (ofOffset_size_splitAtMost source offset).symm⟩
    rintro n ⟨hn, hle⟩
    exact Text.le_size_splitAtMost hn (Nat.le_min.1 hle).1
  · rintro lines line after rfl hlines hline
    rw [ofOffset_size, advanceAll_lines hlines hline]

/-- The bytes 5 and 6 are one character, on the second line. -/
theorem embeds_boundaries_wide_character :
    let source := "ab\ncdé\nf".toList
    (ofOffset source 5).key < (ofOffset source 7).key ∧ ofOffset source 5 ≠ ofOffset source 7 ∧
      ofOffset source 7 = ⟨2, 4⟩ ∧ ofOffset source 6 = ofOffset source 5 ∧
      ofOffset (source ++ "g\nh".toList) 11 = ⟨4, 1⟩ := by
  intro source
  have h₅ : Text.IsBoundary source 5 := ⟨"ab\ncd".toList, "é\nf".toList, rfl, by decide⟩
  have h₇ : Text.IsBoundary source 7 := ⟨"ab\ncdé".toList, "\nf".toList, rfl, by decide⟩
  obtain ⟨hboundaries, -, hlines, happend⟩ := embeds_boundaries source
  obtain ⟨hlt, hinj⟩ := hboundaries 5 7 h₅ h₇
  refine ⟨hlt.2 (by decide), fun h => absurd (hinj h) (by decide), ?_, by decide, ?_⟩
  · have hbreak : ∀ c ∈ "ab\n".toList.getLast?, c = '\n' := fun c hc => (Option.some.inj hc).symm
    exact hlines "ab\n".toList "cdé".toList "\nf".toList rfl hbreak (by decide)
  · exact (happend "g\nh".toList 2).trans (by decide)

end LiquidTemplate.Place
