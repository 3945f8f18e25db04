import LiquidTemplate.Proofs.Text.Run

/-!
# Slices

Cutting a text at the size of one of its prefixes gives back that prefix (`splitAt?_eq_some_iff`),
so a span covers a text exactly when the text stands there (`slice?_eq_some_iff`). A text is the
blanks in front, what trimming leaves, and the blanks at the end (`trim_append`).
-/

namespace LiquidTemplate.Text

theorem splitAtMost_size_append (before after : Text) :
    splitAtMost (size before) (before ++ after) = (before, after) := by
  induction before with
  | nil =>
    cases after with
    | nil => rfl
    | cons c rest =>
      have := c.utf8Size_pos
      rw [size_nil, List.nil_append, splitAtMost_cons, if_neg (by omega)]
  | cons c before ih =>
    rw [size_cons, List.cons_append, splitAtMost_cons, if_pos (by omega),
      Nat.add_sub_cancel_left, ih]

/-- Behind a text, offsets are counted on from its size. -/
theorem splitAtMost_append_size_add (s t : Text) (k : Nat) :
    splitAtMost (size s + k) (s ++ t) = (s ++ (splitAtMost k t).1, (splitAtMost k t).2) := by
  induction s with
  | nil => rw [size_nil, Nat.zero_add, List.nil_append, List.nil_append]
  | cons c s ih =>
    rw [size_cons, List.cons_append, splitAtMost_cons, if_pos (by omega), Nat.add_assoc,
      Nat.add_sub_cancel_left, ih]
    rfl

/-- A text is cut at one place only by what stands in front of it. -/
theorem append_inj_of_size {s s' t t' : Text} (h : s ++ t = s' ++ t') (hsize : size s = size s') :
    s = s' ∧ t = t' := by
  have hsplit := splitAtMost_size_append s t
  rw [h, hsize, splitAtMost_size_append] at hsplit
  exact Prod.mk.inj hsplit.symm

/-- A place between two texts, in the middle of the three texts that they are cut into as well. -/
theorem append_eq_append_of_size {before after front middle back : Text}
    (h : before ++ after = front ++ (middle ++ back)) (hfront : size front < size before)
    (hmiddle : size before < size (front ++ middle)) :
    ∃ u v, before = front ++ u ∧ middle = u ++ v ∧ after = v ++ back := by
  rw [← List.append_assoc] at h
  rcases List.append_eq_append_iff.1 h with ⟨v, hv, rfl⟩ | ⟨v, rfl, -⟩
  · rcases List.append_eq_append_iff.1 hv with ⟨u, rfl, rfl⟩ | ⟨u, rfl, -⟩
    · exact ⟨u, v, rfl, rfl, rfl⟩
    · rw [size_append] at hfront
      omega
  · rw [size_append] at hmiddle
    omega

theorem splitAt?_eq_some_iff {offset : Nat} {t before after : Text} :
    splitAt? offset t = some (before, after) ↔ t = before ++ after ∧ size before = offset := by
  constructor
  · intro h
    obtain ⟨ht, hs⟩ := append_of_splitAt? h
    exact ⟨ht.symm, hs⟩
  · rintro ⟨rfl, rfl⟩
    simp [splitAt?, splitAtMost_size_append]

/-- A span covers the text that stands at its start and is as long as the span. -/
theorem slice?_eq_some_iff {source covered : Text} {s : Span} :
    slice? source s = some covered ↔
      ∃ before after, source = before ++ covered ++ after ∧ size before = s.start ∧
        s.stop = s.start + size covered := by
  constructor
  · intro h
    obtain ⟨⟨before, rest⟩, hb, h⟩ := Option.bind_eq_some_iff.1 h
    obtain ⟨_, hle, h⟩ := Option.bind_eq_some_iff.1 h
    obtain ⟨⟨covered', after⟩, ha, h⟩ := Option.bind_eq_some_iff.1 h
    cases h
    obtain ⟨rfl, hs⟩ := splitAt?_eq_some_iff.1 hb
    obtain ⟨rfl, hl⟩ := splitAt?_eq_some_iff.1 ha
    have hle : s.start ≤ s.stop := by
      by_cases hle' : s.start ≤ s.stop
      · exact hle'
      · have hnone : guard (s.start ≤ s.stop) = (none : Option Unit) := if_neg hle'
        rw [hnone] at hle
        cases hle
    refine ⟨before, after, (List.append_assoc _ _ _).symm, hs, ?_⟩
    rw [Span.length] at hl
    omega
  · rintro ⟨before, after, rfl, hs, hstop⟩
    have hle : s.start ≤ s.stop := by omega
    refine Option.bind_eq_some_iff.2
      ⟨(before, covered ++ after), splitAt?_eq_some_iff.2 ⟨by simp, hs⟩, ?_⟩
    refine Option.bind_eq_some_iff.2 ⟨(), if_pos hle, ?_⟩
    refine Option.bind_eq_some_iff.2 ⟨(covered, after), splitAt?_eq_some_iff.2 ⟨rfl, ?_⟩, rfl⟩
    rw [Span.length]
    omega

theorem size_reverse (t : Text) : size t.reverse = size t := by
  induction t with
  | nil => rfl
  | cons c t ih =>
    rw [List.reverse_cons, size_append, ih, size_cons, size_cons, size_nil]
    omega

/-! ## Blank texts -/

/-- The blanks at the end, if trimming in front leaves anything. -/
def trailingBlanks (t : Text) : Text := ((trimStart t).reverse.takeWhile isBlank).reverse

theorem allBlank_trailingBlanks (t : Text) : AllBlank (trailingBlanks t) := by
  intro c hc
  exact mem_takeWhile_imp c (List.mem_reverse.1 hc)

theorem trim_append (t : Text) : leadingBlanks t ++ trim t ++ trailingBlanks t = t := by
  have h : trim t ++ trailingBlanks t = trimStart t := by
    rw [trim, trimEnd, trailingBlanks, ← List.reverse_append, List.takeWhile_append_dropWhile,
      List.reverse_reverse]
  rw [List.append_assoc, h, leadingBlanks_append_trimStart]

/-- Trimming leaves nothing of a blank text, and of no other. -/
theorem trim_eq_nil_iff {t : Text} : trim t = [] ↔ AllBlank t := by
  constructor
  · intro h
    rw [← trim_append t, h, List.append_nil]
    exact (allBlank_leadingBlanks t).append (allBlank_trailingBlanks t)
  · intro h
    have hstart : trimStart t = [] := by
      simpa using (blanks_append_of_stops h (by simp [Stops] : Stops isBlank [])).2
    rw [trim, hstart]
    rfl

/-- Trimming leaves no blank in front. -/
theorem stops_trim (t : Text) : Stops isBlank (trim t) := by
  have h : trim t ++ trailingBlanks t = trimStart t := by
    have := trim_append t
    rw [List.append_assoc] at this
    exact List.append_cancel_left (this.trans (leadingBlanks_append_trimStart t).symm)
  cases htrim : trim t with
  | nil => simp [Stops]
  | cons c rest =>
    have hs := stops_trimStart t
    rw [← h, htrim] at hs
    exact stops_cons.2 (stops_cons.1 hs)

theorem leadingBlanks_trim (t : Text) : leadingBlanks (trim t) = [] :=
  (blanks_append_of_stops allBlank_nil (stops_trim t)).1

/-- What is trimmed once is trimmed. -/
theorem trim_trim (t : Text) : trim (trim t) = trim t := by
  have hstart : trimStart (trim t) = trim t :=
    (blanks_append_of_stops allBlank_nil (stops_trim t)).2
  have hend : (trim t).reverse.dropWhile isBlank = (trim t).reverse := by
    have hs := stops_dropWhile isBlank (trimStart t).reverse
    rw [trim, trimEnd, List.reverse_reverse]
    exact (takeWhile_append_of_stops (List.forall_mem_nil _) hs).2
  rw [trim, hstart, trimEnd, hend, List.reverse_reverse]

end LiquidTemplate.Text
