import LiquidTemplate.Lexeme.Raw
import LiquidTemplate.Proofs.Lexeme.Value

/-!
# Verbatim bodies do not depend on what follows them

The end of a body is found by searching forward, and the search looks at nothing behind the end tag
that it finds (`readElement?_append`, `readTag?_append`).
-/

namespace LiquidTemplate.Raw

theorem length_fold (name : Text) : (Keyword.fold name).length = name.length := by
  simp [Keyword.fold]

theorem endsName_append {u : Text} (hu : u ≠ []) (x : Text) : endsName (u ++ x) = endsName u := by
  cases u with
  | nil => exact absurd rfl hu
  | cons c u => rfl

/-- The name that an end tag is compared with, and the character behind it, are all that is looked
at. -/
theorem endTagOf?_append {name v : Text} (hv : name.length + 3 ≤ v.length) (x : Text) :
    endTagOf? name (v ++ x) = (endTagOf? name v).map fun r => (r.1, r.2 ++ x) := by
  match v, hv with
  | a :: b :: v, hv =>
    by_cases ha : a = '<'
    · subst ha
      by_cases hb : b = '/'
      · subst hb
        have hlen : name.length < v.length := by simp at hv; omega
        have htake : (v ++ x).take name.length = v.take name.length :=
          List.take_append_of_le_length (by omega)
        have hdrop : (v ++ x).drop name.length = v.drop name.length ++ x :=
          List.drop_append_of_le_length (by omega)
        have hne : v.drop name.length ≠ [] := by
          intro h
          have := congrArg List.length h
          rw [List.length_drop, List.length_nil] at this
          omega
        simp only [List.cons_append, endTagOf?, htake, hdrop, endsName_append hne]
        split <;> rfl
      · simp [endTagOf?, hb]
    · simp [endTagOf?, ha]

/-- An end tag of the element `name`. -/
theorem endTagOf?_eq_some_iff {name t written rest : Text} :
    endTagOf? name t = some (written, rest) ↔
      t = ['<', '/'] ++ written ++ rest ∧ Keyword.fold written = Keyword.fold name ∧
        endsName rest = true := by
  constructor
  · intro h
    refine ⟨append_of_endTagOf? h, ?_⟩
    unfold endTagOf? at h
    split at h
    · simp only [Option.ite_none_right_eq_some, Option.some.injEq, Prod.mk.injEq, Bool.and_eq_true,
        decide_eq_true_eq] at h
      obtain ⟨hcond, rfl, rfl⟩ := h
      exact hcond
    · cases h
  · rintro ⟨rfl, hfold, hends⟩
    have hlen : written.length = name.length := by
      rw [← length_fold, hfold, length_fold]
    have htake : (written ++ rest).take name.length = written := List.take_left' hlen
    have hdrop : (written ++ rest).drop name.length = rest := List.drop_left' hlen
    simp [endTagOf?, htake, hdrop, hfold, hends]

/-- A raw element ends at the first end tag of its own name, and that at the next `>`. -/
theorem readElement?_eq_some_iff {name t rest : Text} {e : ElementEnd} :
    readElement? name t = some (e, rest) ↔
      ∃ after, Text.firstSuffix? (endTagOf? name) t = some (e.body, e.name, after) ∧
        Text.splitFirst? ['>'] after = some (e.gap, rest) := by
  obtain ⟨body, written, gap⟩ := e
  simp only [readElement?, bind, Option.bind_eq_some_iff]
  constructor
  · rintro ⟨⟨body', written', after⟩, hb, ⟨gap', rest'⟩, hg, he⟩
    cases he
    exact ⟨after, hb, hg⟩
  · rintro ⟨after, hb, hg⟩
    exact ⟨_, hb, _, hg, rfl⟩

theorem readElement?_append {name t rest : Text} {e : ElementEnd}
    (h : readElement? name t = some (e, rest)) :
    ∃ u, t = u ++ rest ∧ ∀ x, readElement? name (u ++ x) = some (e, x) := by
  obtain ⟨body, written, gap⟩ := e
  obtain ⟨rest₁, hb, hg⟩ := readElement?_eq_some_iff.1 h
  obtain ⟨suffix, rfl, hs, hfail⟩ := Text.firstSuffix?_eq_some_iff.1 hb
  obtain ⟨rfl, hfold, hends⟩ := endTagOf?_eq_some_iff.1 hs
  obtain rfl := Text.append_of_splitFirst? hg
  rw [endsName_append (by simp)] at hends
  -- what decides between the candidates lies in the body and this core of the end tag
  have hlen : ∀ q : Text,
      name.length + 3 ≤ (q ++ (['<', '/'] ++ written ++ (gap ++ ['>']))).length := by
    intro q
    have : written.length = name.length := by rw [← length_fold, hfold, length_fold]
    simp
    omega
  refine ⟨body ++ (['<', '/'] ++ written ++ (gap ++ ['>'])), by simp, fun x => ?_⟩
  have hfound : endTagOf? name (['<', '/'] ++ written ++ (gap ++ ['>'] ++ x)) =
      some (written, gap ++ ['>'] ++ x) :=
    endTagOf?_eq_some_iff.2 ⟨rfl, hfold, by rw [endsName_append (by simp)]; exact hends⟩
  have hfirst : Text.firstSuffix? (endTagOf? name)
      (body ++ (['<', '/'] ++ written ++ (gap ++ ['>'] ++ x))) =
        some (body, written, gap ++ ['>'] ++ x) := by
    refine Text.firstSuffix?_eq_some_iff.2 ⟨_, rfl, hfound, fun p q hpq hq => ?_⟩
    have hold := hfail p q hpq hq
    rw [← List.append_assoc _ (gap ++ ['>']), ← List.append_assoc q, endTagOf?_append (hlen q),
      Option.map_eq_none_iff] at hold ⊢
    exact hold
  have hgap := Text.splitFirst?_append hg x
  refine readElement?_eq_some_iff.2 ⟨_, ?_, hgap⟩
  simpa only [List.append_assoc] using hfirst

section Loop

variable {name body t before rest inner rest' : Text}

theorem readTagOnto?_found (h₁ : Text.splitFirst? Delimiter.tag.opening t = some (before, rest))
    (h₂ : Delimiter.tag.finish? rest = some (inner, rest'))
    (hn : (Tag.ofInner inner).name = Keyword.endTag name) :
    readTagOnto? name body t = some ((before.reverse ++ body).reverse, inner, rest') := by
  rw [readTagOnto?]
  split
  · next h => rw [h₁] at h; cases h
  · next h =>
    rw [h₁] at h
    cases h
    split
    · next h => rw [h₂] at h; cases h
    · next h => rw [h₂] at h; cases h; rw [if_pos hn]

theorem readTagOnto?_skip (h₁ : Text.splitFirst? Delimiter.tag.opening t = some (before, rest))
    (h₂ : Delimiter.tag.finish? rest = some (inner, rest'))
    (hn : (Tag.ofInner inner).name ≠ Keyword.endTag name) :
    readTagOnto? name body t =
      readTagOnto? name ((Delimiter.tag.enclose inner).reverse ++ (before.reverse ++ body))
        rest' := by
  rw [readTagOnto?]
  split
  · next h => rw [h₁] at h; cases h
  · next h =>
    rw [h₁] at h
    cases h
    split
    · next h => rw [h₂] at h; cases h
    · next h => rw [h₂] at h; cases h; rw [if_neg hn]

end Loop

theorem readTagOnto?_append {name body t body' closing rest : Text}
    (h : readTagOnto? name body t = some (body', closing, rest)) :
    ∃ u, t = u ++ rest ∧ ∀ x, readTagOnto? name body (u ++ x) = some (body', closing, x) := by
  fun_induction readTagOnto? name body t with
  | case1 => cases h
  | case2 => cases h
  | case3 body t before rest₁ h₁ inner rest₂ h₂ hn =>
    simp only [Option.some.injEq, Prod.mk.injEq] at h
    obtain ⟨rfl, rfl, rfl⟩ := h
    refine ⟨before ++ Delimiter.tag.enclose inner, ?_, fun x => ?_⟩
    · simp [Text.append_of_splitFirst? h₁, Delimiter.append_of_finish? h₂, Delimiter.enclose]
    · have h₁ := Text.splitFirst?_append h₁ (inner ++ Delimiter.tag.closing ++ x)
      have h₂ := Delimiter.finish?_append h₂ x
      simp only [Delimiter.enclose, List.append_assoc] at h₁ h₂ ⊢
      exact readTagOnto?_found h₁ h₂ hn
  | case4 body t before rest₁ h₁ inner rest₂ h₂ hn ih =>
    obtain ⟨u, rfl, hu⟩ := ih h
    refine ⟨before ++ Delimiter.tag.enclose inner ++ u, ?_, fun x => ?_⟩
    · simp [Text.append_of_splitFirst? h₁, Delimiter.append_of_finish? h₂, Delimiter.enclose]
    · have h₁ := Text.splitFirst?_append h₁ (inner ++ Delimiter.tag.closing ++ (u ++ x))
      have h₂ := Delimiter.finish?_append h₂ (u ++ x)
      rw [← hu x]
      simp only [Delimiter.enclose, List.append_assoc] at h₁ h₂ ⊢
      rw [readTagOnto?_skip h₁ h₂ hn]
      simp [Delimiter.enclose]

theorem readTag?_append {name t body closing rest : Text}
    (h : readTag? name t = some (body, closing, rest)) :
    ∃ u, t = u ++ rest ∧ ∀ x, readTag? name (u ++ x) = some (body, closing, x) :=
  readTagOnto?_append h

end LiquidTemplate.Raw
