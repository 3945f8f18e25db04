import LiquidTemplate.Proofs.Lexeme.Closed

/-!
# Paired delimiters in the body of a raw tag

The search for the end of a raw tag does not try every `{%`. It pairs each one with the next `%}`
and goes on behind that, so it comes to an end tag only if all that stands in front of it is paired
(`Raw.Paired`). Of the end tags it can come to it finds the first (`paired_of_readTag?`), and if it
finds none there is none (`not_endTag_of_readTag?_eq_none`).
-/

namespace LiquidTemplate.Raw

/-- An end tag of the raw tag `name` begins here. -/
def EndTag (name t : Text) : Prop :=
  ∃ inner after, t = Delimiter.tag.enclose inner ++ after ∧ Delimiter.tag.Closes inner ∧
    (Tag.ofInner inner).name = Keyword.endTag name

/-- Each `{%`, read from the front on, is closed by the next `%}`, and none is left over. -/
inductive Paired : Text → Prop
  | plain {t : Text} : ¬ Delimiter.tag.opening <:+: t → Paired t
  | tag {before inner rest : Text} :
    ¬ Delimiter.tag.opening <:+: before → Delimiter.tag.Closes inner → Paired rest →
      Paired (before ++ (Delimiter.tag.enclose inner ++ rest))

section

variable {name body t before rest inner rest' p q : Text}

/-- A text without a `{%` does not have the first half of one that follows it. -/
theorem splitFirst?_opening_append (h : ¬ Delimiter.tag.opening <:+: before) (r : Text) :
    Text.splitFirst? Delimiter.tag.opening (before ++ (Delimiter.tag.opening ++ r)) =
      some (before, r) := by
  refine Text.splitFirst?_eq_some_iff.2 ⟨by simp, fun u v huv hv hpre => ?_⟩
  match v, hv with
  | [c], _ =>
    obtain ⟨-, hbrace⟩ := List.cons_prefix_cons.1 hpre
    exact absurd (List.cons_prefix_cons.1 hbrace).1 (by decide)
  | c :: d :: v, _ =>
    obtain ⟨hc, hmore⟩ := List.cons_prefix_cons.1 hpre
    obtain ⟨hd, -⟩ := List.cons_prefix_cons.1 hmore
    exact h ⟨u, v, by rw [huv, ← hc, ← hd]; simp [Delimiter.opening]⟩

theorem opening_absent (h : Text.splitFirst? Delimiter.tag.opening t = some (before, rest)) :
    ¬ Delimiter.tag.opening <:+: before := by
  rintro ⟨u, v, rfl⟩
  obtain ⟨-, hfail⟩ := Text.splitFirst?_eq_some_iff.1 h
  refine hfail u (Delimiter.tag.opening ++ v) (by simp) (by simp [Delimiter.opening]) ?_
  rw [List.append_assoc, List.append_assoc]
  exact List.prefix_append _ _

theorem finish?_enclose (h : Delimiter.tag.Closes inner) (after : Text) :
    Delimiter.tag.enclose inner ++ after =
        Delimiter.tag.opening ++ (inner ++ Delimiter.tag.closing ++ after) ∧
      Delimiter.tag.finish? (inner ++ Delimiter.tag.closing ++ after) = some (inner, after) :=
  ⟨by simp [Delimiter.enclose], Delimiter.finish?_append h after⟩

/-! ## One step of the search -/

/-- The search comes to the first `{%`, or to one behind the tag that begins there. -/
theorem Paired.step (hp : Paired p) (ht : t = p ++ (Delimiter.tag.opening ++ q))
    (h : Text.splitFirst? Delimiter.tag.opening t = some (before, rest)) :
    (p = before ∧ q = rest) ∨
      ∃ inner p', p = before ++ (Delimiter.tag.enclose inner ++ p') ∧ Paired p' ∧
        Delimiter.tag.finish? rest = some (inner, p' ++ (Delimiter.tag.opening ++ q)) := by
  subst ht
  cases hp with
  | plain hplain =>
    rw [splitFirst?_opening_append hplain] at h
    cases h
    exact .inl ⟨rfl, rfl⟩
  | @tag front inner p' hfront hcloses hp' =>
    obtain ⟨henclose, hfinish⟩ := finish?_enclose hcloses (p' ++ (Delimiter.tag.opening ++ q))
    rw [List.append_assoc, List.append_assoc, henclose, splitFirst?_opening_append hfront] at h
    cases h
    exact .inr ⟨inner, p', rfl, hp', hfinish⟩

/-- An end tag that the search can come to is the first tag, or it stands behind that. -/
theorem EndTag.step (hq : EndTag name q) (hp : Paired p) (ht : t = p ++ q)
    (h : Text.splitFirst? Delimiter.tag.opening t = some (before, rest)) :
    ∃ inner rest', Delimiter.tag.finish? rest = some (inner, rest') ∧
      ((p = before ∧ (Tag.ofInner inner).name = Keyword.endTag name) ∨
        ∃ p', p = before ++ (Delimiter.tag.enclose inner ++ p') ∧ Paired p' ∧ rest' = p' ++ q) := by
  obtain ⟨inner, after, rfl, hcloses, hname⟩ := hq
  obtain ⟨henclose, hfinish⟩ := finish?_enclose hcloses after
  rw [henclose] at ht ⊢
  rcases hp.step ht h with ⟨rfl, rfl⟩ | ⟨inner', p', rfl, hp', hfinish'⟩
  · exact ⟨inner, after, hfinish, .inl ⟨rfl, hname⟩⟩
  · exact ⟨inner', _, hfinish', .inr ⟨p', rfl, hp', rfl⟩⟩

/-! ## The whole search -/

theorem paired_of_readTagOnto? {body' closing : Text}
    (h : readTagOnto? name body t = some (body', closing, rest)) :
    ∃ m, body' = body.reverse ++ m ∧ t = m ++ (Delimiter.tag.enclose closing ++ rest) ∧
      Paired m ∧ Delimiter.tag.Closes closing ∧ (Tag.ofInner closing).name = Keyword.endTag name ∧
        ∀ p q, t = p ++ q → Paired p → EndTag name q → Text.size m ≤ Text.size p := by
  fun_induction readTagOnto? name body t with
  | case1 => cases h
  | case2 => cases h
  | case3 body t before rest₁ h₁ inner rest₂ h₂ hname =>
    cases h
    refine ⟨before, by simp, ?_, .plain (opening_absent h₁), Delimiter.closes_of_finish? h₂,
      hname, fun p q hpq hp hq => ?_⟩
    · rw [Text.append_of_splitFirst? h₁, Delimiter.append_of_finish? h₂]
      simp [Delimiter.enclose]
    · obtain ⟨_, _, -, ⟨rfl, -⟩ | ⟨p', rfl, -⟩⟩ := hq.step hp hpq h₁
      · exact Nat.le_refl _
      · rw [Text.size_append]
        exact Nat.le_add_right _ _
  | case4 body t before rest₁ h₁ inner rest₂ h₂ hname ih =>
    obtain ⟨m, rfl, rfl, hm, hcloses, hclosing, hleast⟩ := ih h
    refine ⟨before ++ (Delimiter.tag.enclose inner ++ m), by simp, ?_,
      .tag (opening_absent h₁) (Delimiter.closes_of_finish? h₂) hm, hcloses, hclosing,
      fun p q hpq hp hq => ?_⟩
    · rw [Text.append_of_splitFirst? h₁, Delimiter.append_of_finish? h₂]
      simp [Delimiter.enclose]
    · obtain ⟨_, _, hfinish, ⟨-, hend⟩ | ⟨p', rfl, hp', hrest⟩⟩ := hq.step hp hpq h₁
      · rw [h₂] at hfinish
        cases hfinish
        exact absurd hend hname
      · rw [h₂] at hfinish
        cases hfinish
        have := hleast p' q hrest hp' hq
        simp only [Text.size_append]
        omega

theorem not_endTag_of_readTagOnto?_eq_none (h : readTagOnto? name body t = none)
    (ht : t = p ++ q) (hp : Paired p) : ¬ EndTag name q := by
  intro hq
  fun_induction readTagOnto? name body t generalizing p with
  | case1 body t h₁ =>
    obtain ⟨inner, after, rfl, hcloses, -⟩ := hq
    have hinfix : Delimiter.tag.opening <+: Delimiter.tag.enclose inner ++ after := by
      rw [(finish?_enclose hcloses after).1]
      exact List.prefix_append _ _
    exact Text.after?_eq_none_iff.1 (Text.firstSuffix?_eq_none_iff.1 h₁ _ _ ht) hinfix
  | case2 body t before rest₁ h₁ h₂ =>
    obtain ⟨_, _, hfinish, -⟩ := hq.step hp ht h₁
    exact Option.some_ne_none _ (hfinish.symm.trans h₂)
  | case3 => cases h
  | case4 body t before rest₁ h₁ inner rest₂ h₂ hname ih =>
    obtain ⟨_, _, hfinish, hstep⟩ := hq.step hp ht h₁
    rw [h₂] at hfinish
    cases hfinish
    rcases hstep with ⟨-, hend⟩ | ⟨p', rfl, hp', hrest⟩
    · exact hname hend
    · exact ih h hrest hp'

/-- The end tag that is found is the first one of those with nothing but pairs in front. -/
theorem paired_of_readTag? {closing : Text} (h : readTag? name t = some (body, closing, rest)) :
    t = body ++ (Delimiter.tag.enclose closing ++ rest) ∧ Paired body ∧
      Delimiter.tag.Closes closing ∧ (Tag.ofInner closing).name = Keyword.endTag name ∧
        ∀ p q, t = p ++ q → Paired p → EndTag name q → Text.size body ≤ Text.size p := by
  obtain ⟨m, rfl, ht, hm, hcloses, hname, hleast⟩ := paired_of_readTagOnto? h
  exact ⟨ht, hm, hcloses, hname, hleast⟩

theorem not_endTag_of_readTag?_eq_none (h : readTag? name t = none) :
    ∀ p q, t = p ++ q → Paired p → ¬ EndTag name q :=
  fun _ _ => not_endTag_of_readTagOnto?_eq_none h

end

end LiquidTemplate.Raw
