import LiquidTemplate.Text.Search

/-!
# First occurrences

A first occurrence is known by three things: what stands before it, that the test succeeds there,
and that it fails at every earlier place (`firstSuffix?_eq_some_iff`, `breakAt_eq_iff`). The first
occurrence of a fixed pattern does not depend on what stands behind it (`splitFirst?_append`): an
earlier occurrence would already lie in front of that.
-/

namespace LiquidTemplate.Text

variable {β : Type}

theorem firstSuffix?_eq_none_iff {test : Text → Option β} {t : Text} :
    firstSuffix? test t = none ↔ ∀ p q, t = p ++ q → test q = none := by
  induction t with
  | nil => simp [firstSuffix?_nil]
  | cons c rest ih =>
    rw [firstSuffix?_cons]
    constructor
    · intro h p q hpq
      cases ht : test (c :: rest) with
      | some b => simp [ht] at h
      | none =>
        simp only [ht, Option.map_eq_none_iff] at h
        cases p with
        | nil => rw [← hpq.trans (List.nil_append q)]; exact ht
        | cons d p =>
          obtain ⟨rfl, hq⟩ := List.cons.inj hpq
          exact ih.1 h p q hq
    · intro h
      rw [h [] (c :: rest) rfl]
      simp only [Option.map_eq_none_iff]
      exact ih.2 fun p q hpq => h (c :: p) q (by rw [hpq]; rfl)

/-- A hit is the first suffix that passes: all longer ones fail. -/
theorem firstSuffix?_eq_some_iff {test : Text → Option β} {t before : Text} {b : β} :
    firstSuffix? test t = some (before, b) ↔
      ∃ suffix, t = before ++ suffix ∧ test suffix = some b ∧
        ∀ p q, before = p ++ q → q ≠ [] → test (q ++ suffix) = none := by
  induction t generalizing before with
  | nil =>
    rw [firstSuffix?_nil]
    constructor
    · intro h
      obtain ⟨b', hb, he⟩ := Option.map_eq_some_iff.1 h
      cases he
      exact ⟨[], rfl, hb, fun p q hpq hq => absurd (List.append_eq_nil_iff.1 hpq.symm).2 hq⟩
    · rintro ⟨suffix, ht, hs, -⟩
      obtain ⟨rfl, rfl⟩ := List.append_eq_nil_iff.1 ht.symm
      simp [hs]
  | cons c rest ih =>
    rw [firstSuffix?_cons]
    cases ht : test (c :: rest) with
    | some b' =>
      constructor
      · intro h
        cases h
        exact ⟨c :: rest, rfl, ht,
          fun p q hpq hq => absurd (List.append_eq_nil_iff.1 hpq.symm).2 hq⟩
      · rintro ⟨suffix, hc, hs, hfail⟩
        cases before with
        | nil => rw [← hc.trans (List.nil_append suffix), ht] at hs; rw [Option.some.inj hs]
        | cons d before =>
          have := hfail [] (d :: before) rfl (by simp)
          rw [← hc, ht] at this
          cases this
    | none =>
      simp only [Option.map_eq_some_iff, Prod.mk.injEq]
      constructor
      · rintro ⟨⟨before', b'⟩, hr, rfl, rfl⟩
        obtain ⟨suffix, hs, hb, hfail⟩ := ih.1 hr
        refine ⟨suffix, by rw [hs]; rfl, hb, fun p q hpq hq => ?_⟩
        cases p with
        | nil => rw [← hpq.trans (List.nil_append q), List.cons_append, ← hs]; exact ht
        | cons d p => exact hfail p q (List.cons.inj hpq).2 hq
      · rintro ⟨suffix, hc, hs, hfail⟩
        cases before with
        | nil => rw [← hc.trans (List.nil_append suffix), ht] at hs; cases hs
        | cons d before =>
          obtain ⟨rfl, hrest⟩ := List.cons.inj hc
          refine ⟨(before, b), ih.2 ⟨suffix, hrest, hs, fun p q hpq hq => ?_⟩, rfl, rfl⟩
          exact hfail (c :: p) q (by rw [hpq]; rfl) hq

/-- The suffixes of a text, but for the empty one, are what is left of it at each of its
characters. -/
theorem forall_suffix_iff {t : Text} {P : Text → Prop} :
    (∀ p q, t = p ++ q → q ≠ [] → P q) ↔ ∀ i < t.length, P (t.drop i) := by
  constructor
  · intro h i hi
    refine h _ _ (List.take_append_drop i t).symm fun hnil => ?_
    rw [List.drop_eq_nil_iff] at hnil
    omega
  · rintro h p q rfl hq
    have hlt : p.length < (p ++ q).length := by
      have := List.length_pos_iff.2 hq
      rw [List.length_append]
      omega
    simpa using h p.length hlt

/-- Places where the test fails are passed over. -/
theorem firstSuffix?_append_of_none {test : Text → Option β} {u t : Text}
    (h : ∀ p q, u = p ++ q → q ≠ [] → test (q ++ t) = none) :
    firstSuffix? test (u ++ t) = (firstSuffix? test t).map fun r => (u ++ r.1, r.2) := by
  induction u with
  | nil => simp
  | cons c u ih =>
    have hc : test (c :: (u ++ t)) = none := h [] (c :: u) rfl (by simp)
    have ih := ih fun p q hu => h (c :: p) q (by rw [hu]; rfl)
    rw [List.cons_append, firstSuffix?_cons, hc, ih, Option.map_map]
    rfl

/-! ## Patterns -/

theorem after?_eq_none_iff {pattern t : Text} : after? pattern t = none ↔ ¬ pattern <+: t := by
  constructor
  · rintro h ⟨rest, rfl⟩
    rw [after?_append] at h
    cases h
  · intro h
    cases ha : after? pattern t with
    | none => rfl
    | some rest => exact absurd ⟨rest, (after?_eq_some_iff.1 ha).symm⟩ h

/-- The pattern stands behind `before`, and nowhere earlier. -/
theorem splitFirst?_eq_some_iff {pattern t before after : Text} :
    splitFirst? pattern t = some (before, after) ↔
      t = before ++ pattern ++ after ∧
        ∀ p q, before = p ++ q → q ≠ [] → ¬ pattern <+: q ++ pattern ++ after := by
  rw [splitFirst?, firstSuffix?_eq_some_iff]
  constructor
  · rintro ⟨suffix, rfl, hs, hfail⟩
    rw [after?_eq_some_iff] at hs
    subst hs
    refine ⟨(List.append_assoc _ _ _).symm, fun p q hpq hq => ?_⟩
    rw [List.append_assoc]
    exact after?_eq_none_iff.1 (hfail p q hpq hq)
  · rintro ⟨rfl, hfail⟩
    refine ⟨pattern ++ after, List.append_assoc _ _ _, after?_append _ _, fun p q hpq hq => ?_⟩
    rw [← List.append_assoc]
    exact after?_eq_none_iff.2 (hfail p q hpq hq)

/-- A text without the first character of a pattern has no occurrence of it, and it alone decides
about a pattern of one character. -/
theorem splitFirst?_singleton_eq_none_iff {c : Char} {t : Text} :
    splitFirst? [c] t = none ↔ c ∉ t := by
  rw [splitFirst?, firstSuffix?_eq_none_iff]
  constructor
  · intro h hc
    obtain ⟨p, q, rfl⟩ := List.append_of_mem hc
    have := h p (c :: q) rfl
    rw [after?_eq_none_iff] at this
    exact this ⟨q, rfl⟩
  · rintro hc p q rfl
    rw [after?_eq_none_iff]
    rintro ⟨rest, rfl⟩
    exact hc (by simp)

/-- The first occurrence stays where it is when what follows it is replaced. -/
theorem splitFirst?_append {pattern t before after : Text}
    (h : splitFirst? pattern t = some (before, after)) (x : Text) :
    splitFirst? pattern (before ++ pattern ++ x) = some (before, x) := by
  obtain ⟨-, hfail⟩ := splitFirst?_eq_some_iff.1 h
  refine splitFirst?_eq_some_iff.2 ⟨rfl, fun p q hpq hq hx => hfail p q hpq hq ?_⟩
  have hle : pattern.length ≤ (q ++ pattern).length := by simp
  have hpre : pattern <+: q ++ pattern :=
    List.prefix_of_prefix_length_le hx (List.prefix_append _ _) hle
  exact hpre.trans (List.prefix_append _ _)

/-! ## Runs -/

theorem breakAt_cons (stop : Text → Bool) (c : Char) (rest : Text) :
    breakAt stop (c :: rest) =
      if stop (c :: rest) then ([], c :: rest)
      else (c :: (breakAt stop rest).1, (breakAt stop rest).2) := by
  unfold breakAt
  rw [firstSuffix?_cons]
  cases stop (c :: rest) with
  | true => rfl
  | false =>
    cases firstSuffix? (fun s => if stop s then some s else none) rest <;> rfl

/-- A run ends at the first place where `stop` holds, or at the end. -/
theorem breakAt_eq_iff {stop : Text → Bool} {t run rest : Text} :
    breakAt stop t = (run, rest) ↔
      t = run ++ rest ∧ (rest = [] ∨ stop rest = true) ∧
        ∀ p q, run = p ++ q → q ≠ [] → stop (q ++ rest) = false := by
  have htest : ∀ s : Text, (if stop s then some s else none) = none ↔ stop s = false := by
    intro s; cases stop s <;> simp
  unfold breakAt
  cases h : firstSuffix? (fun s => if stop s then some s else none) t with
  | none =>
    rw [firstSuffix?_eq_none_iff] at h
    have hnone : ∀ p q, t = p ++ q → stop q = false := fun p q hpq => (htest q).1 (h p q hpq)
    constructor
    · intro he
      cases he
      exact ⟨by simp, .inl rfl, fun p q hpq _ => hnone p _ (by rw [hpq]; simp)⟩
    · rintro ⟨ht, hrest | hstop, -⟩
      · subst hrest; simp [ht]
      · rw [hnone run rest ht] at hstop; cases hstop
  | some r =>
    obtain ⟨before, b⟩ := r
    obtain ⟨suffix, ht, hs, hfail⟩ := firstSuffix?_eq_some_iff.1 h
    have hstop : stop suffix = true := by
      cases hn : stop suffix with
      | true => rfl
      | false => simp [hn] at hs
    rw [if_pos hstop] at hs
    have hsb : suffix = b := Option.some.inj hs
    subst hsb
    have hbefore : ∀ p q, before = p ++ q → q ≠ [] → stop (q ++ suffix) = false :=
      fun p q hpq hq => (htest _).1 (hfail p q hpq hq)
    constructor
    · intro he
      cases he
      exact ⟨ht, .inr hstop, hbefore⟩
    · rintro ⟨ht', hrest, hrun⟩
      -- two cuts of one text: the longer run would contain the place where the other one stops
      rw [ht] at ht'
      rcases List.append_eq_append_iff.1 ht' with ⟨m, hm, hm'⟩ | ⟨m, hm, hm'⟩
      · by_cases hnil : m = []
        · subst hnil; simp [hm, hm']
        · have := hrun before m hm hnil
          rw [← hm', hstop] at this
          cases this
      · by_cases hnil : m = []
        · subst hnil; simp [hm, hm']
        · have := hbefore run m hm hnil
          rw [← hm'] at this
          rcases hrest with rfl | hs
          · exact absurd (List.append_eq_nil_iff.1 hm'.symm).1 hnil
          · rw [hs] at this; cases this

end LiquidTemplate.Text
