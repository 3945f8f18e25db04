import LiquidTemplate.Text.Basic

/-!
# First occurrences

Everything a template delimits ends at the *first* place where something holds. `firstSuffix?` finds
the first suffix that a test accepts, and `splitFirst?` is its use with a fixed pattern. Both hand
back what came before, so nothing of the text is lost (`firstSuffix?_append`,
`append_of_splitFirst?`), and both are loops that keep what came before in reverse.
-/

namespace LiquidTemplate.Text

/-- What follows `opening` at the start of a text; `none` if the text does not start with it. -/
def after? : Text → Text → Option Text
  | [], t => some t
  | _ :: _, [] => none
  | p :: ps, c :: cs => if p = c then after? ps cs else none

theorem after?_eq_some_iff {opening t rest : Text} :
    after? opening t = some rest ↔ t = opening ++ rest := by
  fun_induction after? opening t with
  | case1 t => simp
  | case2 => simp
  | case3 p ps cs ih => simp [ih]
  | case4 p ps c cs h => simp [Ne.symm h]

@[simp] theorem after?_append (opening rest : Text) :
    after? opening (opening ++ rest) = some rest :=
  after?_eq_some_iff.2 rfl

/-- The first suffix of the text on which `test` succeeds, with `before` (kept in reverse) and what
stands in front of that suffix put together. -/
def firstSuffixOnto {β : Type} (test : Text → Option β) (before : Text) :
    Text → Option (Text × β)
  | [] => (test []).map fun b => (before.reverse, b)
  | c :: rest =>
    match test (c :: rest) with
    | some b => some (before.reverse, b)
    | none => firstSuffixOnto test (c :: before) rest

/-- What stands in front of the first suffix on which `test` succeeds, and what the test gave
there. -/
def firstSuffix? {β : Type} (test : Text → Option β) (t : Text) : Option (Text × β) :=
  firstSuffixOnto test [] t

theorem firstSuffixOnto_eq {β : Type} (test : Text → Option β) (before t : Text) :
    firstSuffixOnto test before t =
      (firstSuffix? test t).map fun r => (before.reverse ++ r.1, r.2) := by
  suffices h : ∀ t before more : Text, firstSuffixOnto test (more ++ before) t =
      (firstSuffixOnto test more t).map fun r => (before.reverse ++ r.1, r.2) by
    simpa [firstSuffix?] using h t before []
  intro t
  induction t with
  | nil => intro before more; cases ht : test [] <;> simp [firstSuffixOnto, ht]
  | cons c rest ih =>
    intro before more
    cases ht : test (c :: rest) with
    | some b => simp [firstSuffixOnto, ht]
    | none => simpa [firstSuffixOnto, ht] using ih before (c :: more)

theorem firstSuffix?_nil {β : Type} (test : Text → Option β) :
    firstSuffix? test [] = (test []).map fun b => ([], b) := rfl

theorem firstSuffix?_cons {β : Type} (test : Text → Option β) (c : Char) (rest : Text) :
    firstSuffix? test (c :: rest) =
      match test (c :: rest) with
      | some b => some ([], b)
      | none => (firstSuffix? test rest).map fun r => (c :: r.1, r.2) := by
  cases ht : test (c :: rest) with
  | some b => simp [firstSuffix?, firstSuffixOnto, ht]
  | none =>
    have h := firstSuffixOnto_eq test [c] rest
    simpa [firstSuffix?, firstSuffixOnto, ht] using h

/-- A hit splits the text, and the test succeeded on the second part. -/
theorem firstSuffix?_append {β : Type} {test : Text → Option β} {t before : Text} {b : β}
    (h : firstSuffix? test t = some (before, b)) :
    ∃ suffix, t = before ++ suffix ∧ test suffix = some b := by
  induction t generalizing before with
  | nil =>
    rw [firstSuffix?_nil] at h
    cases ht : test [] with
    | none => simp [ht] at h
    | some b' => simp [ht] at h; exact ⟨[], by simp [← h.1], by rw [ht, h.2]⟩
  | cons c rest ih =>
    rw [firstSuffix?_cons] at h
    cases ht : test (c :: rest) with
    | some b' =>
      simp [ht] at h
      exact ⟨c :: rest, by simp [← h.1], by rw [ht, h.2]⟩
    | none =>
      simp only [ht, Option.map_eq_some_iff, Prod.mk.injEq] at h
      obtain ⟨⟨before', b'⟩, hr, hb, rfl⟩ := h
      obtain ⟨suffix, hs, hb'⟩ := ih hr
      exact ⟨suffix, by simp [← hb, hs], hb'⟩

/-- What stands before and after the first occurrence of `pattern`. -/
def splitFirst? (pattern t : Text) : Option (Text × Text) :=
  firstSuffix? (after? pattern) t

theorem append_of_splitFirst? {pattern t before after : Text}
    (h : splitFirst? pattern t = some (before, after)) : t = before ++ pattern ++ after := by
  obtain ⟨suffix, ht, hs⟩ := firstSuffix?_append h
  rw [ht, after?_eq_some_iff.1 hs, List.append_assoc]

theorem length_le_of_splitFirst? {pattern t before after : Text}
    (h : splitFirst? pattern t = some (before, after)) : after.length ≤ t.length := by
  rw [append_of_splitFirst? h]; simp; omega

/-- Splits at the first suffix that satisfies `stop`, or at the end when none does. -/
def breakAt (stop : Text → Bool) (t : Text) : Text × Text :=
  (firstSuffix? (fun s => if stop s then some s else none) t).getD (t, [])

theorem breakAt_append (stop : Text → Bool) (t : Text) :
    (breakAt stop t).1 ++ (breakAt stop t).2 = t := by
  unfold breakAt
  cases h : firstSuffix? (fun s => if stop s then some s else none) t with
  | none => simp
  | some r =>
    obtain ⟨suffix, ht, hs⟩ := firstSuffix?_append h
    split at hs
    · simp only [Option.some.injEq] at hs
      simp [ht, hs]
    · cases hs

end LiquidTemplate.Text
