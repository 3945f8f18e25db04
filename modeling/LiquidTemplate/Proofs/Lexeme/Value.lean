import LiquidTemplate.Lexeme.Value
import LiquidTemplate.Proofs.Text.FirstOccurrence

/-!
# Values do not depend on what follows them

Reading a value looks at one character behind it. Where there is one, whatever follows that
character may be replaced: the same value is read (`Value.read_append`). The pieces are read by a
loop whose steps are first put into equations without the match on delimiters.
-/

namespace LiquidTemplate

theorem Delimiter.finish?_append {d : Delimiter} {t inner rest : Text}
    (h : d.finish? t = some (inner, rest)) (x : Text) :
    d.finish? (inner ++ d.closing ++ x) = some (inner, x) :=
  Text.splitFirst?_append h x

/-- Whether a drop or a Liquid tag begins here. -/
def opensLiquid : Text → Bool
  | '{' :: '{' :: _ => true
  | '{' :: '%' :: _ => true
  | _ => false

/-- Two characters decide. -/
theorem opensLiquid_append {u : Text} (hu : 2 ≤ u.length) (x : Text) :
    opensLiquid (u ++ x) = opensLiquid u := by
  match u, hu with
  | a :: b :: u, _ =>
    by_cases ha : a = '{'
    · subst ha
      by_cases hb : b = '{'
      · subst hb; rfl
      · by_cases hb' : b = '%'
        · subst hb'; rfl
        · simp [opensLiquid, hb, hb']
    · simp [opensLiquid, ha]

theorem opensLiquid_eq_false_of_ne {c : Char} {t : Text} (hc : c ≠ '{') :
    opensLiquid (c :: t) = false := by
  simp [opensLiquid, hc]

theorem opensLiquid_eq_false {c : Char} {t : Text} (hd : ∀ r, c = '{' → t = '{' :: r → False)
    (ht : ∀ r, c = '{' → t = '%' :: r → False) : opensLiquid (c :: t) = false := by
  unfold opensLiquid
  split
  · next h => obtain ⟨rfl, rfl⟩ := List.cons.inj h; exact (hd _ rfl rfl).elim
  · next h => obtain ⟨rfl, rfl⟩ := List.cons.inj h; exact (ht _ rfl rfl).elim
  · rfl

namespace Piece

section Loop

variable {stop : Char → Bool} {pieces : List Piece} {run : Text}

theorem readOnto_drop {rest inner rest' : Text}
    (h : Delimiter.drop.finish? rest = some (inner, rest')) :
    readOnto stop pieces run ('{' :: '{' :: rest) =
      readOnto stop (drop inner :: flush run pieces) [] rest' := by
  rw [readOnto]
  split
  · next h' => rw [h] at h'; cases h'; rfl
  · next h' => rw [h] at h'; cases h'

theorem readOnto_tag {rest inner rest' : Text}
    (h : Delimiter.tag.finish? rest = some (inner, rest')) :
    readOnto stop pieces run ('{' :: '%' :: rest) =
      readOnto stop pieces ((Delimiter.tag.enclose inner).reverse ++ run) rest' := by
  rw [readOnto]
  split
  · next h' => rw [h] at h'; cases h'; rfl
  · next h' => rw [h] at h'; cases h'

theorem readOnto_char {c : Char} {rest : Text} (h : opensLiquid (c :: rest) = false) :
    readOnto stop pieces run (c :: rest) =
      if stop c then .ok ((flush run pieces).reverse, c :: rest)
      else readOnto stop pieces (c :: run) rest := by
  rw [readOnto]
  · rintro r rfl rfl; cases h
  · rintro r rfl rfl; cases h

/-- What is behind the character that ends the pieces has no part in them. A brace never ends them,
so that character cannot open a drop with what follows it. -/
theorem readOnto_append (hb : stop '{' = false) {found : List Piece} {t rest : Text} {c : Char}
    (h : readOnto stop pieces run t = .ok (found, c :: rest)) :
    ∃ u, t = u ++ c :: rest ∧
      ∀ x, readOnto stop pieces run (u ++ c :: x) = .ok (found, c :: x) := by
  fun_induction readOnto stop pieces run t with
  | case1 => cases h
  | case2 pieces run rest' inner rest'' hf ih =>
    obtain ⟨u, rfl, hu⟩ := ih h
    refine ⟨'{' :: '{' :: (inner ++ Delimiter.drop.closing ++ u), ?_, fun x => ?_⟩
    · simp [Delimiter.append_of_finish? hf]
    · rw [List.cons_append, List.cons_append, List.append_assoc,
        readOnto_drop (Delimiter.finish?_append hf _)]
      exact hu x
  | case3 => cases h
  | case4 pieces run rest' inner rest'' hf ih =>
    obtain ⟨u, rfl, hu⟩ := ih h
    refine ⟨'{' :: '%' :: (inner ++ Delimiter.tag.closing ++ u), ?_, fun x => ?_⟩
    · simp [Delimiter.append_of_finish? hf]
    · rw [List.cons_append, List.cons_append, List.append_assoc,
        readOnto_tag (Delimiter.finish?_append hf _)]
      exact hu x
  | case5 => cases h
  | case6 pieces run d rest' hd ht hs =>
    cases h
    have hc : c ≠ '{' := by rintro rfl; rw [hs] at hb; cases hb
    refine ⟨[], rfl, fun x => ?_⟩
    rw [List.nil_append, readOnto_char (opensLiquid_eq_false_of_ne hc), if_pos hs]
  | case7 pieces run d rest' hd ht hs ih =>
    obtain ⟨u, rfl, hu⟩ := ih h
    have hd : opensLiquid (d :: u ++ [c] ++ rest) = false := by
      simpa using opensLiquid_eq_false hd ht
    rw [opensLiquid_append (by simp)] at hd
    refine ⟨d :: u, rfl, fun x => ?_⟩
    rw [List.cons_append, readOnto_char, if_neg hs]
    · exact hu x
    · simpa using (opensLiquid_append (u := d :: u ++ [c]) (by simp) x).trans hd

end Loop

theorem read_append {stop : Char → Bool} (hb : stop '{' = false) {found : List Piece}
    {t rest : Text} {c : Char} (h : read stop t = .ok (found, c :: rest)) :
    ∃ u, t = u ++ c :: rest ∧ ∀ x, read stop (u ++ c :: x) = .ok (found, c :: x) :=
  readOnto_append hb h

theorem chars_ne_nil_of_flush {run : Text} {found : List Piece} (h : ∀ p ∈ found, p.chars ≠ []) :
    ∀ p ∈ flush run found, p.chars ≠ [] := by
  cases run with
  | nil => exact h
  | cons c run => exact List.forall_mem_cons.2 ⟨by simp [chars], h⟩

theorem chars_ne_nil_of_readOnto {stop : Char → Bool} {pieces found : List Piece}
    {run t rest : Text} (hp : ∀ p ∈ pieces, p.chars ≠ [])
    (h : readOnto stop pieces run t = .ok (found, rest)) : ∀ p ∈ found, p.chars ≠ [] := by
  fun_induction readOnto stop pieces run t with
  | case1 => cases h; simpa using chars_ne_nil_of_flush hp
  | case2 _ _ _ inner _ _ ih =>
    have hdrop : (Piece.drop inner).chars ≠ [] := by
      simp [chars, Delimiter.enclose, Delimiter.opening]
    exact ih (List.forall_mem_cons.2 ⟨hdrop, chars_ne_nil_of_flush hp⟩) h
  | case3 => cases h
  | case4 _ _ _ _ _ _ ih => exact ih hp h
  | case5 => cases h
  | case6 => cases h; simpa using chars_ne_nil_of_flush hp
  | case7 _ _ _ _ _ _ _ ih => exact ih hp h

/-- No piece is empty. -/
theorem chars_ne_nil_of_read {stop : Char → Bool} {found : List Piece} {t rest : Text}
    (h : read stop t = .ok (found, rest)) : ∀ p ∈ found, p.chars ≠ [] :=
  chars_ne_nil_of_readOnto (List.forall_mem_nil _) h

end Piece

namespace Value

theorem readQuoted_append {q : Quote} {t rest : Text} {v : Value}
    (h : readQuoted q t = .ok (v, rest)) :
    ∃ u, t = u ++ rest ∧ ∀ x, readQuoted q (u ++ x) = .ok (v, x) := by
  unfold readQuoted at h
  cases hp : Piece.read (· == q.char) t with
  | error f => simp [hp, bind, Except.bind] at h
  | ok found =>
    obtain ⟨pieces, rest'⟩ := found
    cases rest' with
    | nil => simp [hp, bind, Except.bind] at h
    | cons c rest'' =>
      simp only [hp, bind, Except.bind, Except.ok.injEq, Prod.mk.injEq] at h
      obtain ⟨rfl, rfl⟩ := h
      obtain ⟨u, rfl, hu⟩ := Piece.read_append (by cases q <;> rfl) hp
      refine ⟨u ++ [c], by simp, fun x => ?_⟩
      have hx := hu x
      simp only [List.append_assoc, List.singleton_append, readQuoted, bind, Except.bind, hx]

theorem readUnquoted_append {t rest : Text} {v : Value} {c : Char}
    (h : readUnquoted t = .ok (v, c :: rest)) :
    ∃ u, t = u ++ c :: rest ∧ ∀ x, readUnquoted (u ++ c :: x) = .ok (v, c :: x) := by
  unfold readUnquoted at h
  cases hp : Piece.read (fun c => !isUnquotedChar c) t with
  | error f => simp [hp, bind, Except.bind] at h
  | ok found =>
    obtain ⟨pieces, rest'⟩ := found
    simp only [hp, bind, Except.bind] at h
    split at h
    · cases h
    · next hne =>
      cases h
      obtain ⟨u, ht, hu⟩ := Piece.read_append (by decide) hp
      refine ⟨u, ht, fun x => ?_⟩
      have hx := hu x
      simp only [readUnquoted, bind, Except.bind, hx, if_neg hne]

/-- What is behind the character after a value has no part in the value. -/
theorem read_append {t rest : Text} {v : Value} {c : Char} (h : read t = .ok (v, c :: rest)) :
    ∃ u, t = u ++ c :: rest ∧ ∀ x, read (u ++ c :: x) = .ok (v, c :: x) := by
  cases t with
  | nil => cases h
  | cons d more =>
    unfold read at h
    cases hq : Quote.ofChar? d with
    | some q =>
      simp only [hq] at h
      obtain ⟨u, rfl, hu⟩ := readQuoted_append h
      refine ⟨d :: u, rfl, fun x => ?_⟩
      simp only [List.cons_append, read, hq]
      exact hu (c :: x)
    | none =>
      simp only [hq] at h
      obtain ⟨u, ht, hu⟩ := readUnquoted_append h
      refine ⟨u, ht, fun x => ?_⟩
      -- the first character is the same, so the value still has no quotes
      cases u with
      | nil =>
        obtain ⟨rfl, rfl⟩ := List.cons.inj ht
        simp only [List.nil_append, read, hq]
        exact hu x
      | cons e u =>
        obtain ⟨rfl, -⟩ := List.cons.inj ht
        simp only [List.cons_append, read, hq]
        exact hu x

end Value

end LiquidTemplate
