import LiquidTemplate.Proofs.Lexeme.Closed

/-!
# The grammar of values

A value is a run of atoms: characters that may stand in it, Liquid tags and drops. Whether a
character is an atom depends on the next one, so atoms are what they are in front of a given text.
What stands between two drops is one piece. Reading a value finds exactly the run of atoms that ends
where the value stops (`Piece.readOnto_eq_ok_iff`, `Value.read_eq_ok_iff`).
-/

namespace LiquidTemplate

/-- What a value is made of. -/
inductive Atom where
  | char (c : Char)
  | tag (inner : Text)
  | drop (inner : Text)
deriving DecidableEq, Repr

/-- Pieces with text in front, which becomes part of the first one if that is text. -/
def Piece.join (v : Text) : List Piece → List Piece
  | text w :: ps => text (v ++ w) :: ps
  | ps => if v = [] then ps else text v :: ps

namespace Atom

def chars : Atom → Text
  | char c => [c]
  | tag inner => Delimiter.tag.enclose inner
  | drop inner => Delimiter.drop.enclose inner

/-- The pieces that atoms make up. -/
def pieces : List Atom → List Piece
  | [] => []
  | drop inner :: as => .drop inner :: pieces as
  | char c :: as => Piece.join (char c).chars (pieces as)
  | tag inner :: as => Piece.join (tag inner).chars (pieces as)

/-- The atom is one in front of this text, in a value that stops at the characters in `stop`. -/
def ReadBefore (stop : Char → Bool) (next : Text) : Atom → Prop
  | char c => stop c = false ∧ opensLiquid (c :: next) = false
  | tag inner => Delimiter.tag.Closes inner
  | drop inner => Delimiter.drop.Closes inner

/-- The atoms are a run in front of this text, which stops it. -/
def AllReadBefore (stop : Char → Bool) (next : Text) : List Atom → Prop
  | [] => ∀ c rest, next = c :: rest → stop c = true ∧ opensLiquid next = false
  | a :: as => a.ReadBefore stop (as.flatMap chars ++ next) ∧ AllReadBefore stop next as

theorem chars_ne_nil (a : Atom) : a.chars ≠ [] := by
  cases a <;> simp [chars, Delimiter.enclose, Delimiter.opening]

end Atom

namespace Piece

theorem join_nil (ps : List Piece) : join [] ps = ps := by
  unfold join
  split
  · rw [List.nil_append]
  · rw [if_pos rfl]

theorem join_join (u v : Text) (ps : List Piece) : join u (join v ps) = join (u ++ v) ps := by
  match ps with
  | text w :: ps => simp [join]
  | [] =>
    cases v with
    | nil => rw [join_nil, List.append_nil]
    | cons c v => simp [join]
  | drop inner :: ps =>
    cases v with
    | nil => rw [join_nil, List.append_nil]
    | cons c v => simp [join]

/-- A drop keeps the text in front of it apart. -/
theorem join_drop (v inner : Text) (ps : List Piece) :
    join v (drop inner :: ps) = join v [] ++ drop inner :: ps := by
  simp only [join]
  split <;> rfl

theorem reverse_flush (run : Text) (ps : List Piece) :
    (flush run ps).reverse = ps.reverse ++ join run.reverse [] := by
  cases run with
  | nil => simp [flush, join]
  | cons c run => simp [flush, join]

theorem flatMap_chars_join (v : Text) (ps : List Piece) :
    (join v ps).flatMap chars = v ++ ps.flatMap chars := by
  unfold join
  split
  · simp [chars]
  · split
    · next hv => rw [hv, List.nil_append]
    · simp [chars]

end Piece

namespace Atom

/-- Making pieces of atoms loses nothing. -/
theorem flatMap_chars_pieces (as : List Atom) :
    (pieces as).flatMap Piece.chars = as.flatMap chars := by
  induction as with
  | nil => rfl
  | cons a as ih =>
    cases a with
    | drop inner => rw [pieces, List.flatMap_cons, List.flatMap_cons, ih]; rfl
    | char c => rw [pieces, Piece.flatMap_chars_join, ih, List.flatMap_cons]
    | tag inner => rw [pieces, Piece.flatMap_chars_join, ih, List.flatMap_cons]

theorem pieces_ne_nil {as : List Atom} (h : as ≠ []) : pieces as ≠ [] := by
  obtain ⟨a, as, rfl⟩ := List.exists_cons_of_ne_nil h
  intro hnil
  have hchars := flatMap_chars_pieces (a :: as)
  rw [hnil, List.flatMap_nil, List.flatMap_cons] at hchars
  exact a.chars_ne_nil (List.append_eq_nil_iff.1 hchars.symm).1

theorem chars_ne_nil_of_mem_pieces (as : List Atom) : ∀ p ∈ pieces as, p.chars ≠ [] := by
  have hjoin (a : Atom) {ps : List Piece} (h : ∀ p ∈ ps, p.chars ≠ []) :
      ∀ p ∈ Piece.join a.chars ps, p.chars ≠ [] := by
    unfold Piece.join
    split
    · rw [List.forall_mem_cons] at h ⊢
      exact ⟨by simp [Piece.chars, a.chars_ne_nil], h.2⟩
    · rw [if_neg a.chars_ne_nil, List.forall_mem_cons]
      exact ⟨by simp [Piece.chars, a.chars_ne_nil], h⟩
  induction as with
  | nil => exact List.forall_mem_nil _
  | cons a as ih =>
    cases a with
    | drop inner =>
      exact List.forall_mem_cons.2 ⟨by simp [Piece.chars, Delimiter.enclose, Delimiter.opening], ih⟩
    | char c => exact hjoin _ ih
    | tag inner => exact hjoin _ ih

end Atom

/-! ## Reading finds the atoms -/

namespace Piece

variable {stop : Char → Bool}

theorem exists_atoms_of_readOnto {ps found : List Piece} {run t rest : Text}
    (h : readOnto stop ps run t = .ok (found, rest)) :
    ∃ as, t = as.flatMap Atom.chars ++ rest ∧ Atom.AllReadBefore stop rest as ∧
      found = ps.reverse ++ join run.reverse (Atom.pieces as) := by
  fun_induction readOnto stop ps run t with
  | case1 ps run =>
    cases h
    exact ⟨[], rfl, fun _ _ h => (List.cons_ne_nil _ _ h.symm).elim, reverse_flush run ps⟩
  | case2 ps run rest' inner rest'' hf ih =>
    obtain ⟨as, rfl, hread, rfl⟩ := ih h
    refine ⟨.drop inner :: as, ?_, ⟨Delimiter.closes_of_finish? hf, hread⟩, ?_⟩
    · simp [Delimiter.append_of_finish? hf, Atom.chars, Delimiter.enclose, Delimiter.opening]
    · rw [List.reverse_cons, reverse_flush, List.reverse_nil, join_nil, Atom.pieces, join_drop]
      simp
  | case3 => cases h
  | case4 ps run rest' inner rest'' hf ih =>
    obtain ⟨as, rfl, hread, rfl⟩ := ih h
    refine ⟨.tag inner :: as, ?_, ⟨Delimiter.closes_of_finish? hf, hread⟩, ?_⟩
    · simp [Delimiter.append_of_finish? hf, Atom.chars, Delimiter.enclose, Delimiter.opening]
    · rw [List.reverse_append, List.reverse_reverse, Atom.pieces, join_join]
      rfl
  | case5 => cases h
  | case6 ps run c rest' hd ht hs =>
    cases h
    refine ⟨[], rfl, ?_, reverse_flush run ps⟩
    rintro _ _ ⟨⟩
    exact ⟨hs, opensLiquid_eq_false hd ht⟩
  | case7 ps run c rest' hd ht hs ih =>
    obtain ⟨as, rfl, hread, rfl⟩ := ih h
    refine ⟨.char c :: as, rfl, ⟨⟨?_, opensLiquid_eq_false hd ht⟩, hread⟩, ?_⟩
    · simpa using hs
    · rw [List.reverse_cons, Atom.pieces, join_join]
      rfl

theorem readOnto_of_atoms {rest : Text} {as : List Atom} (h : Atom.AllReadBefore stop rest as)
    (ps : List Piece) (run : Text) :
    readOnto stop ps run (as.flatMap Atom.chars ++ rest) =
      .ok (ps.reverse ++ join run.reverse (Atom.pieces as), rest) := by
  induction as generalizing ps run with
  | nil =>
    rw [List.flatMap_nil, List.nil_append, Atom.pieces, ← reverse_flush]
    cases rest with
    | nil => rw [readOnto]
    | cons c rest =>
      obtain ⟨hs, hopens⟩ := h c rest rfl
      rw [readOnto_char hopens, if_pos hs]
  | cons a as ih =>
    obtain ⟨ha, has⟩ := h
    rw [List.flatMap_cons, List.append_assoc]
    cases a with
    | char c =>
      have hs : ¬ stop c = true := by simp [ha.1]
      rw [Atom.chars, List.singleton_append, readOnto_char ha.2, if_neg hs, ih has,
        List.reverse_cons, Atom.pieces, join_join]
      rfl
    | tag inner =>
      have hf := Delimiter.finish?_append ha (as.flatMap Atom.chars ++ rest)
      have hstep : readOnto stop ps run ('{' :: '%' :: _) = _ := readOnto_tag hf
      have hchars : (Atom.tag inner).chars ++ (as.flatMap Atom.chars ++ rest) =
          '{' :: '%' :: (inner ++ Delimiter.tag.closing ++ (as.flatMap Atom.chars ++ rest)) := by
        simp [Atom.chars, Delimiter.enclose, Delimiter.opening]
      rw [hchars, hstep, ih has, List.reverse_append, List.reverse_reverse, Atom.pieces, join_join]
      rfl
    | drop inner =>
      have hf := Delimiter.finish?_append ha (as.flatMap Atom.chars ++ rest)
      have hstep : readOnto stop ps run ('{' :: '{' :: _) = _ := readOnto_drop hf
      have hchars : (Atom.drop inner).chars ++ (as.flatMap Atom.chars ++ rest) =
          '{' :: '{' :: (inner ++ Delimiter.drop.closing ++ (as.flatMap Atom.chars ++ rest)) := by
        simp [Atom.chars, Delimiter.enclose, Delimiter.opening]
      rw [hchars, hstep, ih has, List.reverse_cons, reverse_flush, List.reverse_nil, join_nil,
        Atom.pieces, join_drop]
      simp

/-- Pieces are read up to where a run of atoms stops. -/
theorem read_eq_ok_iff {found : List Piece} {t rest : Text} :
    read stop t = .ok (found, rest) ↔
      ∃ as, t = as.flatMap Atom.chars ++ rest ∧ Atom.AllReadBefore stop rest as ∧
        found = Atom.pieces as := by
  constructor
  · intro h
    obtain ⟨as, ht, has, hfound⟩ := exists_atoms_of_readOnto h
    exact ⟨as, ht, has, by rw [hfound, List.reverse_nil, List.reverse_nil, join_nil]; rfl⟩
  · rintro ⟨as, rfl, has, rfl⟩
    have hread := readOnto_of_atoms has [] []
    rwa [List.reverse_nil, List.reverse_nil, join_nil] at hread

end Piece

namespace Value

/-- The characters that stop a value with these quotes. -/
def stops : Option Quote → Char → Bool
  | some q => (· == q.char)
  | none => fun c => !isUnquotedChar c

/-- The value is one in front of this text. -/
def ReadBefore (rest : Text) (v : Value) : Prop :=
  ∃ as, v.pieces = Atom.pieces as ∧
    Atom.AllReadBefore (stops v.quote) (Quote.chars v.quote ++ rest) as ∧
    (v.quote = none → as ≠ [])

theorem not_isBlank_of_isUnquotedChar {c : Char} (h : isUnquotedChar c = true) :
    Text.isBlank c = false := by
  simp only [isUnquotedChar, Bool.not_eq_true', Bool.or_eq_false_iff] at h
  exact h.1

theorem ofChar?_of_isUnquotedChar {c : Char} (h : isUnquotedChar c = true) :
    Quote.ofChar? c = none := by
  have hd : c ≠ '"' := by rintro rfl; exact absurd h (by decide)
  have hs : c ≠ '\'' := by rintro rfl; exact absurd h (by decide)
  simp [Quote.ofChar?, hd, hs]

/-- A value begins with its quote, or with a character that is none and no blank. -/
theorem exists_cons_of_readBefore {rest : Text} {v : Value} (h : v.ReadBefore rest) :
    ∃ c t, v.chars ++ rest = c :: t ∧ Text.isBlank c = false ∧ Quote.ofChar? c = v.quote := by
  obtain ⟨quote, ps⟩ := v
  obtain ⟨as, rfl, has, hne⟩ := h
  cases quote with
  | some q => exact ⟨q.char, _, rfl, by cases q <;> decide, by cases q <;> rfl⟩
  | none =>
    obtain ⟨a, as, rfl⟩ := List.exists_cons_of_ne_nil (hne rfl)
    have hchars : (⟨none, Atom.pieces (a :: as)⟩ : Value).chars ++ rest =
        a.chars ++ (as.flatMap Atom.chars ++ rest) := by
      simp [chars, content, Quote.chars, Atom.flatMap_chars_pieces]
    rw [hchars]
    cases a with
    | char c =>
      have hc : isUnquotedChar c = true := by simpa [stops] using has.1.1
      exact ⟨c, _, rfl, not_isBlank_of_isUnquotedChar hc, ofChar?_of_isUnquotedChar hc⟩
    | tag inner => exact ⟨'{', _, rfl, by decide, rfl⟩
    | drop inner => exact ⟨'{', _, rfl, by decide, rfl⟩

theorem readQuoted_eq_ok_iff {q : Quote} {t rest : Text} {v : Value} :
    readQuoted q t = .ok (v, rest) ↔
      v.quote = some q ∧ q.char :: t = v.chars ++ rest ∧ v.ReadBefore rest := by
  constructor
  · intro h
    have ht := append_of_readQuoted h
    unfold readQuoted at h
    cases hp : Piece.read (· == q.char) t with
    | error f => simp [hp, bind, Except.bind] at h
    | ok found =>
      obtain ⟨pieces, rest'⟩ := found
      cases rest' with
      | nil => simp [hp, bind, Except.bind] at h
      | cons c rest' =>
        have hc : c = q.char := by simpa using Piece.stop_of_read hp
        simp only [hp, bind, Except.bind, Except.ok.injEq, Prod.mk.injEq] at h
        obtain ⟨rfl, rfl⟩ := h
        obtain ⟨as, -, has, rfl⟩ := Piece.read_eq_ok_iff.1 hp
        exact ⟨rfl, ht, as, rfl, by rwa [hc] at has, nofun⟩
  · obtain ⟨quote, ps⟩ := v
    rintro ⟨rfl, ht, as, rfl, has, -⟩
    have ht : t = as.flatMap Atom.chars ++ q.char :: rest := by
      simpa [chars, content, Quote.chars, Atom.flatMap_chars_pieces] using ht
    have hread := Piece.read_eq_ok_iff.2 ⟨as, ht, has, rfl⟩
    have hread : Piece.read (· == q.char) t = .ok (Atom.pieces as, q.char :: rest) := hread
    simp only [readQuoted, hread, bind, Except.bind]

theorem readUnquoted_eq_ok_iff {t rest : Text} {v : Value} :
    readUnquoted t = .ok (v, rest) ↔
      v.quote = none ∧ t = v.chars ++ rest ∧ v.ReadBefore rest := by
  constructor
  · intro h
    have ht := append_of_readUnquoted h
    unfold readUnquoted at h
    cases hp : Piece.read (fun c => !isUnquotedChar c) t with
    | error f => simp [hp, bind, Except.bind] at h
    | ok found =>
      obtain ⟨pieces, rest'⟩ := found
      simp only [hp, bind, Except.bind] at h
      split at h
      · cases h
      · next hne =>
        cases h
        obtain ⟨as, -, has, rfl⟩ := Piece.read_eq_ok_iff.1 hp
        exact ⟨rfl, ht, as, rfl, has, fun _ hnil => hne (by rw [hnil]; rfl)⟩
  · obtain ⟨quote, ps⟩ := v
    rintro ⟨rfl, ht, as, rfl, has, hne⟩
    have ht : t = as.flatMap Atom.chars ++ rest := by
      simpa [chars, content, Quote.chars, Atom.flatMap_chars_pieces] using ht
    have hread : Piece.read (fun c => !isUnquotedChar c) t = .ok (Atom.pieces as, rest) :=
      Piece.read_eq_ok_iff.2 ⟨as, ht, has, rfl⟩
    have hne : (Atom.pieces as).isEmpty = false := by simpa using Atom.pieces_ne_nil (hne rfl)
    simp [readUnquoted, hread, hne, bind, Except.bind]

/-- A value is read exactly where one stands. -/
theorem read_eq_ok_iff {t rest : Text} {v : Value} :
    read t = .ok (v, rest) ↔ t = v.chars ++ rest ∧ v.ReadBefore rest := by
  constructor
  · intro h
    unfold read at h
    split at h
    · cases h
    · next c more =>
      split at h
      · next q hq =>
        rw [← Quote.char_of_ofChar? hq]
        exact (readQuoted_eq_ok_iff.1 h).2
      · exact (readUnquoted_eq_ok_iff.1 h).2
  · rintro ⟨rfl, hv⟩
    obtain ⟨c, t, ht, -, hq⟩ := exists_cons_of_readBefore hv
    rw [ht, read]
    cases hquote : v.quote with
    | some q =>
      rw [hquote] at hq
      simp only [hq]
      exact readQuoted_eq_ok_iff.2 ⟨hquote, by rw [ht, Quote.char_of_ofChar? hq], hv⟩
    | none =>
      rw [hquote] at hq
      simp only [hq]
      exact readUnquoted_eq_ok_iff.2 ⟨hquote, ht.symm, hv⟩

end Value

end LiquidTemplate
