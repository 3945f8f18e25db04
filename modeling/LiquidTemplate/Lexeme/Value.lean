import LiquidTemplate.Lexeme.Basic

/-!
# Reading attribute values

A value is a sequence of text and drops, up to a character at which it stops: its closing quote, or
any character that may not stand in a value without quotes. Inside a drop or a Liquid tag nothing
stops the value, and a Liquid tag remains part of the text around it. Main statement: reading a
value loses nothing (`Value.append_of_read`).
-/

namespace LiquidTemplate

namespace Piece

/-- Makes a piece of the characters in `run`, kept in reverse, if there are any. -/
def flush (run : Text) (pieces : List Piece) : List Piece :=
  match run with
  | [] => pieces
  | c :: more => text (c :: more).reverse :: pieces

/-- Reads pieces up to a character that satisfies `stop`, as the loop of `scan_value_pieces` does.
The pieces read so far and the characters of the piece under way are kept in reverse. -/
def readOnto (stop : Char → Bool) (pieces : List Piece) (run t : Text) :
    Except Flaw (List Piece × Text) :=
  match t with
  | [] => .ok ((flush run pieces).reverse, [])
  | '{' :: '{' :: rest =>
    match _h : Delimiter.drop.finish? rest with
    | some (inner, rest') => readOnto stop (drop inner :: flush run pieces) [] rest'
    | none => .error (.unterminated .drop)
  | '{' :: '%' :: rest =>
    match _h : Delimiter.tag.finish? rest with
    | some (inner, rest') =>
      readOnto stop pieces ((Delimiter.tag.enclose inner).reverse ++ run) rest'
    | none => .error (.unterminated .tag)
  | c :: rest =>
    if stop c then .ok ((flush run pieces).reverse, c :: rest)
    else readOnto stop pieces (c :: run) rest
termination_by t.length
decreasing_by
  · have := Delimiter.length_lt_of_finish? _h; simp; omega
  · have := Delimiter.length_lt_of_finish? _h; simp; omega
  · simp

/-- Reads pieces up to a character that satisfies `stop`, or to the end (`scan_value_pieces`). -/
def read (stop : Char → Bool) (t : Text) : Except Flaw (List Piece × Text) :=
  readOnto stop [] [] t

theorem chars_flush (run : Text) (pieces : List Piece) :
    (flush run pieces).reverse.flatMap chars = pieces.reverse.flatMap chars ++ run.reverse := by
  cases run <;> simp [flush, chars]

theorem append_of_readOnto {stop : Char → Bool} {pieces found : List Piece} {run t rest : Text}
    (h : readOnto stop pieces run t = .ok (found, rest)) :
    pieces.reverse.flatMap chars ++ run.reverse ++ t = found.flatMap chars ++ rest := by
  fun_induction readOnto stop pieces run t with
  | case1 pieces run => cases h; simp [chars_flush]
  | case2 pieces run rest' inner rest'' hf ih =>
    rw [← ih h]
    simp [chars_flush, chars, Delimiter.enclose, Delimiter.opening, Delimiter.append_of_finish? hf]
  | case3 => cases h
  | case4 pieces run rest' inner rest'' hf ih =>
    rw [← ih h]
    simp [Delimiter.enclose, Delimiter.opening, Delimiter.append_of_finish? hf]
  | case5 => cases h
  | case6 pieces run c rest' _ _ _ => cases h; simp [chars_flush]
  | case7 pieces run c rest' _ _ _ ih => rw [← ih h]; simp

theorem append_of_read {stop : Char → Bool} {found : List Piece} {t rest : Text}
    (h : read stop t = .ok (found, rest)) : t = found.flatMap chars ++ rest := by
  simpa using append_of_readOnto h

/-- Reading goes on until a character stops it or the text ends. -/
theorem stop_of_read {stop : Char → Bool} {found : List Piece} {t rest : Text} {c : Char}
    (h : read stop t = .ok (found, c :: rest)) : stop c = true := by
  suffices key : ∀ pieces run, readOnto stop pieces run t = .ok (found, c :: rest) →
      stop c = true from key [] [] h
  clear h
  intro pieces run h
  fun_induction readOnto stop pieces run t with
  | case1 => cases h
  | case2 _ _ _ _ _ _ ih => exact ih h
  | case3 => cases h
  | case4 _ _ _ _ _ _ ih => exact ih h
  | case5 => cases h
  | case6 _ _ _ _ _ _ hs => cases h; exact hs
  | case7 _ _ _ _ _ _ _ ih => exact ih h

end Piece

namespace Value

/-- Characters that may stand in a value without quotes (`is_unquoted_value_char`). -/
def isUnquotedChar (c : Char) : Bool :=
  !(Text.isBlank c || ['"', '\'', '=', '<', '>', '\x60'].contains c)

/-- Reads a value behind its opening quote. -/
def readQuoted (q : Quote) (t : Text) : Except Flaw (Value × Text) := do
  let (pieces, rest) ← Piece.read (· == q.char) t
  match rest with
  | [] => .error (.head .unterminatedValue)
  | _ :: rest' => .ok (⟨some q, pieces⟩, rest')

/-- Reads a value without quotes. -/
def readUnquoted (t : Text) : Except Flaw (Value × Text) := do
  let (pieces, rest) ← Piece.read (fun c => !isUnquotedChar c) t
  if pieces.isEmpty then .error (.head .missingValue) else .ok (⟨none, pieces⟩, rest)

/-- Reads a value at the start of a text (`scan_attribute_value`). -/
def read (t : Text) : Except Flaw (Value × Text) :=
  match t with
  | [] => .error (.head .missingValue)
  | c :: rest =>
    match Quote.ofChar? c with
    | some q => readQuoted q rest
    | none => readUnquoted (c :: rest)

theorem append_of_readQuoted {q : Quote} {t rest : Text} {v : Value}
    (h : readQuoted q t = .ok (v, rest)) : q.char :: t = v.chars ++ rest := by
  unfold readQuoted at h
  cases hp : Piece.read (· == q.char) t with
  | error f => simp [hp, bind, Except.bind] at h
  | ok found =>
    obtain ⟨pieces, rest'⟩ := found
    cases rest' with
    | nil => simp [hp, bind, Except.bind] at h
    | cons c rest'' =>
      have hc := Piece.stop_of_read hp
      simp only [hp, bind, Except.bind, Except.ok.injEq, Prod.mk.injEq] at h
      obtain ⟨rfl, rfl⟩ := h
      simp only [beq_iff_eq] at hc
      simp [chars, content, Quote.chars, Piece.append_of_read hp, hc]

theorem append_of_readUnquoted {t rest : Text} {v : Value}
    (h : readUnquoted t = .ok (v, rest)) : t = v.chars ++ rest := by
  unfold readUnquoted at h
  cases hp : Piece.read (fun c => !isUnquotedChar c) t with
  | error f => simp [hp, bind, Except.bind] at h
  | ok found =>
    obtain ⟨pieces, rest'⟩ := found
    simp only [hp, bind, Except.bind] at h
    split at h
    · cases h
    · cases h
      simp [chars, content, Quote.chars, Piece.append_of_read hp]

/-- Reading a value loses nothing. -/
theorem append_of_read {t rest : Text} {v : Value} (h : read t = .ok (v, rest)) :
    t = v.chars ++ rest := by
  unfold read at h
  cases t with
  | nil => cases h
  | cons c more =>
    cases hq : Quote.ofChar? c with
    | some q =>
      simp only [hq] at h
      rw [← Quote.char_of_ofChar? hq]
      exact append_of_readQuoted h
    | none =>
      simp only [hq] at h
      exact append_of_readUnquoted h

end Value

end LiquidTemplate
