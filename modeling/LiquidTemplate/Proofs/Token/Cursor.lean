import LiquidTemplate.Proofs.Text.Boundary
import LiquidTemplate.Proofs.Token.Contiguous

/-!
# Taking tokens from a cursor

A cursor stands at a character boundary, and the text from there on is cut into tokens without a gap
and without an empty one. Taking a token moves the cursor to the end of that token, so however many
are taken, the cursor stands where the next one starts (`Cursor.Takes.stand`), and there are never
more tokens than bytes.
-/

namespace LiquidTemplate

namespace Lexeme

theorem size_pos_of_next? {t rest : Text} {l : Lexeme} (h : next? t = some (l, rest)) :
    0 < l.size :=
  Text.size_pos (chars_ne_nil_of_next? h)

theorem size_pos_of_mem_ofText {t : Text} {l : Lexeme} (h : l ∈ ofText t) : 0 < l.size := by
  obtain ⟨rest, hn⟩ := next?_of_mem_ofText h
  exact size_pos_of_next? hn

theorem isInvalid_of_isConstruct {l : Lexeme} (h : l.isConstruct = true) : l.isInvalid = false := by
  cases l with
  | invalid flaw rest => cases h
  | _ => rfl

/-- Behind an invalid lexeme nothing is left. -/
theorem rest_eq_nil_of_next?_invalid {t rest : Text} {l : Lexeme} (h : next? t = some (l, rest))
    (hl : l.isInvalid = true) : rest = [] := by
  cases t with
  | nil => cases h
  | cons c more =>
    simp only [next?] at h
    split at h
    · cases h; cases hl
    · split at h
      · next hc =>
        cases h
        rw [isInvalid_of_isConstruct (isConstruct_of_complete hc)] at hl
        cases hl
      · cases h; rfl

/-- No more lexemes than bytes. -/
theorem length_ofText_le (t : Text) : (ofText t).length ≤ Text.size t := by
  have hsum : ∀ ls : List Lexeme, (∀ l ∈ ls, 0 < l.size) →
      ls.length ≤ Text.size (ls.flatMap chars) := by
    intro ls hls
    induction ls with
    | nil => simp
    | cons l ls ih =>
      have hl := hls l List.mem_cons_self
      have ih := ih fun m hm => hls m (List.mem_cons_of_mem _ hm)
      rw [size] at hl
      rw [List.length_cons, List.flatMap_cons, Text.size_append]
      omega
  have h := hsum (ofText t) fun l hl => size_pos_of_mem_ofText hl
  rwa [flatMap_chars_ofText] at h

/-- An invalid lexeme is the last one. -/
theorem eq_nil_of_isInvalid {t : Text} {l : Lexeme} {xs ys : List Lexeme}
    (h : ofText t = xs ++ l :: ys) (hl : l.isInvalid = true) : ys = [] := by
  induction xs generalizing t with
  | nil =>
    obtain ⟨rest, hn, hys⟩ := ofText_eq_cons h
    rw [← hys, rest_eq_nil_of_next?_invalid hn hl, ofText_nil]
  | cons x xs ih =>
    obtain ⟨rest, -, hrest⟩ := ofText_eq_cons h
    exact ih hrest

end Lexeme

namespace Cursor

/-- The cursor stands in the source, and its text is what follows there. -/
def Stands (source : Text) (c : Cursor) : Prop :=
  ∃ before, source = before ++ c.text ∧ Text.size before = c.offset

theorem stands_ofOffset (source : Text) (offset : Nat) : (ofOffset source offset).Stands source :=
  ⟨_, (Text.splitAtMost_append offset source).symm, rfl⟩

/-- Taking these tokens one after the other leads from the first cursor to the second. -/
inductive Takes : Cursor → List Token → Cursor → Prop
  | nil {c : Cursor} : Takes c [] c
  | cons {c c' c'' : Cursor} {t : Token} {ts : List Token} :
    c.next? = some (t, c') → Takes c' ts c'' → Takes c (t :: ts) c''

section

variable {source : Text} {c c' : Cursor} {t : Token} {ts : List Token}

/-- The token starts at the cursor, and the cursor moves behind it. -/
theorem next?_eq_some_iff :
    c.next? = some (t, c') ↔
      Lexeme.next? c.text = some (t.item, c'.text) ∧ t.start = c.offset ∧ c'.offset = t.stop := by
  obtain ⟨start, item⟩ := t
  obtain ⟨offset', text'⟩ := c'
  simp only [next?, Option.map_eq_some_iff, Prod.exists, Prod.mk.injEq, Located.mk.injEq,
    Cursor.mk.injEq, Token.stop]
  constructor
  · rintro ⟨l, rest, hn, ⟨rfl, rfl⟩, rfl, rfl⟩
    exact ⟨hn, rfl, rfl⟩
  · rintro ⟨hn, rfl, rfl⟩
    exact ⟨item, text', hn, ⟨rfl, rfl⟩, rfl, rfl⟩

theorem Stands.next (h : c.Stands source) (hn : c.next? = some (t, c')) : c'.Stands source := by
  obtain ⟨before, hs, hoff⟩ := h
  obtain ⟨hn, hstart, hstop⟩ := next?_eq_some_iff.1 hn
  refine ⟨before ++ t.item.chars, ?_, ?_⟩
  · rw [hs, Lexeme.append_of_next? hn, List.append_assoc]
  · rw [hstop, Token.stop_eq, hstart, Text.size_append, hoff]

/-- The text from the cursor on is what the tokens cover. -/
theorem covered_tokens (c : Cursor) : Token.covered c.tokens = c.text := by
  rw [Token.covered_eq, tokens, Token.map_item_ofTextAt, Lexeme.flatMap_chars_ofText]

theorem tokens_of_next? (h : c.next? = some (t, c')) : c.tokens = t :: c'.tokens := by
  rw [tokens_eq, h]

theorem tokens_eq_nil_iff : c.tokens = [] ↔ c.text = [] := by
  constructor
  · intro h
    rw [← covered_tokens, h, Token.covered_nil]
  · intro h
    rw [tokens, h, Token.ofTextAt, Lexeme.ofText_nil, Located.locate_nil]

/-- What is taken are the first tokens, and the cursor comes to the end of the last of them. -/
theorem Takes.stand (h : Takes c ts c') (hc : c.Stands source) :
    c'.Stands source ∧ c.tokens = ts ++ c'.tokens ∧
      c'.offset = (ts.getLast?.map Token.stop).getD c.offset := by
  induction h with
  | nil => exact ⟨hc, rfl, rfl⟩
  | @cons c₁ c₂ c₃ t ts hn _ ih =>
    obtain ⟨hstand, htokens, hoff⟩ := ih (hc.next hn)
    refine ⟨hstand, by rw [tokens_of_next? hn, htokens, List.cons_append], ?_⟩
    rw [hoff, List.getLast?_cons, (next?_eq_some_iff.1 hn).2.2]
    cases ts.getLast? <;> rfl

/-- All tokens can be taken, and then none is left. -/
theorem takes_tokens (c : Cursor) : Takes c c.tokens c.finish ∧ c.finish.next? = none := by
  refine ⟨?_, rfl⟩
  obtain ⟨ts, hts⟩ : ∃ ts, c.tokens = ts := ⟨_, rfl⟩
  rw [hts]
  induction ts generalizing c with
  | nil =>
    have htext := tokens_eq_nil_iff.1 hts
    obtain ⟨offset, text⟩ := c
    obtain rfl : text = [] := htext
    exact .nil
  | cons t ts ih =>
    rw [tokens_eq] at hts
    split at hts
    · cases hts
    · next u c' hn =>
      cases hts
      have hfinish : c'.finish = c.finish := by
        obtain ⟨hl, hstart, hstop⟩ := next?_eq_some_iff.1 hn
        rw [finish, finish, hstop, Token.stop_eq, hstart, Lexeme.append_of_next? hl,
          Text.size_append, Nat.add_assoc]
      exact .cons hn (hfinish ▸ ih c' rfl)

/-- A token of the cursor is read where it starts in the source. -/
theorem next?_of_mem_tokens (hc : c.Stands source) (ht : t ∈ c.tokens) :
    ∃ before rest, source = before ++ (t.item.chars ++ rest) ∧ Text.size before = t.start ∧
      Lexeme.next? (t.item.chars ++ rest) = some (t.item, rest) := by
  obtain ⟨before, hs, hoff⟩ := hc
  obtain ⟨ts, us, hts⟩ := List.append_of_mem ht
  have hcont := Token.contiguous_ofTextAt c.offset c.text
  have hlexemes := Token.map_item_ofTextAt c.offset c.text
  rw [show Token.ofTextAt c.offset c.text = ts ++ t :: us from hts] at hcont hlexemes
  have hstart : t.start = c.offset + Text.size (Token.covered ts) :=
    (Token.contiguous_append.1 hcont).2.1
  refine ⟨before ++ Token.covered ts, Token.covered us, ?_, ?_,
    Token.next?_of_lexemes (hlexemes.symm.trans List.map_append)⟩
  · rw [hs, ← covered_tokens c, hts, Token.covered_append, Token.covered_cons]
    simp
  · rw [Text.size_append, hoff]
    exact hstart.symm

/-- A token of the cursor covers its characters in the source. -/
theorem slice?_span (hc : c.Stands source) (ht : t ∈ c.tokens) :
    Text.slice? source t.span = some t.item.chars := by
  obtain ⟨before, rest, hs, hstart, -⟩ := next?_of_mem_tokens hc ht
  exact Text.slice?_eq_some_iff.2 ⟨before, rest, by rw [hs, List.append_assoc], hstart, rfl⟩

theorem size_text (hc : c.Stands source) : c.offset + Text.size c.text = Text.size source := by
  obtain ⟨before, hs, hoff⟩ := hc
  rw [hs, Text.size_append, hoff]

/-- The tokens end where the template does. -/
theorem stop_getLast? (hc : c.Stands source) (ht : c.tokens.getLast? = some t) :
    t.stop = Text.size source := by
  obtain ⟨htakes, -⟩ := takes_tokens c
  obtain ⟨-, -, hoff⟩ := htakes.stand hc
  rw [ht, Option.map_some, Option.getD_some] at hoff
  rw [← hoff, finish, size_text hc]

end

/-- **Tokens tile the template**: put at any offset, a cursor moves back to the last character
boundary. The tokens from there on are not empty, start and stop at boundaries and follow each other
without a gap up to the end of the template; only the last one may be invalid. However many have
been taken, the cursor stands at the end of the last one taken; they can all be taken, and there are
no more of them than bytes are left. -/
theorem tokens_tile (source : Text) (offset : Nat) :
    let c := ofOffset source offset
    (Text.IsBoundary source c.offset ∧ c.offset ≤ min offset (Text.size source) ∧
      ∀ n, Text.IsBoundary source n → n ≤ min offset (Text.size source) → n ≤ c.offset) ∧
    (∀ t ∈ c.tokens, t.start < t.stop ∧ Text.IsBoundary source t.start ∧
      Text.IsBoundary source t.stop ∧ Text.slice? source t.span = some t.item.chars) ∧
    Token.Contiguous c.offset c.tokens ∧
    (c.tokens = [] ↔ c.offset = Text.size source) ∧
    (∀ t, c.tokens.getLast? = some t → t.stop = Text.size source) ∧
    (∀ ts t us, c.tokens = ts ++ t :: us → t.item.isInvalid = true → us = []) ∧
    (∀ ts c', Takes c ts c' → ts <+: c.tokens ∧ (c'.next? = none ↔ ts = c.tokens) ∧
      c'.offset = (ts.getLast?.map Token.stop).getD c.offset) ∧
    (∃ c', Takes c c.tokens c' ∧ c'.next? = none) ∧
    c.tokens.length ≤ Text.size source - c.offset := by
  intro c
  have hc : c.Stands source := stands_ofOffset source offset
  have hsize := size_text hc
  refine ⟨⟨?_, ?_, fun n hn hle => ?_⟩, fun t ht => ?_, ?_, ?_, fun t => stop_getLast? hc,
    fun ts t us hts hl => ?_, fun ts c' h => ?_, ⟨_, takes_tokens c⟩, ?_⟩
  · exact Text.isBoundary_size_splitAtMost offset source
  · have hle := (Text.isBoundary_size_splitAtMost offset source).le_size
    exact Nat.le_min.2 ⟨Text.size_splitAtMost_le offset source, hle⟩
  · exact Text.le_size_splitAtMost hn (Nat.le_min.1 hle).1
  · have hslice := slice?_span hc ht
    obtain ⟨hstart, hstop, hcovered⟩ := Text.isBoundary_of_slice? hslice
    have hmem : t.item ∈ Lexeme.ofText c.text := by
      rw [← Token.map_item_ofTextAt c.offset c.text]
      exact List.mem_map_of_mem ht
    have hpos := Lexeme.size_pos_of_mem_ofText hmem
    exact ⟨Nat.lt_add_of_pos_right hpos, hstart, hstop, hslice⟩
  · exact Token.contiguous_ofTextAt c.offset c.text
  · rw [tokens_eq_nil_iff]
    constructor
    · intro h
      rwa [h, Text.size_nil, Nat.add_zero] at hsize
    · intro h
      cases htext : c.text with
      | nil => rfl
      | cons d rest =>
        have := d.utf8Size_pos
        rw [htext, Text.size_cons] at hsize
        omega
  · have hlexemes := congrArg (List.map Located.item) hts
    rw [tokens, Token.map_item_ofTextAt, List.map_append, List.map_cons] at hlexemes
    exact List.map_eq_nil_iff.1 (Lexeme.eq_nil_of_isInvalid hlexemes hl)
  · obtain ⟨-, htokens, hoff⟩ := h.stand hc
    refine ⟨⟨c'.tokens, htokens.symm⟩, ?_, hoff⟩
    rw [htokens, List.self_eq_append_right, tokens_eq]
    cases c'.next? <;> simp
  · have hlen : c.tokens.length = (Lexeme.ofText c.text).length := by
      rw [← Token.map_item_ofTextAt c.offset c.text, List.length_map]
      rfl
    have := Lexeme.length_ofText_le c.text
    omega

end Cursor

end LiquidTemplate
