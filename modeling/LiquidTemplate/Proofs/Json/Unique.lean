import LiquidTemplate.Proofs.Json.Chars
import LiquidTemplate.Proofs.Text.Run

/-!
# A text has one value

Values that are written alike are the same (`Json.render_injective`). The first character of a text
says which form its value has, every character of a string is read back from how it is written, and
the text of a value, with whatever follows it, falls into the two parts in one way only
(`Json.chars_append_inj`); a number is told from what follows because that does not begin with a
digit.
-/

namespace LiquidTemplate.Json

open Text (Stops stops_cons)

/-! ## Strings -/

/-- The number that a hexadecimal digit stands for. -/
def hexValue (c : Char) : Nat := if c.isDigit then c.toNat - 48 else c.toNat - 87

/-- Reads the first character inside a string, where it may be escaped. -/
def unescape? : Text → Option (Char × Text)
  | '\\' :: 'n' :: rest => some ('\n', rest)
  | '\\' :: 'r' :: rest => some ('\r', rest)
  | '\\' :: 't' :: rest => some ('\t', rest)
  | '\\' :: 'b' :: rest => some ('\x08', rest)
  | '\\' :: 'f' :: rest => some ('\x0c', rest)
  | '\\' :: 'u' :: _ :: _ :: high :: low :: rest =>
    some (Char.ofNat (16 * hexValue high + hexValue low), rest)
  | '\\' :: c :: rest => some (c, rest)
  | c :: rest => some (c, rest)
  | [] => none

theorem hexValue_hexDigit (n : Nat) : hexValue (hexDigit n) = n % 16 := by
  have h : ∀ m < 16, hexValue (hexDigit m) = m := by decide
  have := h (n % 16) (Nat.mod_lt _ (by decide))
  rwa [hexDigit, Nat.mod_mod] at this

theorem unescape?_escape (c : Char) (rest : Text) :
    unescape? (escape c ++ rest) = some (c, rest) := by
  unfold escape
  split
  · next h => rw [h]; rfl
  split
  · next h => rw [h]; rfl
  split
  · next h => rw [h]; rfl
  split
  · next h => rw [h]; rfl
  split
  · next h => rw [h]; rfl
  split
  · next h => rw [h]; rfl
  split
  · next h => rw [h]; rfl
  split
  · next h =>
    have hvalue :
        16 * hexValue (hexDigit (c.toNat / 16)) + hexValue (hexDigit c.toNat) = c.toNat := by
      rw [hexValue_hexDigit, hexValue_hexDigit]
      omega
    simp only [List.cons_append, unescape?, hvalue, Char.ofNat_toNat]
    rfl
  · next hbackslash _ _ _ _ _ _ =>
    rw [List.singleton_append, unescape?]
    all_goals simp [hbackslash]

/-- No character is written so that it looks like the end of the string. -/
theorem escape_append_ne (c : Char) (s t : Text) : escape c ++ s ≠ '"' :: t := by
  obtain ⟨d, h⟩ | h | ⟨h, hquote, -⟩ := escape_cases c <;> rw [h]
  · simp
  · simp
  · simp [hquote]

/-- A string ends where its text says, whatever follows. -/
theorem quote_append_inj {t u r s : Text} (h : quote t ++ r = quote u ++ s) : t = u ∧ r = s := by
  simp only [quote, List.cons_append, List.append_assoc, List.cons.injEq, true_and,
    List.nil_append] at h
  induction t generalizing u with
  | nil =>
    cases u with
    | nil => exact ⟨rfl, (List.cons.inj h).2⟩
    | cons d u =>
      rw [List.flatMap_cons, List.append_assoc] at h
      exact absurd h.symm (escape_append_ne d _ _)
  | cons c t ih =>
    rw [List.flatMap_cons, List.append_assoc] at h
    cases u with
    | nil => exact absurd h (escape_append_ne c _ _)
    | cons d u =>
      rw [List.flatMap_cons, List.append_assoc] at h
      have hread := congrArg unescape? h
      rw [unescape?_escape, unescape?_escape, Option.some.injEq, Prod.mk.injEq] at hread
      obtain ⟨rfl, hrest⟩ := hread
      obtain ⟨rfl, rfl⟩ := ih hrest
      exact ⟨rfl, rfl⟩

/-! ## What a text begins with -/

/-- The forms of a value that its first character tells apart. -/
inductive Form where
  | null
  | bool (value : Bool)
  | number
  | string
  | array
  | object
deriving DecidableEq

def form : Json → Form
  | null => .null
  | bool b => .bool b
  | number _ => .number
  | string _ => .string
  | array _ => .array
  | object _ => .object

/-- The form of a value whose text begins with this character. -/
def Form.ofChar? (c : Char) : Option Form :=
  if c.isDigit then some .number
  else match c with
    | 'n' => some .null
    | 't' => some (.bool true)
    | 'f' => some (.bool false)
    | '"' => some .string
    | '[' => some .array
    | '\x7b' => some .object
    | _ => none

theorem exists_chars_eq_cons (layout : Layout) (level : Nat) (v : Json) :
    ∃ c rest, chars layout level v = c :: rest ∧ Form.ofChar? c = some v.form := by
  cases v with
  | null => exact ⟨_, _, rfl, rfl⟩
  | bool b => cases b <;> exact ⟨_, _, rfl, rfl⟩
  | number n =>
    cases hn : Nat.toDigits 10 n with
    | nil => exact absurd hn Nat.toDigits_ne_nil
    | cons c rest =>
      have hc : c.isDigit = true := isDigit_of_mem_toDigits c (hn ▸ List.mem_cons_self)
      exact ⟨c, rest, hn, if_pos hc⟩
  | string t => exact ⟨_, _, rfl, rfl⟩
  | array items => cases items <;> exact ⟨_, _, by rw [chars], rfl⟩
  | object fields => cases fields <;> exact ⟨_, _, by rw [chars], rfl⟩

variable {layout : Layout} {level : Nat}

/-- Values whose texts begin alike have the same form. -/
theorem form_eq {v w : Json} {r s : Text}
    (h : chars layout level v ++ r = chars layout level w ++ s) : v.form = w.form := by
  obtain ⟨c, _, hv, hc⟩ := exists_chars_eq_cons layout level v
  obtain ⟨d, _, hw, hd⟩ := exists_chars_eq_cons layout level w
  rw [hv, hw, List.cons_append, List.cons_append, List.cons.injEq] at h
  rw [h.1, hd] at hc
  exact (Option.some.inj hc).symm

/-- Behind a line break stands what begins the line. -/
theorem lineBreak_append_eq_cons {n : Nat} {c d : Char} {t u : Text}
    (h : layout.lineBreak n ++ c :: t = d :: u) : d = c ∨ d = '\n' := by
  cases layout with
  | compact => exact .inl (List.cons.inj h).1.symm
  | indented => exact .inr (List.cons.inj h).1.symm

/-- A line that begins with a value is no closing bracket. -/
theorem lineBreak_chars_ne {n : Nat} {v : Json} {t u : Text} {d : Char}
    (hd : Form.ofChar? d = none) (hline : d ≠ '\n') :
    layout.lineBreak n ++ (chars layout level v ++ t) ≠ d :: u := by
  intro h
  obtain ⟨c, rest, hv, hc⟩ := exists_chars_eq_cons layout level v
  rw [hv, List.cons_append] at h
  rcases lineBreak_append_eq_cons h with rfl | rfl
  · rw [hd] at hc; cases hc
  · exact hline rfl

/-! ## Values -/

/-- A number ends where its text says, if no digit follows. -/
theorem toDigits_append_inj {m n : Nat} {r s : Text} (hr : Stops Char.isDigit r)
    (hs : Stops Char.isDigit s) (h : Nat.toDigits 10 m ++ r = Nat.toDigits 10 n ++ s) :
    m = n ∧ r = s := by
  obtain ⟨hm, hrestm⟩ := Text.takeWhile_append_of_stops isDigit_of_mem_toDigits hr
  obtain ⟨hn, hrestn⟩ := Text.takeWhile_append_of_stops isDigit_of_mem_toDigits hs
  rw [h] at hm hrestm
  have hdigits : Nat.toDigits 10 m = Nat.toDigits 10 n := hm.symm.trans hn
  have hvalue : m = n := calc
    m = Nat.ofDigitChars 10 (Nat.toDigits 10 m) 0 := Nat.ofDigitChars_ten_toDigits.symm
    _ = Nat.ofDigitChars 10 (Nat.toDigits 10 n) 0 := by rw [hdigits]
    _ = n := Nat.ofDigitChars_ten_toDigits
  exact ⟨hvalue, hrestm.symm.trans hrestn⟩

theorem stops_lineBreak {n : Nat} {c : Char} {rest : Text} (hc : c.isDigit = false) :
    Stops Char.isDigit (layout.lineBreak n ++ c :: rest) := by
  cases layout with
  | compact => exact stops_cons.2 hc
  | indented => exact stops_cons.2 rfl

theorem stops_charsItems {level below : Nat} {items : List Json} {rest : Text} :
    Stops Char.isDigit
      (charsItems layout level items ++ (layout.lineBreak below ++ ']' :: rest)) := by
  cases items with
  | nil => exact stops_lineBreak rfl
  | cons _ _ => exact stops_cons.2 rfl

theorem stops_charsFields {level below : Nat} {fields : List (String × Json)} {rest : Text} :
    Stops Char.isDigit
      (charsFields layout level fields ++ (layout.lineBreak below ++ '\x7d' :: rest)) := by
  cases fields with
  | nil => exact stops_lineBreak rfl
  | cons _ _ => exact stops_cons.2 rfl

mutual

/-- A value ends where its text says. The induction is on the value that is read first; the other
has the same form. -/
theorem chars_append_inj : ∀ {level : Nat} (v : Json) {w : Json} {r s : Text},
    Stops Char.isDigit r → Stops Char.isDigit s →
    chars layout level v ++ r = chars layout level w ++ s → v = w ∧ r = s
  | _, null, w, r, s, _, _, h => by
    cases w <;> cases form_eq h
    exact ⟨rfl, List.append_cancel_left h⟩
  | _, bool b, w, r, s, _, _, h => by
    cases w <;> cases form_eq h
    exact ⟨rfl, List.append_cancel_left h⟩
  | _, number m, w, r, s, hr, hs, h => by
    cases w <;> cases form_eq h
    rw [chars, chars] at h
    obtain ⟨rfl, hrest⟩ := toDigits_append_inj hr hs h
    exact ⟨rfl, hrest⟩
  | _, string t, w, r, s, _, _, h => by
    cases w <;> cases form_eq h
    rw [chars, chars] at h
    obtain ⟨rfl, hrest⟩ := quote_append_inj h
    exact ⟨rfl, hrest⟩
  | level, array [], w, r, s, _, _, h => by
    cases w <;> cases form_eq h
    next items =>
    cases items with
    | nil => exact ⟨rfl, List.append_cancel_left h⟩
    | cons item items =>
      rw [array_append] at h
      exact absurd (List.cons.inj h).2.symm (lineBreak_chars_ne rfl (by decide))
  | level, array (item :: items), w, r, s, _, _, h => by
    cases w <;> cases form_eq h
    next items' =>
    rw [array_append] at h
    cases items' with
    | nil => exact absurd (List.cons.inj h).2 (lineBreak_chars_ne rfl (by decide))
    | cons item' items' =>
      rw [array_append] at h
      have hbehind := List.append_cancel_left (List.cons.inj h).2
      obtain ⟨rfl, hrest⟩ := chars_append_inj item stops_charsItems stops_charsItems hbehind
      obtain ⟨rfl, hrs⟩ := charsItems_append_inj items hrest
      exact ⟨rfl, hrs⟩
  | level, object [], w, r, s, _, _, h => by
    cases w <;> cases form_eq h
    next fields =>
    cases fields with
    | nil => exact ⟨rfl, List.append_cancel_left h⟩
    | cons field fields =>
      rw [object_append] at h
      rcases lineBreak_append_eq_cons (List.cons.inj h).2.symm with h | h <;> cases h
  | level, object ((name, value) :: fields), w, r, s, _, _, h => by
    cases w <;> cases form_eq h
    next fields' =>
    rw [object_append] at h
    cases fields' with
    | nil => rcases lineBreak_append_eq_cons (List.cons.inj h).2 with h | h <;> cases h
    | cons field' fields' =>
      rw [object_append] at h
      have hbehind := List.append_cancel_left (List.cons.inj h).2
      obtain ⟨hname, hrest⟩ := quote_append_inj hbehind
      obtain ⟨hvalue, hrest⟩ := chars_append_inj value stops_charsFields stops_charsFields
        (List.append_cancel_left hrest)
      obtain ⟨rfl, hrs⟩ := charsFields_append_inj fields hrest
      rw [String.toList_inj.1 hname, hvalue]
      exact ⟨rfl, hrs⟩

theorem charsItems_append_inj : ∀ {level below : Nat} (vs : List Json) {ws : List Json}
    {r s : Text},
    charsItems layout level vs ++ (layout.lineBreak below ++ ']' :: r) =
      charsItems layout level ws ++ (layout.lineBreak below ++ ']' :: s) → vs = ws ∧ r = s
  | _, _, [], [], r, s, h => by
    exact ⟨rfl, (List.cons.inj (List.append_cancel_left h)).2⟩
  | _, _, [], w :: ws, r, s, h => by
    rcases lineBreak_append_eq_cons h with h | h <;> cases h
  | _, _, v :: vs, [], r, s, h => by
    rcases lineBreak_append_eq_cons h.symm with h | h <;> cases h
  | _, _, v :: vs, w :: ws, r, s, h => by
    rw [items_append, items_append] at h
    have hbehind := List.append_cancel_left (List.cons.inj h).2
    obtain ⟨rfl, hrest⟩ := chars_append_inj v stops_charsItems stops_charsItems hbehind
    obtain ⟨rfl, hrs⟩ := charsItems_append_inj vs hrest
    exact ⟨rfl, hrs⟩

theorem charsFields_append_inj : ∀ {level below : Nat} (fs : List (String × Json))
    {gs : List (String × Json)} {r s : Text},
    charsFields layout level fs ++ (layout.lineBreak below ++ '\x7d' :: r) =
      charsFields layout level gs ++ (layout.lineBreak below ++ '\x7d' :: s) → fs = gs ∧ r = s
  | _, _, [], [], r, s, h => by
    exact ⟨rfl, (List.cons.inj (List.append_cancel_left h)).2⟩
  | _, _, [], g :: gs, r, s, h => by
    rcases lineBreak_append_eq_cons h with h | h <;> cases h
  | _, _, f :: fs, [], r, s, h => by
    rcases lineBreak_append_eq_cons h.symm with h | h <;> cases h
  | _, _, (name, value) :: fs, (name', value') :: gs, r, s, h => by
    rw [fields_append, fields_append] at h
    have hbehind := List.append_cancel_left (List.cons.inj h).2
    obtain ⟨hname, hrest⟩ := quote_append_inj hbehind
    obtain ⟨hvalue, hrest⟩ := chars_append_inj value stops_charsFields stops_charsFields
      (List.append_cancel_left hrest)
    obtain ⟨rfl, hrs⟩ := charsFields_append_inj fs hrest
    rw [String.toList_inj.1 hname, hvalue]
    exact ⟨rfl, hrs⟩

end

/-- Values with the same text are the same. -/
theorem render_injective {layout : Layout} {v w : Json} (h : render layout v = render layout w) :
    v = w := by
  have hstops : Stops Char.isDigit [] := fun _ hc => by cases hc
  have hchars : chars layout 0 v ++ [] = chars layout 0 w ++ [] := by
    rw [← render_eq, ← render_eq, h]
  exact (chars_append_inj v hstops hstops hchars).1

end LiquidTemplate.Json
