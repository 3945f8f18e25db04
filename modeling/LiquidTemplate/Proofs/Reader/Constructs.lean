import LiquidTemplate.Proofs.Reader.Cuts
import LiquidTemplate.Proofs.Lexeme.Construct

/-!
# Finding the next construct by offsets

The tests for what begins at an offset are made one after the other, on a text of bytes; together
they find what begins in the text (`constructAt_eq`). Text is left byte by byte, but a test is made
only at the two characters a construct can begin with, and their bytes stand nowhere else: so it is
never made inside a character (`textEnd_eq`).
-/

namespace LiquidTemplate

namespace Keyword

/-- Only ASCII capitals are changed, to small letters of ASCII. -/
theorem toLower_cases (c : Char) :
    c.toLower = c ∨ c.utf8Size = 1 ∧ c.toLower.utf8Size = 1 ∧ c.toLower.isLower = true := by
  unfold Char.toLower
  split
  · next hc =>
    have h₁ := UInt32.le_iff_toNat_le.1 hc.1
    have h₂ := UInt32.le_iff_toNat_le.1 hc.2
    have hA : 'A'.val.toNat = 65 := rfl
    have hZ : 'Z'.val.toNat = 90 := rfl
    have ha : 'a'.val.toNat = 97 := rfl
    have hz : 'z'.val.toNat = 122 := rfl
    have h127 : (127 : UInt32).toNat = 127 := rfl
    have hdiff : ('a'.val - 'A'.val).toNat = 32 := rfl
    have hlower : ∀ d : Char, d.isLower = (decide (d.val ≥ 'a'.val) && decide (d.val ≤ 'z'.val)) :=
      fun _ => rfl
    simp only [Char.utf8Size_eq_one_iff, hlower, Bool.and_eq_true, decide_eq_true_eq,
      ge_iff_le, UInt32.le_iff_toNat_le, UInt32.toNat_add]
    omega
  · exact .inl rfl

theorem utf8Size_toLower (c : Char) : c.toLower.utf8Size = c.utf8Size := by
  rcases toLower_cases c with h | ⟨hc, hlower, -⟩
  · rw [h]
  · rw [hc, hlower]

theorem eq_of_toLower {c d : Char} (hd : d.isLower = false) (h : c.toLower = d) : c = d := by
  rcases toLower_cases c with hc | ⟨-, -, hc⟩
  · rw [← hc, h]
  · rw [h, hd] at hc
    cases hc

theorem size_fold (name : Text) : Text.size (fold name) = Text.size name := by
  induction name with
  | nil => rfl
  | cons c name ih =>
    rw [fold, List.map_cons, Text.size_cons, utf8Size_toLower, Text.size_cons, ← ih, fold]

end Keyword

/-- The construct that an opening begins. -/
def Opening.construct : Opening → Construct
  | drop => .drop
  | tag => .tag
  | comment => .comment
  | doctype _ => .doctype
  | endTag => .endTag
  | startTag => .startTag

namespace Reader

open Cursor (Stands)

variable {source t : Text} {i : Nat}

/-! ## What begins where -/

theorem startsWith_iff_ofText? {o : Opening} (ho : ∀ r, o.Fits r) :
    startsWith o.chars t = true ↔ ∃ r, Opening.ofText? t = some (o, r) := by
  simp only [startsWith_iff, Opening.ofText?_eq_some_iff]
  exact ⟨fun ⟨r, h⟩ => ⟨r, h.symm, ho r⟩, fun ⟨r, h, _⟩ => ⟨r, h.symm⟩⟩

theorem startsWithWord_iff :
    startsWithWord "<!doctype".toList t = true ↔
      ∃ word r, Opening.ofText? t = some (.doctype word, r) := by
  simp only [startsWithWord, Option.any_eq_true, decide_eq_true_eq, Opening.ofText?_eq_some_iff]
  constructor
  · rintro ⟨written, hs, hfold⟩
    obtain ⟨before, rest, rfl, hbefore, -⟩ := Text.slice?_eq_some_iff.1 hs
    have hnil : before = [] := by
      cases before with
      | nil => rfl
      | cons c before =>
        have := Text.size_pos (List.cons_ne_nil c before)
        rw [hbefore] at this
        cases this
    subst hnil
    match written with
    | [] => simp [Keyword.fold] at hfold
    | [c] => simp [Keyword.fold] at hfold
    | c :: d :: word =>
      obtain ⟨hc, hfold⟩ := List.cons.inj hfold
      obtain ⟨hd, hfold⟩ := List.cons.inj hfold
      rw [Keyword.eq_of_toLower (by rfl) hc, Keyword.eq_of_toLower (by rfl) hd]
      exact ⟨word, rest, rfl, hfold⟩
  · rintro ⟨word, r, rfl, hfold⟩
    have hfold : Keyword.fold word = "doctype".toList := hfold
    have hwritten : Keyword.fold (['<', '!'] ++ word) = "<!doctype".toList := by
      rw [Keyword.fold, List.map_append]
      exact congrArg (['<', '!'] ++ ·) hfold
    refine ⟨['<', '!'] ++ word, Text.slice?_eq_some_iff.2 ⟨[], r, rfl, rfl, ?_⟩, hwritten⟩
    rw [← Keyword.size_fold, hwritten]
    rfl

theorem startsTag_eq {o : Opening} (ho : ∀ r, o.Fits r ↔ Opening.startsName r = true)
    (h : Stands source ⟨i, t⟩) :
    ∃ b, startsTag source o.chars t i = pure b ∧
      (b = true ↔ ∃ r, Opening.ofText? t = some (o, r)) := by
  simp only [Opening.ofText?_eq_some_iff, ho]
  by_cases hpre : o.chars <+: t
  · obtain ⟨r, rfl⟩ := hpre
    refine ⟨Opening.startsName r, ?_, fun hb => ⟨r, rfl, hb⟩, ?_⟩
    · rw [startsTag, if_pos (startsWith_iff.2 ⟨r, rfl⟩), rest_eq (stands_skip h), pure_bind]
    · rintro ⟨r', hr, hb⟩
      rwa [List.append_cancel_left hr]
  · refine ⟨false, ?_, fun hb => (Bool.false_ne_true hb).elim,
      fun ⟨r, hr, _⟩ => absurd ⟨r, hr.symm⟩ hpre⟩
    rw [startsTag, if_neg (fun hs => hpre (startsWith_iff.1 hs))]

theorem constructAt_eq (h : Stands source ⟨i, t⟩) :
    constructAt source i = pure ((Opening.ofText? t).map fun found => found.1.construct) := by
  have hdrop : startsWith Delimiter.drop.opening t = true ↔ _ :=
    startsWith_iff_ofText? (o := .drop) fun _ => trivial
  have htag : startsWith Delimiter.tag.opening t = true ↔ _ :=
    startsWith_iff_ofText? (o := .tag) fun _ => trivial
  have hcomment : startsWith Delimiter.comment.opening t = true ↔ _ :=
    startsWith_iff_ofText? (o := .comment) fun _ => trivial
  have hdoctype := startsWithWord_iff (t := t)
  obtain ⟨isEnd, hend, hisEnd⟩ := startsTag_eq (o := .endTag) (fun _ => Iff.rfl) h
  obtain ⟨isStart, hstart, hisStart⟩ := startsTag_eq (o := .startTag) (fun _ => Iff.rfl) h
  have hend : startsTag source ['<', '/'] t i = pure isEnd := hend
  have hstart : startsTag source ['<'] t i = pure isStart := hstart
  rw [constructAt, rest_eq h, pure_bind, hend, pure_bind, hstart, pure_bind]
  -- each test holds of one opening, so whichever is there, the tests before its own fail
  generalize startsWith Delimiter.drop.opening t = isDrop at hdrop ⊢
  generalize startsWith Delimiter.tag.opening t = isTag at htag ⊢
  generalize startsWith Delimiter.comment.opening t = isComment at hcomment ⊢
  generalize startsWithWord "<!doctype".toList t = isDoctype at hdoctype ⊢
  generalize Opening.ofText? t = found at hdrop htag hcomment hdoctype hisEnd hisStart ⊢
  cases found with
  | none =>
    simp at hdrop htag hcomment hdoctype hisEnd hisStart
    subst hdrop htag hcomment hdoctype hisEnd hisStart
    rfl
  | some found =>
    obtain ⟨o, r⟩ := found
    cases o <;> simp at hdrop htag hcomment hdoctype hisEnd hisStart <;>
      subst hdrop htag hcomment hdoctype hisEnd hisStart <;> rfl

/-! ## Text -/

theorem byte_eq {c : Char} {rest : Text} (h : Stands source ⟨i, c :: rest⟩) {k : Nat}
    (hk : k < c.utf8Size) :
    ∃ b ∈ String.utf8EncodeChar c, (Text.utf8 source)[i + k]? = some b := by
  obtain ⟨before, rfl, rfl⟩ := h
  exact Text.getElem?_utf8_of_lt before rest hk

theorem opens_of_ofText? {c : Char} {rest r : Text} {o : Opening}
    (h : Opening.ofText? (c :: rest) = some (o, r)) : c = '{' ∨ c = '<' := by
  have hchars := Opening.append_of_ofText? h
  cases o <;> cases hchars <;> simp

/-- Where a construct may begin, a test is made. -/
theorem textEnd_test {c : Char} {rest : Text} (hc : c = '{' ∨ c = '<')
    (h : Stands source ⟨i, c :: rest⟩) :
    textEnd source i =
      match Opening.ofText? (c :: rest) with
      | some _ => pure i
      | none => textEnd source (i + 1) := by
  have hsize := Cursor.size_text h
  have hpos := c.utf8Size_pos
  simp only [Text.size_cons] at hsize
  have hone : c.utf8Size = 1 := by rcases hc with rfl | rfl <;> rfl
  obtain ⟨b, hb, hbyte⟩ := byte_eq h hpos
  rw [String.utf8EncodeChar_eq_singleton hone, List.mem_singleton] at hb
  have htest : b = '{'.toUInt8 ∨ b = '<'.toUInt8 := by
    rcases hc with rfl | rfl
    · exact .inl hb
    · exact .inr hb
  rw [textEnd, dif_pos (by omega), show (Text.utf8 source)[i]? = some b from hbyte, need_some,
    pure_bind, if_pos htest, constructAt_eq h, pure_bind]
  cases Opening.ofText? (c :: rest) <;> rfl

/-- Inside other characters none is made. -/
theorem textEnd_inside {c : Char} {rest : Text} (hc : ¬ (c = '{' ∨ c = '<'))
    (h : Stands source ⟨i, c :: rest⟩) {k : Nat} (hk : k ≤ c.utf8Size) :
    textEnd source i = textEnd source (i + k) := by
  have hsize := Cursor.size_text h
  simp only [Text.size_cons] at hsize
  induction k with
  | zero => rfl
  | succ k ih =>
    obtain ⟨b, hb, hbyte⟩ := byte_eq h (k := k) hk
    have htest : ¬ (b = '{'.toUInt8 ∨ b = '<'.toUInt8) := by
      rintro (rfl | rfl)
      · exact hc (.inl (Text.toUInt8_mem_utf8EncodeChar rfl hb).symm)
      · exact hc (.inr (Text.toUInt8_mem_utf8EncodeChar rfl hb).symm)
    rw [ih (by omega), textEnd, dif_pos (by omega), hbyte, need_some, pure_bind, if_neg htest]
    rfl

/-- Where no construct begins, text goes on at the next byte and at the next character alike. -/
theorem textEnd_skip {c : Char} {rest : Text} (ho : Opening.ofText? (c :: rest) = none)
    (h : Stands source ⟨i, c :: rest⟩) :
    textEnd source i = textEnd source (i + c.utf8Size) ∧
      textEnd source (i + 1) = textEnd source (i + c.utf8Size) := by
  by_cases hc : c = '{' ∨ c = '<'
  · have hone : c.utf8Size = 1 := by rcases hc with rfl | rfl <;> rfl
    rw [textEnd_test hc h, ho, hone]
    exact ⟨rfl, rfl⟩
  · have hend := textEnd_inside hc h (Nat.le_refl _)
    exact ⟨hend, (textEnd_inside hc h c.utf8Size_pos).symm.trans hend⟩

theorem textEnd_eq (h : Stands source ⟨i, t⟩) :
    textEnd source i = pure (i + Text.size (Text.breakAt Lexeme.startsConstruct t).1) := by
  induction t generalizing i with
  | nil =>
    have hsize : i + 0 = Text.size source := Cursor.size_text h
    rw [textEnd, dif_neg (by omega)]
    rfl
  | cons c rest ih =>
    have hrest : Stands source ⟨i + c.utf8Size, rest⟩ := stands_skip (s := [c]) h
    rw [Text.breakAt_cons, Lexeme.startsConstruct]
    cases ho : Opening.ofText? (c :: rest) with
    | some found =>
      rw [textEnd_test (opens_of_ofText? ho) h, ho]
      rfl
    | none =>
      rw [(textEnd_skip ho h).1, ih hrest, Nat.add_assoc]
      rfl

end Reader

end LiquidTemplate
