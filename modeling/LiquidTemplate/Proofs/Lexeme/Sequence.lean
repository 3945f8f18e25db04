import LiquidTemplate.Proofs.Lexeme.Construct
import LiquidTemplate.Proofs.Text.Slice

/-!
# Sequences of lexemes

Cutting a text between two of its lexemes keeps the lexemes on either side of the cut
(`ofText_flatMap_chars`, `ofText_of_append`), and a construct on its own is split into itself
(`ofText_chars`). Behind a construct any text may be put, and both keep their lexemes
(`ofText_append`). Blanks between two texts keep the lexemes of both as well
(`ofText_append_blanks`): they join the run of text in front of them, and no construct has one in
its beginning. Blanks in front of a text join the run of text that it begins with
(`ofText_blanks_append`).
-/

namespace LiquidTemplate

namespace Opening

/-- A construct begins with a brace or an angle bracket and one more character. -/
theorem exists_chars_append {o : Opening} {t : Text} (hf : o.Fits t) :
    ∃ c d r, o.chars ++ t = c :: d :: r ∧ (c = '{' ∨ c = '<') := by
  cases o with
  | startTag =>
    rcases startsName_iff.1 hf with ⟨r, rfl⟩ | ⟨c, r, rfl, -⟩
    · exact ⟨_, _, _, rfl, .inr rfl⟩
    · exact ⟨_, _, _, rfl, .inr rfl⟩
  | drop => exact ⟨_, _, _, rfl, .inl rfl⟩
  | tag => exact ⟨_, _, _, rfl, .inl rfl⟩
  | comment => exact ⟨_, _, _, rfl, .inr rfl⟩
  | doctype keyword => exact ⟨_, _, _, rfl, .inr rfl⟩
  | endTag => exact ⟨_, _, _, rfl, .inr rfl⟩

/-- Nothing that a construct could begin with stands inside the beginning of another one. -/
theorem ne_of_chars_eq_append {o : Opening} {t q m : Text} {c d : Char} (hf : o.Fits t)
    (hq : q ≠ []) (h : o.chars = q ++ c :: d :: m) : c ≠ '{' ∧ c ≠ '<' := by
  have hmem : c ∈ o.chars.tail.dropLast := by
    obtain ⟨e, q, rfl⟩ := List.exists_cons_of_ne_nil hq
    rw [h, List.cons_append, List.tail_cons, List.dropLast_append_of_ne_nil (by simp)]
    simp
  cases o with
  | doctype keyword =>
    have hc : c = '!' ∨ c ∈ keyword := List.mem_cons.1 ((List.dropLast_sublist _).subset hmem)
    rcases hc with rfl | hc
    · decide
    · have hfold : c.toLower ∈ "doctype".toList := by
        rw [← show Keyword.fold keyword = _ from hf]
        exact List.mem_map_of_mem hc
      constructor
      · rintro rfl; exact absurd hfold (by decide)
      · rintro rfl; exact absurd hfold (by decide)
  | comment =>
    have hc : c ∈ ['!', '-'] := hmem
    rcases List.mem_cons.1 hc with rfl | hc
    · decide
    · rw [List.mem_singleton.1 hc]
      decide
  | drop => cases hmem
  | tag => cases hmem
  | endTag => cases hmem
  | startTag => cases hmem

theorem startsName_of_append {u x : Text} (hu : 2 ≤ u.length) (h : startsName (u ++ x) = true) :
    startsName u = true := by
  match u, hu with
  | c :: d :: u, _ =>
    rcases startsName_iff.1 h with ⟨r, hr⟩ | ⟨e, r, hr, he⟩
    · cases hr; rfl
    · cases hr
      exact startsName_iff.2 (.inr ⟨c, d :: u, rfl, he⟩)

end Opening

namespace Lexeme

@[simp] theorem ofText_nil : ofText [] = [] := by rw [ofText_eq]; rfl

theorem ofText_of_next? {t rest : Text} {l : Lexeme} (h : next? t = some (l, rest)) :
    ofText t = l :: ofText rest := by
  rw [ofText_eq, h]

theorem ofText_eq_cons {t : Text} {l : Lexeme} {ls : List Lexeme} (h : ofText t = l :: ls) :
    ∃ rest, next? t = some (l, rest) ∧ ofText rest = ls := by
  rw [ofText_eq] at h
  split at h
  · cases h
  · next hn => cases h; exact ⟨_, hn, rfl⟩

/-- Every lexeme of a text is the first one of the text from its start on. -/
theorem next?_of_mem_ofText {t : Text} {l : Lexeme} (h : l ∈ ofText t) :
    ∃ rest, next? (l.chars ++ rest) = some (l, rest) := by
  generalize hls : ofText t = ls at h
  induction ls generalizing t with
  | nil => cases h
  | cons m ls ih =>
    obtain ⟨rest, hn, hrest⟩ := ofText_eq_cons hls
    rcases List.mem_cons.1 h with rfl | h
    · exact ⟨rest, by rw [← append_of_next? hn]; exact hn⟩
    · exact ih hrest h

/-- A construct of a text is a template of its own. -/
theorem ofText_chars {t : Text} {l : Lexeme} (h : l ∈ ofText t) (hl : l.isConstruct = true) :
    ofText l.chars = [l] := by
  obtain ⟨rest, hn⟩ := next?_of_mem_ofText h
  have := next?_append hl hn []
  rw [List.append_nil] at this
  rw [ofText_of_next? this, ofText_nil]

/-! ## Cutting between lexemes -/

theorem startsConstruct_of_next? {t rest : Text} {l : Lexeme} (hl : l.isConstruct = true)
    (h : next? t = some (l, rest)) : startsConstruct t = true := by
  obtain ⟨o, r, ht, hf, -⟩ := (next?_construct_iff hl).1 h
  exact startsConstruct_iff.2 ⟨o, r, ht, hf⟩

/-- Text is never followed by text. -/
theorem isConstruct_of_startsConstruct {t rest : Text} {l : Lexeme} (h : next? t = some (l, rest))
    (hs : startsConstruct t = true) (hl : l.isInvalid = false) : l.isConstruct = true := by
  cases l with
  | text v =>
    obtain ⟨hv, rfl, -, hfail⟩ := next?_text_iff.1 h
    rw [hfail [] v rfl hv] at hs
    cases hs
  | invalid _ _ => cases hl
  | _ => rfl

/-- Text in front of a construct, or at the end, does not depend on what follows the construct. -/
theorem next?_text_of_append {v r x : Text} (h : next? (v ++ (r ++ x)) = some (text v, r ++ x))
    (hr : r = [] ∨ startsConstruct r = true) : next? (v ++ r) = some (text v, r) := by
  obtain ⟨hv, -, -, hfail⟩ := next?_text_iff.1 h
  refine next?_text_iff.2 ⟨hv, rfl, hr, fun p q hpq hq => ?_⟩
  have hq := hfail p q hpq hq
  rw [← List.append_assoc] at hq
  cases hs : startsConstruct (q ++ r) with
  | true => rw [startsConstruct_append hs] at hq; cases hq
  | false => rfl

/-- What is left of a run of text is text. -/
theorem next?_text_of_next? {u v rest : Text}
    (h : next? (u ++ v ++ rest) = some (text (u ++ v), rest)) (hv : v ≠ []) :
    next? (v ++ rest) = some (text v, rest) := by
  obtain ⟨-, -, hrest, hfail⟩ := next?_text_iff.1 h
  refine next?_text_iff.2 ⟨hv, rfl, hrest, fun p q hpq hq => hfail (u ++ p) q ?_ hq⟩
  rw [hpq, List.append_assoc]

/-- The lexemes behind a cut do not depend on what is in front of it. -/
theorem ofText_of_append {t : Text} {xs ys : List Lexeme} (h : ofText t = xs ++ ys) :
    ofText (ys.flatMap chars) = ys := by
  induction xs generalizing t with
  | nil => rw [← List.nil_append ys, ← h, flatMap_chars_ofText]
  | cons x xs ih =>
    obtain ⟨rest, -, hrest⟩ := ofText_eq_cons h
    exact ih hrest

/-- The lexemes in front of a cut do not change when what is behind it is taken away. -/
theorem ofText_flatMap_chars {t : Text} {xs ys : List Lexeme} (h : ofText t = xs ++ ys)
    (hxs : ∀ l ∈ xs, l.isInvalid = false) : ofText (xs.flatMap chars) = xs := by
  induction xs generalizing t with
  | nil => exact ofText_nil
  | cons l xs ih =>
    obtain ⟨t', hn, ht'⟩ := ofText_eq_cons (List.cons_append ▸ h)
    have ih := ih ht' fun m hm => hxs m (List.mem_cons_of_mem _ hm)
    have hsplit : t' = xs.flatMap chars ++ ys.flatMap chars := by
      rw [← List.flatMap_append, ← ht', flatMap_chars_ofText]
    suffices hn' : next? (l.chars ++ xs.flatMap chars) = some (l, xs.flatMap chars) by
      rw [List.flatMap_cons, ofText_of_next? hn', ih]
    cases hl : l.isConstruct with
    | true => exact next?_append hl hn _
    | false =>
      cases l with
      | text v =>
        obtain ⟨-, htv, hrest, -⟩ := next?_text_iff.1 hn
        rw [htv, hsplit] at hn
        refine next?_text_of_append hn ?_
        cases xs with
        | nil => exact .inl rfl
        | cons m xs =>
          -- what followed the text was a construct, and it is read again
          obtain ⟨r, hm, -⟩ := ofText_eq_cons ih
          obtain ⟨r', hm', -⟩ := ofText_eq_cons ht'
          have hs : startsConstruct t' = true := by
            rcases hrest with rfl | hs
            · cases hm'
            · exact hs
          have hmc := isConstruct_of_startsConstruct hm' hs (hxs m (by simp))
          exact .inr (startsConstruct_of_next? hmc hm)
      | invalid _ _ => exact absurd (hxs _ (List.mem_cons_self)) (by simp [isInvalid])
      | _ => cases hl

/-- Lexemes between two cuts are those of the text between the cuts. -/
theorem ofText_between {t : Text} {xs ys zs : List Lexeme} (h : ofText t = xs ++ ys ++ zs)
    (hys : ∀ l ∈ ys, l.isInvalid = false) : ofText (ys.flatMap chars) = ys :=
  ofText_flatMap_chars (ofText_of_append (List.append_assoc xs ys zs ▸ h)) hys

/-- Text without the blanks around it is text. -/
theorem ofText_trim {t v : Text} (h : text v ∈ ofText t) (hv : Text.trim v ≠ []) :
    ofText (Text.trim v) = [text (Text.trim v)] := by
  obtain ⟨rest, hn⟩ := next?_of_mem_ofText h
  obtain ⟨-, -, -, hfail⟩ := next?_text_iff.1 hn
  suffices hnext : next? (Text.trim v) = some (text (Text.trim v), []) by
    rw [ofText_of_next? hnext, ofText_nil]
  refine next?_text_iff.2 ⟨hv, by simp, .inl rfl, fun p q hpq hq => ?_⟩
  have hfail := hfail (Text.leadingBlanks v ++ p) (q ++ Text.trailingBlanks v)
    (by rw [List.append_assoc, ← List.append_assoc p, ← hpq, ← List.append_assoc, Text.trim_append])
    (by simp [hq])
  rw [List.append_assoc] at hfail
  rw [List.append_nil]
  -- what begins in the trimmed text also begins in the whole
  cases hs : startsConstruct q with
  | true => rw [startsConstruct_append hs] at hfail; cases hfail
  | false => rfl

/-! ## Joining two texts -/

/-- In front of a construct nothing begins that does not begin there already. -/
theorem startsConstruct_of_append {q p x : Text} (hq : q ≠ []) (hp : startsConstruct p = true)
    (h : startsConstruct (q ++ p ++ x) = true) : startsConstruct (q ++ p) = true := by
  obtain ⟨o', r', rfl, hf'⟩ := startsConstruct_iff.1 hp
  obtain ⟨c, d, m', hp', hc⟩ := Opening.exists_chars_append hf'
  rw [hp'] at h ⊢
  obtain ⟨o, r, ho, hf⟩ := startsConstruct_iff.1 h
  rcases List.append_eq_append_iff.1 ho with ⟨m, hm, -⟩ | ⟨m, hm, rfl⟩
  · rw [List.append_assoc, List.cons_append, List.cons_append] at hm
    obtain ⟨h₁, h₂⟩ := Opening.ne_of_chars_eq_append hf hq hm
    rcases hc with rfl | rfl
    · exact absurd rfl h₁
    · exact absurd rfl h₂
  · refine startsConstruct_iff.2 ⟨o, m, hm, ?_⟩
    obtain ⟨e, q, rfl⟩ := List.exists_cons_of_ne_nil hq
    cases o with
    | startTag =>
      have hm : q ++ c :: d :: m' = m := (List.cons.inj hm).2
      exact Opening.startsName_of_append (by simp [← hm]; omega) hf
    | endTag =>
      have hm : q ++ c :: d :: m' = '/' :: m := (List.cons.inj hm).2
      cases q with
      | nil =>
        obtain rfl : c = '/' := (List.cons.inj hm).1
        rcases hc with hc | hc <;> cases hc
      | cons e q =>
        have hm : q ++ c :: d :: m' = m := (List.cons.inj hm).2
        exact Opening.startsName_of_append (by simp [← hm]; omega) hf
    | doctype keyword => exact hf
    | drop => trivial
    | tag => trivial
    | comment => trivial

/-- Text in front of a construct is the same whatever follows later on. -/
theorem next?_text_append {p p' v : Text} (h : next? p = some (text v, p'))
    (hs : startsConstruct p' = true) (x : Text) : next? (p ++ x) = some (text v, p' ++ x) := by
  obtain ⟨hv, rfl, -, hfail⟩ := next?_text_iff.1 h
  refine next?_text_iff.2
    ⟨hv, List.append_assoc _ _ _, .inr (startsConstruct_append hs _), fun a q hq hne => ?_⟩
  have hfail := hfail a q hq hne
  rw [← List.append_assoc]
  cases hx : startsConstruct (q ++ p' ++ x) with
  | true => rw [startsConstruct_of_append hne hs hx] at hfail; cases hfail
  | false => rfl

/-- Text is followed by a construct unless it is the last lexeme. -/
theorem startsConstruct_of_next?_text {p p' v : Text} {l : Lexeme} {ls : List Lexeme}
    (h : next? p = some (text v, p')) (hp' : ofText p' = l :: ls) :
    startsConstruct p' = true := by
  obtain ⟨-, -, hrest, -⟩ := next?_text_iff.1 h
  refine hrest.resolve_left fun hnil => ?_
  rw [hnil, ofText_nil] at hp'
  cases hp'

/-- Two texts keep their lexemes when they are joined, unless the first one ends in text. -/
theorem ofText_append {a : Text} (ha : ∀ l ∈ ofText a, l.isInvalid = false)
    (hlast : ∀ v, (ofText a).getLast? ≠ some (text v)) (b : Text) :
    ofText (a ++ b) = ofText a ++ ofText b := by
  generalize hls : ofText a = ls at ha hlast
  induction ls generalizing a with
  | nil =>
    obtain rfl : a = [] := by
      rw [← flatMap_chars_ofText a, hls]; rfl
    rfl
  | cons l ls ih =>
    obtain ⟨a', hn, ha'⟩ := ofText_eq_cons hls
    have hrest : ∀ v, ls.getLast? ≠ some (text v) := by
      intro v hv
      cases ls with
      | nil => cases hv
      | cons m ls => exact hlast v (by rw [List.getLast?_cons_cons]; exact hv)
    have ih := ih ha' (fun m hm => ha m (List.mem_cons_of_mem _ hm)) hrest
    suffices hnext : next? (a ++ b) = some (l, a' ++ b) by
      rw [ofText_of_next? hnext, ih, List.cons_append]
    cases hl : l.isConstruct with
    | true =>
      have hnext := next?_append hl hn (a' ++ b)
      rwa [← List.append_assoc, ← append_of_next? hn] at hnext
    | false =>
      cases l with
      | text v =>
        cases ls with
        | nil => exact absurd rfl (hlast v)
        | cons m ls => exact next?_text_append hn (startsConstruct_of_next?_text hn ha') b
      | invalid _ _ => exact absurd (ha _ List.mem_cons_self) (by simp [isInvalid])
      | _ => cases hl

/-! ## Blanks -/

/-- Lexemes with blanks behind them. -/
def padded (w : Text) : List Lexeme → List Lexeme
  | [] => [text w]
  | [text v] => [text (v ++ w)]
  | l :: ls => l :: padded w ls

theorem padded_cons_of_isConstruct {l : Lexeme} (hl : l.isConstruct = true) (w : Text)
    (ls : List Lexeme) : padded w (l :: ls) = l :: padded w ls := by
  cases l with
  | text v => cases hl
  | _ => rfl

/-- Only the last run of text can be affected by the blanks. -/
theorem padded_cases (w : Text) (ls : List Lexeme) :
    (∃ before v, ls = before ++ [text v] ∧ padded w ls = before ++ [text (v ++ w)]) ∨
      padded w ls = ls ++ [text w] := by
  induction ls using padded.induct with
  | case1 => exact .inr rfl
  | case2 v => exact .inl ⟨[], v, rfl, rfl⟩
  | case3 l ls hl ih =>
    rw [padded.eq_3 w l ls hl]
    rcases ih with ⟨before, v, hls, h⟩ | h
    · exact .inl ⟨l :: before, v, by rw [hls]; rfl, by rw [h]; rfl⟩
    · exact .inr (by rw [h]; rfl)

/-- A blank adds nothing to the beginning of a construct. -/
theorem startsConstruct_append_blank {b : Char} (hb : Text.isBlank b = true) (u x : Text) :
    startsConstruct (u ++ b :: x) = startsConstruct u := by
  rw [Bool.eq_iff_iff]
  constructor
  · intro h
    obtain ⟨o, r, ht, hf⟩ := startsConstruct_iff.1 h
    rcases List.append_eq_append_iff.1 ht with ⟨m, hm, hr⟩ | ⟨m, hm, hr⟩
    · cases m with
      | nil =>
        rw [List.append_nil] at hm
        rw [List.nil_append] at hr
        subst hr
        refine startsConstruct_iff.2 ⟨o, [], ?_, hf.of_append_blank (u := []) hb⟩
        rw [hm, List.append_nil]
      | cons c m =>
        obtain ⟨rfl, -⟩ := List.cons.inj hr
        have hsolid := Opening.isBlank_of_mem_chars hf b (by simp [hm])
        rw [hb] at hsolid
        cases hsolid
    · subst hr
      exact startsConstruct_iff.2 ⟨o, m, hm, hf.of_append_blank hb⟩
  · intro h
    exact startsConstruct_append h _

section Blanks

variable {w v y : Text}

theorem startsConstruct_append_blanks (hw : Text.AllBlank w) (hne : w ≠ []) (u x : Text) :
    startsConstruct (u ++ (w ++ x)) = startsConstruct u := by
  obtain ⟨b, w, rfl⟩ := List.exists_cons_of_ne_nil hne
  exact startsConstruct_append_blank (hw b List.mem_cons_self) u (w ++ x)

/-- Text takes up blanks behind it. -/
theorem next?_append_blanks (hw : Text.AllBlank w) (hne : w ≠ [])
    (hv : ∀ a q, v = a ++ q → q ≠ [] → startsConstruct q = false)
    (hy : y = [] ∨ startsConstruct y = true) :
    next? (v ++ (w ++ y)) = some (text (v ++ w), y) := by
  refine next?_text_iff.2 ⟨by simp [hne], (List.append_assoc _ _ _).symm, hy, fun a q haq hq => ?_⟩
  rcases List.append_eq_append_iff.1 haq with ⟨m, rfl, hmq⟩ | ⟨m, hm, rfl⟩
  · have hblank : Text.AllBlank q := fun c hc => hw c (hmq ▸ List.mem_append_right m hc)
    exact startsConstruct_append_blanks hblank hq [] y
  · rw [List.append_assoc, startsConstruct_append_blanks hw hne]
    cases m with
    | nil => rfl
    | cons b m => exact hv a (b :: m) hm (by simp)

/-- Text takes up blanks in front of it. -/
theorem next?_blanks_append (hw : Text.AllBlank w) (hne : w ≠ [])
    (hv : ∀ a q, v = a ++ q → q ≠ [] → startsConstruct (q ++ y) = false)
    (hy : y = [] ∨ startsConstruct y = true) :
    next? (w ++ (v ++ y)) = some (text (w ++ v), y) := by
  refine next?_text_iff.2 ⟨by simp [hne], (List.append_assoc _ _ _).symm, hy, fun a q haq hq => ?_⟩
  rcases List.append_eq_append_iff.1 haq with ⟨m, rfl, hmq⟩ | ⟨m, hm, rfl⟩
  · exact hv m q hmq hq
  · cases m with
    | nil => exact hv [] v rfl hq
    | cons b m =>
      have hblank : Text.AllBlank (b :: m) := fun c hc => hw c (hm ▸ List.mem_append_right a hc)
      rw [List.append_assoc]
      exact startsConstruct_append_blanks hblank (by simp) [] (v ++ y)

/-- Blanks between two texts keep the lexemes of both, if the second begins with a construct. -/
theorem ofText_append_blanks {p : Text} (hw : Text.AllBlank w) (hne : w ≠ [])
    (hp : ∀ l ∈ ofText p, l.isInvalid = false) (hy : y = [] ∨ startsConstruct y = true) :
    ofText (p ++ (w ++ y)) = padded w (ofText p) ++ ofText y := by
  generalize hls : ofText p = ls at hp
  induction ls generalizing p with
  | nil =>
    obtain rfl : p = [] := by
      rw [← flatMap_chars_ofText p, hls]; rfl
    have hnext : next? ([] ++ (w ++ y)) = some (text ([] ++ w), y) :=
      next?_append_blanks hw hne (by simp) hy
    rw [ofText_of_next? hnext]
    rfl
  | cons l ls ih =>
    obtain ⟨p', hn, hp'⟩ := ofText_eq_cons hls
    have ih := ih hp' fun m hm => hp m (List.mem_cons_of_mem _ hm)
    cases hl : l.isConstruct with
    | true =>
      have hnext := next?_append hl hn (p' ++ (w ++ y))
      rw [← List.append_assoc, ← append_of_next? hn] at hnext
      rw [ofText_of_next? hnext, ih, padded_cons_of_isConstruct hl, List.cons_append]
    | false =>
      cases l with
      | text v =>
        obtain ⟨-, hpv, -, hfail⟩ := next?_text_iff.1 hn
        cases ls with
        | nil =>
          obtain rfl : p' = [] := by
            rw [← flatMap_chars_ofText p', hp']; rfl
          rw [List.append_nil] at hpv
          subst hpv
          have hnext := next?_append_blanks hw hne
            (fun a q hq hne => by simpa using hfail a q hq hne) hy
          rw [ofText_of_next? hnext]
          rfl
        | cons m ls =>
          have hs := startsConstruct_of_next?_text hn hp'
          rw [ofText_of_next? (next?_text_append hn hs _), ih]
          rfl
      | invalid _ _ => exact absurd (hp _ List.mem_cons_self) (by simp [isInvalid])
      | _ => cases hl

/-- Blanks in front of a text join the run of text there, or are a run of their own. -/
theorem ofText_blanks_append (hw : Text.AllBlank w) (hne : w ≠ []) (t : Text) :
    (∃ v ls, ofText t = text v :: ls ∧ ofText (w ++ t) = text (w ++ v) :: ls) ∨
      ofText (w ++ t) = text w :: ofText t := by
  have hown (hstart : t = [] ∨ startsConstruct t = true) :
      ofText (w ++ t) = text w :: ofText t := by
    have hnext : next? (w ++ ([] ++ t)) = some (text (w ++ []), t) :=
      next?_blanks_append hw hne (by simp) hstart
    rw [List.append_nil] at hnext
    exact ofText_of_next? hnext
  by_cases ht : t = []
  · exact .inr (hown (.inl ht))
  · cases hs : startsConstruct t with
    | true => exact .inr (hown (.inr hs))
    | false =>
      obtain ⟨v, rest, hn⟩ := exists_next?_text ht hs
      obtain ⟨-, rfl, hrest, hfail⟩ := next?_text_iff.1 hn
      exact .inl ⟨v, ofText rest, ofText_of_next? hn,
        ofText_of_next? (next?_blanks_append hw hne hfail hrest)⟩

end Blanks

end Lexeme

end LiquidTemplate
