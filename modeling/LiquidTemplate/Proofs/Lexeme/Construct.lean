import LiquidTemplate.Lexeme.Scan
import LiquidTemplate.Proofs.Lexeme.Head
import LiquidTemplate.Proofs.Lexeme.Raw

/-!
# Complete constructs

A lexeme that is neither text nor invalid is a complete construct. Where one is read, it is read
again in front of any other text (`Lexeme.next?_append`): nothing behind a construct has a part in
it. Text ends in front of the next construct (`Lexeme.next?_text_iff`), so it does depend on what
follows.
-/

namespace LiquidTemplate

namespace Opening

/-- What the beginning of a construct demands of its own word and of what follows. -/
def Fits : Opening → Text → Prop
  | doctype keyword, _ => Keyword.fold keyword = "doctype".toList
  | endTag, t | startTag, t => startsName t = true
  | drop, _ | tag, _ | comment, _ => True

/-- The word begins with a letter, so it is not taken for a comment. -/
theorem ofText?_doctype {keyword : Text} (h : Keyword.fold keyword = "doctype".toList)
    (rest : Text) :
    ofText? ('<' :: '!' :: (keyword ++ rest)) = some (doctype keyword, rest) := by
  have hlen : keyword.length = 7 := by rw [← Raw.length_fold, h]; rfl
  have hd : doctype? (keyword ++ rest) = some (doctype keyword, rest) := by
    have htake : (keyword ++ rest).take 7 = keyword := List.take_left' hlen
    have hdrop : (keyword ++ rest).drop 7 = rest := List.drop_left' hlen
    simp only [doctype?, htake, hdrop]
    exact if_pos h
  cases keyword with
  | nil => cases hlen
  | cons c keyword =>
    have hc : c ≠ '-' := by
      rintro rfl
      exact absurd (List.cons.inj h).1 (by decide)
    rw [List.cons_append] at hd ⊢
    simp [ofText?, hc, hd]

/-- No construct has two beginnings, and none hides another. -/
theorem ofText?_eq_some_iff {t rest : Text} {o : Opening} :
    ofText? t = some (o, rest) ↔ t = o.chars ++ rest ∧ o.Fits rest := by
  constructor
  · intro h
    refine ⟨append_of_ofText? h, ?_⟩
    unfold ofText? at h
    split at h
    · cases h; trivial
    · cases h; trivial
    · cases h; trivial
    · simp only [doctype?, Option.ite_none_right_eq_some, Option.some.injEq, Prod.mk.injEq] at h
      obtain ⟨hfold, rfl, -⟩ := h
      exact hfold
    · split at h
      · next hs => cases h; exact hs
      · cases h
    · split at h
      · next hs => cases h; exact hs
      · cases h
    · cases h
  · rintro ⟨rfl, hf⟩
    cases o with
    | drop => rfl
    | tag => rfl
    | comment => rfl
    | doctype keyword => exact ofText?_doctype hf rest
    | endTag =>
      have hs : startsName rest = true := hf
      simp [chars, ofText?, hs]
    | startTag =>
      rcases startsName_iff.1 hf with ⟨r, rfl⟩ | ⟨c, r, rfl, hc⟩
      · rfl
      · have hs : startsName (c :: r) = true := hf
        have h₁ : c ≠ '!' := by rintro rfl; cases hc
        have h₂ : c ≠ '/' := by rintro rfl; cases hc
        simp [chars, ofText?, h₁, h₂, hs]

section Cases

variable {t rest : Text} {l : Lexeme}

theorem complete_tag_append (h : tag.complete t = .ok (l, rest)) :
    ∃ u, t = u ++ rest ∧ ∀ x, tag.complete (u ++ x) = .ok (l, x) := by
  simp only [complete] at h
  split at h
  · cases h
  · next inner rest₁ hd =>
    have hx := Delimiter.finish?_append hd
    have ht := Delimiter.append_of_finish? hd
    split at h
    · next hraw =>
      split at h
      · next hr =>
        cases h
        obtain ⟨u, rfl, hu⟩ := Raw.readTag?_append hr
        refine ⟨inner ++ Delimiter.tag.closing ++ u, by simp [ht], fun x => ?_⟩
        rw [List.append_assoc]
        simp only [complete, hx, hraw, hu, if_true]
      · cases h
    · next hraw =>
      cases h
      refine ⟨inner ++ Delimiter.tag.closing, ht, fun x => ?_⟩
      simp only [complete, hx, hraw]
      rfl

/-- An end tag is a name, blanks and a `>`. -/
theorem complete_endTag {name : TagName} {gap : Text} (hgap : Text.AllBlank gap)
    (h : TagName.read t = .ok (name, gap ++ '>' :: rest)) :
    endTag.complete t = .ok (.endTag name gap, rest) := by
  have hsplit := Text.blanks_append_of_stops hgap
    (Text.stops_cons.2 rfl : Text.Stops Text.isBlank ('>' :: rest))
  simp only [complete, h, hsplit.1, hsplit.2]

theorem complete_endTag_append (hf : startsName t = true)
    (h : endTag.complete t = .ok (l, rest)) :
    ∃ u, t = u ++ rest ∧ ∀ x, startsName (u ++ x) = true ∧
      endTag.complete (u ++ x) = .ok (l, x) := by
  simp only [complete] at h
  split at h
  · cases h
  · next name rest₁ hn =>
    split at h
    · next hgt =>
      cases h
      have hgap := Text.allBlank_leadingBlanks rest₁
      have hsplit := Text.leadingBlanks_append_trimStart rest₁
      rw [hgt] at hsplit
      generalize Text.leadingBlanks rest₁ = gap at hgap hsplit ⊢
      subst hsplit
      -- one character behind the name decides where it ends: a blank or the end of the tag
      obtain ⟨c, g, hg⟩ : ∃ c g, gap ++ ['>'] = c :: g :=
        List.exists_cons_of_ne_nil (by simp)
      have hcons : ∀ x, gap ++ '>' :: x = c :: (g ++ x) := fun x => by
        rw [← List.cons_append, ← hg]; simp
      rw [hcons] at hn
      obtain ⟨u, rfl, hs, hu⟩ := TagName.read_append hf hn
      refine ⟨u ++ (gap ++ ['>']), by simp [hcons], fun x => ?_⟩
      rw [List.append_assoc]
      refine ⟨hs _, complete_endTag hgap ?_⟩
      rw [List.append_assoc, List.singleton_append, hcons]
      exact hu (g ++ x)
    · cases h

theorem complete_startTag_append (hf : startsName t = true)
    (h : startTag.complete t = .ok (l, rest)) :
    ∃ u, t = u ++ rest ∧ ∀ x, startsName (u ++ x) = true ∧
      startTag.complete (u ++ x) = .ok (l, x) := by
  simp only [complete] at h
  split at h
  · cases h
  · next head rest₁ hh =>
    obtain ⟨u, rfl, hs, hu⟩ := Head.read_append hf hh
    split at h
    · next hraw =>
      cases h
      refine ⟨u, rfl, fun x => ⟨hs x, ?_⟩⟩
      simp only [complete, hu, hraw]
    · next name hraw =>
      split at h
      · next hr =>
        cases h
        obtain ⟨v, rfl, hv⟩ := Raw.readElement?_append hr
        refine ⟨u ++ v, by rw [List.append_assoc], fun x => ?_⟩
        rw [List.append_assoc]
        refine ⟨hs _, ?_⟩
        simp only [complete, hu, hraw, hv]
      · cases h

/-- A complete construct is read again in front of any other text. -/
theorem complete_append {o : Opening} (hf : o.Fits t) (h : o.complete t = .ok (l, rest)) :
    ∃ u, t = u ++ rest ∧ ∀ x, o.Fits (u ++ x) ∧ o.complete (u ++ x) = .ok (l, x) := by
  cases o with
  | drop =>
    simp only [complete] at h
    split at h
    · next inner _ hd =>
      cases h
      refine ⟨inner ++ Delimiter.drop.closing, by rw [Delimiter.append_of_finish? hd], fun x => ?_⟩
      simp only [complete, Delimiter.finish?_append hd x, Fits, and_self]
    · cases h
  | comment =>
    simp only [complete] at h
    split at h
    · next body _ hd =>
      cases h
      refine ⟨body ++ Delimiter.comment.closing, by rw [Delimiter.append_of_finish? hd],
        fun x => ?_⟩
      simp only [complete, Delimiter.finish?_append hd x, Fits, and_self]
    · cases h
  | doctype keyword =>
    simp only [complete] at h
    split at h
    · next raw _ hd =>
      cases h
      refine ⟨raw ++ ['>'], by rw [Text.append_of_splitFirst? hd], fun x => ⟨hf, ?_⟩⟩
      simp only [complete, Text.splitFirst?_append hd x]
    · cases h
  | tag =>
    obtain ⟨u, ht, hu⟩ := complete_tag_append h
    exact ⟨u, ht, fun x => ⟨trivial, hu x⟩⟩
  | endTag => exact complete_endTag_append hf h
  | startTag => exact complete_startTag_append hf h

end Cases

end Opening

namespace Lexeme

/-- Whether the lexeme is a complete construct. -/
def isConstruct : Lexeme → Bool
  | text _ | invalid _ _ => false
  | _ => true

def isInvalid : Lexeme → Bool
  | invalid _ _ => true
  | _ => false

theorem isConstruct_of_complete {o : Opening} {t rest : Text} {l : Lexeme}
    (h : o.complete t = .ok (l, rest)) : l.isConstruct = true := by
  cases o <;> simp only [Opening.complete] at h <;> (repeat' split at h) <;> cases h <;> rfl

theorem next?_of_complete {o : Opening} {t rest : Text} {l : Lexeme} (hf : o.Fits t)
    (h : o.complete t = .ok (l, rest)) : next? (o.chars ++ t) = some (l, rest) := by
  have ho := Opening.ofText?_eq_some_iff.2 ⟨rfl, hf⟩
  obtain ⟨c, cs, hc⟩ := List.exists_cons_of_ne_nil (Opening.chars_ne_nil o)
  rw [hc, List.cons_append] at ho ⊢
  simp only [next?, ho, h]

/-- A construct is what its beginning and its completion make it. -/
theorem next?_construct_iff {t rest : Text} {l : Lexeme} (hl : l.isConstruct = true) :
    next? t = some (l, rest) ↔
      ∃ (o : Opening) (r : Text), t = o.chars ++ r ∧ o.Fits r ∧ o.complete r = .ok (l, rest) := by
  constructor
  · intro h
    cases t with
    | nil => cases h
    | cons c more =>
      simp only [next?] at h
      split at h
      · cases h; cases hl
      · next o r ho =>
        split at h
        · next hc =>
          cases h
          obtain ⟨ht, hf⟩ := Opening.ofText?_eq_some_iff.1 ho
          exact ⟨o, r, ht, hf, hc⟩
        · cases h; cases hl
  · rintro ⟨o, r, rfl, hf, hc⟩
    exact next?_of_complete hf hc

/-- Nothing behind a construct has a part in it. -/
theorem next?_append {t rest : Text} {l : Lexeme} (hl : l.isConstruct = true)
    (h : next? t = some (l, rest)) (x : Text) : next? (l.chars ++ x) = some (l, x) := by
  obtain ⟨o, r, rfl, hf, hc⟩ := (next?_construct_iff hl).1 h
  obtain ⟨u, rfl, hu⟩ := Opening.complete_append hf hc
  have hchars := append_of_next? h
  rw [← List.append_assoc, List.append_cancel_right_eq] at hchars
  rw [← hchars, List.append_assoc]
  exact next?_of_complete (hu x).1 (hu x).2

/-! ## Text -/

theorem startsConstruct_iff {t : Text} :
    startsConstruct t = true ↔ ∃ (o : Opening) (r : Text), t = o.chars ++ r ∧ o.Fits r := by
  rw [startsConstruct, Option.isSome_iff_exists]
  constructor
  · rintro ⟨⟨o, r⟩, h⟩
    exact ⟨o, r, Opening.ofText?_eq_some_iff.1 h⟩
  · rintro ⟨o, r, h⟩
    exact ⟨(o, r), Opening.ofText?_eq_some_iff.2 h⟩

theorem exists_next?_text {t : Text} (ht : t ≠ []) (hs : startsConstruct t = false) :
    ∃ v rest, next? t = some (text v, rest) := by
  obtain ⟨c, more, rfl⟩ := List.exists_cons_of_ne_nil ht
  have ho : Opening.ofText? (c :: more) = none := by simpa [startsConstruct] using hs
  simp [next?, ho]

/-- Text ends where a construct begins or at the end, and no construct begins in it. -/
theorem next?_text_iff {t v rest : Text} :
    next? t = some (text v, rest) ↔
      v ≠ [] ∧ t = v ++ rest ∧ (rest = [] ∨ startsConstruct rest = true) ∧
        ∀ p q, v = p ++ q → q ≠ [] → startsConstruct (q ++ rest) = false := by
  cases t with
  | nil =>
    simp only [next?, reduceCtorEq, false_iff]
    rintro ⟨hv, ht, -⟩
    exact hv (List.append_eq_nil_iff.1 ht.symm).1
  | cons c more =>
    simp only [next?]
    cases ho : Opening.ofText? (c :: more) with
    | some found =>
      have hstart : startsConstruct (c :: more) = true := by simp [startsConstruct, ho]
      obtain ⟨o, r⟩ := found
      constructor
      · intro h
        have : (text v).isConstruct = true := by
          simp only at h
          split at h
          · next hc => cases h; exact isConstruct_of_complete hc
          · cases h
        cases this
      · rintro ⟨hv, ht, -, hfail⟩
        have := hfail [] v rfl hv
        rw [← ht, hstart] at this
        cases this
    | none =>
      have hstart : startsConstruct (c :: more) = false := by simp [startsConstruct, ho]
      obtain ⟨run, rest', hb⟩ : ∃ run rest', Text.breakAt startsConstruct more = (run, rest') :=
        ⟨_, _, rfl⟩
      simp only [hb, Option.some.injEq, Prod.mk.injEq, text.injEq]
      constructor
      · rintro ⟨rfl, rfl⟩
        obtain ⟨rfl, hrest, hfail⟩ := Text.breakAt_eq_iff.1 hb
        refine ⟨by simp, rfl, hrest, fun p q hpq hq => ?_⟩
        cases p with
        | nil => rw [List.nil_append] at hpq; rw [← hpq]; exact hstart
        | cons d p => exact hfail p q (List.cons.inj hpq).2 hq
      · rintro ⟨hv, ht, hrest, hfail⟩
        cases v with
        | nil => exact absurd rfl hv
        | cons d v =>
          obtain ⟨rfl, rfl⟩ := List.cons.inj ht
          have : Text.breakAt startsConstruct (v ++ rest) = (v, rest) := by
            refine Text.breakAt_eq_iff.2 ⟨rfl, hrest, fun p q hpq hq => ?_⟩
            exact hfail (c :: p) q (by rw [hpq]; rfl) hq
          obtain ⟨rfl, rfl⟩ := Prod.mk.inj (hb.symm.trans this)
          exact ⟨rfl, rfl⟩

end Lexeme

namespace Opening

theorem startsName_append {t : Text} (h : startsName t = true) (x : Text) :
    startsName (t ++ x) = true := by
  rcases startsName_iff.1 h with ⟨r, rfl⟩ | ⟨c, r, rfl, hc⟩
  · rfl
  · exact startsName_iff.2 (.inr ⟨c, r ++ x, rfl, hc⟩)

theorem Fits.append {o : Opening} {t : Text} (h : o.Fits t) (x : Text) : o.Fits (t ++ x) := by
  cases o with
  | doctype keyword => exact h
  | endTag => exact startsName_append h x
  | startTag => exact startsName_append h x
  | drop => trivial
  | tag => trivial
  | comment => trivial

/-- A blank is no part of the beginning of a construct. -/
theorem isBlank_of_mem_chars {o : Opening} {t : Text} (hf : o.Fits t) :
    ∀ c ∈ o.chars, Text.isBlank c = false := by
  cases o with
  | doctype keyword =>
    refine List.forall_mem_append.2 ⟨Text.isBlank_eq_false_of_any (by decide), fun c hc => ?_⟩
    cases hb : Text.isBlank c with
    | false => rfl
    | true =>
      have hfold : c ∈ "doctype".toList := by
        rw [← Text.toLower_of_isBlank hb, ← show Keyword.fold keyword = _ from hf]
        exact List.mem_map_of_mem (f := Char.toLower) hc
      rw [← hb]
      exact Text.isBlank_eq_false_of_any (by decide) c hfold
  | _ => exact Text.isBlank_eq_false_of_any (by decide)

section Blank

variable {b : Char} {u x : Text}

theorem startsName_of_append_blank (hb : Text.isBlank b = true)
    (h : startsName (u ++ b :: x) = true) : startsName u = true := by
  match u with
  | [] =>
    rcases startsName_iff.1 h with ⟨r, hr⟩ | ⟨d, r, hr, hd⟩
    · cases hr; cases hb
    · cases hr
      rw [Text.not_isAlpha_of_isBlank hb] at hd
      cases hd
  | [c] =>
    rcases startsName_iff.1 h with ⟨r, hr⟩ | ⟨d, r, hr, hd⟩
    · cases hr; cases hb
    · cases hr
      exact startsName_iff.2 (.inr ⟨c, [], rfl, hd⟩)
  | c :: d :: u =>
    rcases startsName_iff.1 h with ⟨r, hr⟩ | ⟨e, r, hr, he⟩
    · cases hr; rfl
    · cases hr
      exact startsName_iff.2 (.inr ⟨c, d :: u, rfl, he⟩)

theorem Fits.of_append_blank {o : Opening} (hb : Text.isBlank b = true)
    (h : o.Fits (u ++ b :: x)) : o.Fits u := by
  cases o with
  | doctype keyword => exact h
  | endTag => exact startsName_of_append_blank hb h
  | startTag => exact startsName_of_append_blank hb h
  | drop => trivial
  | tag => trivial
  | comment => trivial

end Blank

end Opening

namespace Lexeme

/-- What follows can only add to the beginning of a construct. -/
theorem startsConstruct_append {t : Text} (h : startsConstruct t = true) (x : Text) :
    startsConstruct (t ++ x) = true := by
  obtain ⟨o, r, rfl, hf⟩ := startsConstruct_iff.1 h
  exact startsConstruct_iff.2 ⟨o, r ++ x, List.append_assoc _ _ _, hf.append x⟩

end Lexeme

end LiquidTemplate
