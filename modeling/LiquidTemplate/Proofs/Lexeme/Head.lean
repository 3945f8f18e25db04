import LiquidTemplate.Lexeme.Head
import LiquidTemplate.Lexeme.Opening
import LiquidTemplate.Proofs.Lexeme.Value
import LiquidTemplate.Proofs.Text.Run

/-!
# Heads do not depend on what follows them

A name and an attribute end where the next character says so, and behind an attribute without a
value that character may stand behind blanks. A head ends in a character of its own, so all that its
parts look at lies in the head, and the head is read again in front of any other text
(`Head.read_append`).
-/

namespace LiquidTemplate

namespace Opening

/-- A name begins with a drop or with a letter. -/
theorem startsName_iff {t : Text} :
    startsName t = true ↔ (∃ r, t = '{' :: '{' :: r) ∨ ∃ c r, t = c :: r ∧ c.isAlpha = true := by
  constructor
  · intro h
    unfold startsName at h
    split at h
    · next r => exact .inl ⟨r, rfl⟩
    · next c r _ => exact .inr ⟨c, r, rfl, h⟩
    · cases h
  · rintro (⟨r, rfl⟩ | ⟨c, r, rfl, hc⟩)
    · rfl
    · unfold startsName
      split
      · rfl
      · next h => obtain ⟨rfl, rfl⟩ := List.cons.inj h; exact hc
      · next h => cases h

end Opening

namespace TagName

theorem read_drop {rest inner rest' : Text}
    (h : Delimiter.drop.finish? rest = some (inner, rest')) :
    read ('{' :: '{' :: rest) = .ok (dynamic inner, rest') := by
  simp only [read, h]

theorem read_fixed {c : Char} {t : Text} (hc : c ≠ '{') :
    read (c :: t) = .ok (fixed ((c :: t).takeWhile isNameChar), (c :: t).dropWhile isNameChar) := by
  unfold read
  split
  · next h => exact absurd (List.cons.inj h).1 hc
  · rfl

theorem isNameChar_of_isAlpha {c : Char} (hc : c.isAlpha = true) :
    isNameChar c = true ∧ c ≠ '{' := by
  constructor
  · simp [isNameChar, Char.isAlphanum, hc]
  · rintro rfl; cases hc

/-- A letter and the characters of a name behind it are read as one. -/
theorem read_run {c : Char} {run rest : Text} (hc : c.isAlpha = true)
    (hrun : ∀ d ∈ run, isNameChar d = true) (hrest : Text.Stops isNameChar rest) :
    read (c :: run ++ rest) = .ok (fixed (c :: run), rest) := by
  obtain ⟨hname, hbrace⟩ := isNameChar_of_isAlpha hc
  have hsplit := Text.takeWhile_append_of_stops (List.forall_mem_cons.2 ⟨hname, hrun⟩) hrest
  rw [List.cons_append] at hsplit ⊢
  rw [read_fixed hbrace, hsplit.1, hsplit.2]

/-- Where a name can begin, it is read up to the character behind it. -/
theorem read_append {t rest : Text} {c : Char} {name : TagName} (hs : Opening.startsName t = true)
    (h : read t = .ok (name, c :: rest)) :
    ∃ u, t = u ++ c :: rest ∧ (∀ x, Opening.startsName (u ++ x) = true) ∧
      ∀ x, read (u ++ c :: x) = .ok (name, c :: x) := by
  rcases Opening.startsName_iff.1 hs with ⟨r, rfl⟩ | ⟨d, r, rfl, hd⟩
  · cases hf : Delimiter.drop.finish? r with
    | none => simp [read, hf] at h
    | some found =>
      obtain ⟨inner, rest'⟩ := found
      rw [read_drop hf] at h
      cases h
      refine ⟨'{' :: '{' :: (inner ++ Delimiter.drop.closing), ?_, fun x => rfl, fun x => ?_⟩
      · simp [Delimiter.append_of_finish? hf]
      · simpa using read_drop (Delimiter.finish?_append hf (c :: x))
  · obtain ⟨hname, hbrace⟩ := isNameChar_of_isAlpha hd
    rw [read_fixed hbrace] at h
    simp only [Except.ok.injEq, Prod.mk.injEq, List.takeWhile_cons, List.dropWhile_cons, hname,
      if_true] at h
    obtain ⟨rfl, hrest⟩ := h
    refine ⟨d :: r.takeWhile isNameChar, ?_, fun x => ?_, fun x => ?_⟩
    · rw [← hrest, List.cons_append, List.takeWhile_append_dropWhile]
    · exact Opening.startsName_iff.2 (.inr ⟨d, _, rfl, hd⟩)
    · have hc : Text.Stops isNameChar (c :: rest) := hrest ▸ Text.stops_dropWhile isNameChar r
      have hx : Text.Stops isNameChar (c :: x) := Text.stops_cons.2 (Text.stops_cons.1 hc)
      exact read_run hd Text.mem_takeWhile_imp hx

/-- A name that was read once is read wherever it is followed by the end of a tag. -/
theorem read_close {t rest : Text} {name : TagName} (hs : Opening.startsName t = true)
    (h : read t = .ok (name, rest)) (x : Text) :
    Opening.startsName (name.chars ++ '>' :: x) = true ∧
      read (name.chars ++ '>' :: x) = .ok (name, '>' :: x) := by
  rcases Opening.startsName_iff.1 hs with ⟨r, rfl⟩ | ⟨d, r, rfl, hd⟩
  · cases hf : Delimiter.drop.finish? r with
    | none => simp [read, hf] at h
    | some found =>
      obtain ⟨inner, rest'⟩ := found
      rw [read_drop hf] at h
      cases h
      refine ⟨rfl, ?_⟩
      simpa [chars, Delimiter.enclose, Delimiter.opening] using
        read_drop (Delimiter.finish?_append hf ('>' :: x))
  · obtain ⟨hname, hbrace⟩ := isNameChar_of_isAlpha hd
    rw [read_fixed hbrace, List.takeWhile_cons, if_pos hname] at h
    cases h
    refine ⟨Opening.startsName_iff.2 (.inr ⟨d, _, rfl, hd⟩), ?_⟩
    have hx : Text.Stops isNameChar ('>' :: x) := Text.stops_cons.2 (by decide)
    exact read_run hd Text.mem_takeWhile_imp hx

end TagName

namespace Attribute

theorem not_isNameChar_of_isBlank {c : Char} (h : Text.isBlank c = true) :
    isNameChar c = false := by
  simp [isNameChar, h]

/-- An attribute with a value. -/
theorem read_assigned (gap : Text) {name before after t rest : Text} {v : Value}
    (hname : ∀ c ∈ name, isNameChar c = true) (hbefore : Text.AllBlank before)
    (hafter : Text.AllBlank after) (ht : Text.Stops Text.isBlank t)
    (h : Value.read t = .ok (v, rest)) :
    read gap (name ++ (before ++ '=' :: (after ++ t))) =
      .ok (⟨gap, name, some ⟨before, after, v⟩⟩, rest) := by
  have hstop : Text.Stops isNameChar (before ++ '=' :: (after ++ t)) := by
    cases before with
    | nil => exact Text.stops_cons.2 rfl
    | cons b before => exact Text.stops_cons.2 (not_isNameChar_of_isBlank (hbefore b (by simp)))
  have hrun := Text.takeWhile_append_of_stops hname hstop
  have hblanks := Text.blanks_append_of_stops hbefore
    (Text.stops_cons.2 rfl : Text.Stops Text.isBlank ('=' :: (after ++ t)))
  have hblanks' := Text.blanks_append_of_stops hafter ht
  simp only [read, hrun.1, hrun.2, hblanks.1, hblanks.2, hblanks'.1, hblanks'.2, h]

/-- An attribute without one. -/
theorem read_plain {gap name rest : Text} (hname : ∀ c ∈ name, isNameChar c = true)
    (hrest : Text.Stops isNameChar rest) (heq : Text.Stops (· == '=') (Text.trimStart rest)) :
    read gap (name ++ rest) = .ok (⟨gap, name, none⟩, rest) := by
  have hrun := Text.takeWhile_append_of_stops hname hrest
  simp only [read, hrun.1, hrun.2]
  split
  · next h => rw [h] at heq; exact absurd (Text.stops_cons.1 heq) (by decide)
  · rfl

/-- What an attribute looks at ends with the first character behind it that is not a blank. -/
theorem read_append {gap t w rest : Text} {a : Attribute} (hw : Text.trimStart w ≠ [])
    (h : read gap t = .ok (a, w ++ rest)) :
    ∃ u, t = u ++ (w ++ rest) ∧ ∀ x, read gap (u ++ (w ++ x)) = .ok (a, w ++ x) := by
  obtain ⟨d, w', rfl⟩ : ∃ d w', w = d :: w' :=
    List.exists_cons_of_ne_nil (by rintro rfl; exact hw rfl)
  have hsplit : t.takeWhile isNameChar ++ t.dropWhile isNameChar = t :=
    List.takeWhile_append_dropWhile
  have hname : ∀ c ∈ t.takeWhile isNameChar, isNameChar c = true := Text.mem_takeWhile_imp
  have hstop := Text.stops_dropWhile isNameChar t
  simp only [read] at h
  generalize t.takeWhile isNameChar = name at h hsplit hname
  generalize t.dropWhile isNameChar = more at h hsplit hstop
  subst hsplit
  split at h
  · next rest' hmore =>
    split at h
    · next v rest'' hv =>
      cases h
      obtain ⟨u, hu, hread⟩ := Value.read_append hv
      refine ⟨name ++ (Text.leadingBlanks more ++ '=' :: (Text.leadingBlanks rest' ++ u)), ?_,
        fun x => ?_⟩
      · have h₁ := Text.leadingBlanks_append_trimStart more
        have h₂ := Text.leadingBlanks_append_trimStart rest'
        rw [hu] at h₂
        rw [hmore, ← h₂] at h₁
        simpa using h₁.symm
      · have hs : Text.Stops Text.isBlank (u ++ [d] ++ (w' ++ rest)) := by
          have := Text.stops_trimStart rest'
          rw [hu] at this
          simpa using this
        have hs := Text.Stops.append (y := w' ++ x) (by simp) hs
        have := read_assigned gap hname (Text.allBlank_leadingBlanks more)
          (Text.allBlank_leadingBlanks rest') (by simpa using hs) (hread (w' ++ x))
        simpa using this
    · cases h
  · next hne =>
    cases h
    refine ⟨name, rfl, fun x => read_plain hname ?_ ?_⟩
    · exact Text.stops_cons.2 (Text.stops_cons.1 hstop)
    · obtain ⟨h₁, -⟩ := Text.trimStart_append hw rest
      obtain ⟨h₂, -⟩ := Text.trimStart_append hw x
      rw [h₂]
      refine Text.Stops.append hw (x := rest) ?_
      rw [← h₁]
      intro c hc
      cases ht : Text.trimStart (d :: w' ++ rest) with
      | nil => rw [ht] at hc; cases hc
      | cons e more =>
        rw [ht] at hc
        cases hc
        simp only [beq_eq_false_iff_ne]
        rintro rfl
        exact hne more ht

end Attribute

namespace Head

section Loop

variable {name : TagName} {found : List Attribute}

theorem readOnto_close {t rest : Text} (h : Text.trimStart t = '>' :: rest) :
    readOnto name found t = .ok (⟨name, found.reverse, Text.leadingBlanks t, false⟩, rest) := by
  rw [readOnto]
  split <;> simp_all

theorem readOnto_selfClose {t rest : Text} (h : Text.trimStart t = '/' :: '>' :: rest) :
    readOnto name found t = .ok (⟨name, found.reverse, Text.leadingBlanks t, true⟩, rest) := by
  rw [readOnto]
  split <;> simp_all

theorem readOnto_attribute {t rest rest' : Text} {c : Char} {a : Attribute}
    (h : Text.trimStart t = c :: rest) (hl : opensLiquid (c :: rest) = false)
    (hc : Attribute.isNameChar c = true)
    (ha : Attribute.read (Text.leadingBlanks t) (c :: rest) = .ok (a, rest')) :
    readOnto name found t = readOnto name (a :: found) rest' := by
  rw [readOnto]
  split
  · next h' => rw [h] at h'; cases h'
  · next h' => rw [h] at h'; cases h'; cases hc
  · next h' => rw [h] at h'; cases h'; cases hc
  · next h' => rw [h] at h'; cases h'; cases hl
  · next h' => rw [h] at h'; cases h'; cases hl
  · next h' =>
    rw [h] at h'
    cases h'
    rw [dif_pos hc]
    split
    · next ha' => rw [ha] at ha'; cases ha'; rfl
    · next ha' => rw [ha] at ha'; cases ha'

/-- A head ends with a character of its own, so nothing behind it is looked at. -/
theorem readOnto_append {t rest : Text} {head : Head}
    (h : readOnto name found t = .ok (head, rest)) :
    ∃ u, Text.trimStart u ≠ [] ∧ t = u ++ rest ∧
      ∀ x, readOnto name found (u ++ x) = .ok (head, x) := by
  fun_induction readOnto name found t with
  | case1 => cases h
  | case2 found t gap rest' ht =>
    cases h
    have hx := Text.blanks_append_cons (c := '>') rfl t
    refine ⟨Text.leadingBlanks t ++ ['>'], by simp [(hx []).2], ?_, fun x => ?_⟩
    · rw [List.append_assoc, List.singleton_append, ← ht, Text.leadingBlanks_append_trimStart]
    · rw [List.append_assoc, List.singleton_append, readOnto_close (hx x).2, (hx x).1]
  | case3 found t gap rest' ht =>
    cases h
    have hx := fun x => Text.blanks_append_cons (c := '/') rfl t ('>' :: x)
    refine ⟨Text.leadingBlanks t ++ ['/', '>'], by simp [(hx []).2], ?_, fun x => ?_⟩
    · rw [List.append_assoc, List.cons_append, List.singleton_append, ← ht,
        Text.leadingBlanks_append_trimStart]
    · rw [List.append_assoc, List.cons_append, List.singleton_append, readOnto_selfClose (hx x).2,
        (hx x).1]
  | case4 => cases h
  | case5 => cases h
  | case6 found t gap c rest' _ _ hd hl ht hc a rest'' ha ih =>
    obtain ⟨w, hw, rfl, hread⟩ := ih h
    obtain ⟨u, hu, ha'⟩ := Attribute.read_append hw ha
    have hpos := Attribute.length_lt_of_read hc ha
    rw [hu] at hpos
    cases u with
    | nil => simp at hpos
    | cons e u =>
      obtain ⟨rfl, rfl⟩ := List.cons.inj hu
      have hblank : Text.isBlank c = false := Text.stops_cons.1 (ht ▸ Text.stops_trimStart t)
      have hx := Text.blanks_append_cons hblank t
      -- the attribute and what ends it are two characters at least
      have hlen : 2 ≤ (c :: (u ++ w)).length := by
        have hw' : w ≠ [] := by rintro rfl; exact hw rfl
        have := List.length_pos_iff.2 hw'
        simp
        omega
      have hopen : ∀ x, opensLiquid (c :: (u ++ (w ++ x))) = false := fun x => by
        have h : opensLiquid (c :: (u ++ (w ++ rest))) = false := opensLiquid_eq_false hd hl
        rw [← List.append_assoc, ← List.cons_append, opensLiquid_append hlen] at h ⊢
        exact h
      refine ⟨Text.leadingBlanks t ++ c :: (u ++ w), by simp [(hx (u ++ w)).2], ?_, fun x => ?_⟩
      · have hsplit := Text.leadingBlanks_append_trimStart t
        rw [ht] at hsplit
        simpa using hsplit.symm
      · rw [List.append_assoc, List.cons_append, List.append_assoc,
          readOnto_attribute (hx _).2 (hopen x) hc (by rw [(hx _).1]; exact ha' x)]
        exact hread x
  | case7 => cases h
  | case8 => cases h

end Loop

theorem name_of_readOnto {name : TagName} {found : List Attribute} {t rest : Text} {head : Head}
    (h : readOnto name found t = .ok (head, rest)) : head.name = name := by
  fun_induction readOnto name found t with
  | case2 => cases h; rfl
  | case3 => cases h; rfl
  | case6 _ _ _ _ _ _ _ _ _ _ _ _ _ _ ih => exact ih h
  | case1 => cases h
  | case4 => cases h
  | case5 => cases h
  | case7 => cases h
  | case8 => cases h

/-- A head is read again in front of any other text. -/
theorem read_append {t rest : Text} {head : Head} (hs : Opening.startsName t = true)
    (h : read t = .ok (head, rest)) :
    ∃ u, t = u ++ rest ∧ (∀ x, Opening.startsName (u ++ x) = true) ∧
      ∀ x, read (u ++ x) = .ok (head, x) := by
  unfold read at h
  split at h
  · next name r hn =>
    obtain ⟨w, hw, rfl, hread⟩ := readOnto_append h
    obtain ⟨c, w', rfl⟩ : ∃ c w', w = c :: w' :=
      List.exists_cons_of_ne_nil (by rintro rfl; exact hw rfl)
    obtain ⟨u, rfl, hname, hu⟩ := TagName.read_append hs hn
    refine ⟨u ++ c :: w', by simp, fun x => ?_, fun x => ?_⟩
    · rw [List.append_assoc]; exact hname _
    · have hx := hu (w' ++ x)
      simp only [read, List.append_assoc, List.cons_append, hx]
      exact hread x
  · cases h

/-! ## Void and raw elements -/

section Names

variable {h : Head} {name : Text}

theorem isVoidElement_of_voidName? (hv : h.voidName? = some name) :
    h.name = .fixed name ∧ Keyword.isVoidElement name = true := by
  unfold voidName? at hv
  split at hv
  · next hn =>
    split at hv
    · next hvoid => cases hv; exact ⟨hn, hvoid⟩
    · cases hv
  · cases hv

theorem not_isVoidElement_of_voidName? (hv : h.voidName? = none) (hn : h.name = .fixed name) :
    Keyword.isVoidElement name = false := by
  simpa [voidName?, hn] using hv

theorem isRawElement_of_rawName? (hr : h.rawName? = some name) :
    h.name = .fixed name ∧ Keyword.isRawElement name = true := by
  unfold rawName? at hr
  split at hr
  · next hn =>
    split at hr
    · next hraw => cases hr; exact ⟨hn, by simpa using (Bool.and_eq_true _ _ ▸ hraw).2⟩
    · cases hr
  · cases hr

theorem not_isRawElement_of_rawName? (hr : h.rawName? = none) (hc : h.selfClosing = false)
    (hn : h.name = .fixed name) : Keyword.isRawElement name = false := by
  simpa [rawName?, hn, hc] using hr

end Names

end Head

end LiquidTemplate
