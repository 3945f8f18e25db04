import LiquidTemplate.Proofs.Lexeme.Grammar
import LiquidTemplate.Proofs.Trim.Marker

/-!
# Replacing what a construct encloses

A lexeme holds constructs in several places: it may be a drop or a tag, begin or end with one, have
one for a name, or have them in the values of attributes. `Lexeme.Replaced` relates two lexemes that
differ in what one such construct encloses. If the markup there is the same but for trim markers and
the first lexeme is read somewhere, so is the second one (`Lexeme.Replaced.readBefore`).
-/

namespace LiquidTemplate

/-! ## What follows matters up to a construct only -/

namespace Text

/-- Enough of a text to tell how it begins: two characters, and one that is not blank. -/
structure Decides (u : Text) : Prop where
  long : 2 ≤ u.length
  solid : ∃ c ∈ u, isBlank c = false

namespace Decides

variable {u : Text}

theorem append_left (h : Decides u) (v : Text) : Decides (v ++ u) := by
  obtain ⟨hlong, c, hc, hblank⟩ := h
  exact ⟨by rw [List.length_append]; omega, c, List.mem_append_right _ hc, hblank⟩

theorem ne_nil (h : Decides u) : u ≠ [] := by
  rintro rfl
  exact absurd h.long (by decide)

theorem trimStart_ne_nil (h : Decides u) : trimStart u ≠ [] := by
  intro hnil
  obtain ⟨c, hc, hblank⟩ := h.solid
  have hsplit := leadingBlanks_append_trimStart u
  rw [hnil, List.append_nil] at hsplit
  have hall := allBlank_leadingBlanks u
  rw [hsplit] at hall
  rw [hall c hc] at hblank
  cases hblank

theorem stops_trimStart {p : Char → Bool} {x y : Text} (h : Decides u)
    (hs : Stops p (trimStart (u ++ x))) : Stops p (trimStart (u ++ y)) := by
  rw [(trimStart_append h.trimStart_ne_nil _).1] at hs ⊢
  exact hs.append h.trimStart_ne_nil

theorem opensLiquid_eq {x y : Text} (h : Decides u) :
    opensLiquid (u ++ x) = opensLiquid (u ++ y) := by
  rw [opensLiquid_append h.long, opensLiquid_append h.long]

end Decides

end Text

theorem Delimiter.decides_opening (d : Delimiter) : Text.Decides d.opening := by
  cases d <;> exact ⟨by decide, _, List.mem_cons_self, by decide⟩

section Follow

variable {u x y : Text}

theorem Atom.readBefore_follow {stop : Char → Bool} {a : Atom} (hu : Text.Decides u)
    (h : a.ReadBefore stop (u ++ x)) : a.ReadBefore stop (u ++ y) := by
  cases a with
  | char c =>
    exact ⟨h.1, ((hu.append_left [c]).opensLiquid_eq).trans h.2⟩
  | tag inner => exact h
  | drop inner => exact h

theorem Atom.allReadBefore_follow {stop : Char → Bool} {as : List Atom} (hu : Text.Decides u)
    (h : AllReadBefore stop (u ++ x) as) : AllReadBefore stop (u ++ y) as := by
  induction as with
  | nil =>
    obtain ⟨c, u, rfl⟩ := List.exists_cons_of_ne_nil hu.ne_nil
    intro d rest hd
    obtain ⟨rfl, -⟩ := List.cons.inj hd
    rw [hu.opensLiquid_eq (y := x)]
    exact h c _ rfl
  | cons a as ih =>
    obtain ⟨ha, has⟩ := h
    rw [AllReadBefore, ← List.append_assoc] at *
    exact ⟨readBefore_follow (hu.append_left _) ha, ih has⟩

theorem Value.readBefore_follow {v : Value} (hu : Text.Decides u) (h : v.ReadBefore (u ++ x)) :
    v.ReadBefore (u ++ y) := by
  obtain ⟨as, hpieces, has, hne⟩ := h
  rw [← List.append_assoc] at has
  refine ⟨as, hpieces, ?_, hne⟩
  rw [← List.append_assoc]
  exact Atom.allReadBefore_follow (hu.append_left _) has

theorem TagName.readBefore_follow {name : TagName} (hu : Text.Decides u)
    (h : name.ReadBefore (u ++ x)) : name.ReadBefore (u ++ y) := by
  cases name with
  | fixed name => exact ⟨h.1, h.2.1, h.2.2.append hu.ne_nil⟩
  | dynamic inner => exact h

theorem Attribute.readBefore_follow {a : Attribute} (hu : Text.Decides u)
    (h : a.ReadBefore (u ++ x)) : a.ReadBefore (u ++ y) := by
  obtain ⟨gap, name, assignment⟩ := a
  cases assignment with
  | none => exact ⟨h.1, h.2.1.append hu.ne_nil, hu.stops_trimStart h.2.2⟩
  | some s => exact ⟨h.1, h.2.1, h.2.2.1, Value.readBefore_follow hu h.2.2.2⟩

end Follow

/-! ## Replacing -/

/-- A drop in the value of an attribute, behind the text in front of it. -/
inductive Attribute.Replaced (inner inner' : Text) : Text → Attribute → Attribute → Prop
  | value (gap name before after : Text) (quote : Option Quote) (ps qs : List Piece) :
    Replaced inner inner'
      (gap ++ name ++ before ++ ['='] ++ after ++ Quote.chars quote ++ ps.flatMap Piece.chars)
      ⟨gap, name, some ⟨before, after, quote, ps ++ .drop inner :: qs⟩⟩
      ⟨gap, name, some ⟨before, after, quote, ps ++ .drop inner' :: qs⟩⟩

/-- A dynamic name, or a drop in an attribute. -/
inductive Head.Replaced (inner inner' : Text) : Text → Head → Head → Prop
  | name (as : List Attribute) (gap : Text) (sc : Bool) :
    Replaced inner inner' ['<'] ⟨.dynamic inner, as, gap, sc⟩ ⟨.dynamic inner', as, gap, sc⟩
  | value (name : TagName) (as bs : List Attribute) (gap : Text) (sc : Bool)
      {front : Text} {a a' : Attribute} : a.Replaced inner inner' front a' →
    Replaced inner inner' (['<'] ++ name.chars ++ as.flatMap Attribute.chars ++ front)
      ⟨name, as ++ a :: bs, gap, sc⟩ ⟨name, as ++ a' :: bs, gap, sc⟩

/-- Two lexemes that differ in what one construct encloses, behind the text in front of it. -/
inductive Lexeme.Replaced (inner inner' : Text) : Delimiter → Text → Lexeme → Lexeme → Prop
  | drop : Replaced inner inner' .drop [] (.drop inner) (.drop inner')
  | tag : Replaced inner inner' .tag [] (.tag inner) (.tag inner')
  | opening (body closing : Text) :
    Replaced inner inner' .tag [] (.rawTag inner body closing) (.rawTag inner' body closing)
  | closing (opening body : Text) :
    Replaced inner inner' .tag (Delimiter.tag.enclose opening ++ body)
      (.rawTag opening body inner) (.rawTag opening body inner')
  | startTag {front : Text} {h h' : Head} : h.Replaced inner inner' front h' →
    Replaced inner inner' .drop front (.startTag h) (.startTag h')
  | rawElement (body closeName closeRest : Text) {front : Text} {h h' : Head} :
      h.Replaced inner inner' front h' →
    Replaced inner inner' .drop front (.rawElement h body closeName closeRest)
      (.rawElement h' body closeName closeRest)
  | endTag (gap : Text) :
    Replaced inner inner' .drop ['<', '/'] (.endTag (.dynamic inner) gap)
      (.endTag (.dynamic inner') gap)

/-- Where a drop in a value stands, counted from the start of the pieces. -/
theorem Attribute.start_drop (start : Nat) (gap name before after : Text) (quote : Option Quote)
    (ps : List Piece) :
    start + Text.size (gap ++ name ++ before ++ ['='] ++ after ++ Quote.chars quote ++
        ps.flatMap Piece.chars) =
      start + Text.size gap + Text.size name + Text.size before + 1 + Text.size after +
        Text.size (Quote.chars quote) + Text.size (ps.flatMap Piece.chars) := by
  simp only [Text.size_append, Nat.add_assoc]
  rfl

/-- Where something in an attribute stands, counted from the start of the attributes. -/
theorem Head.start_attribute (start : Nat) (name : TagName) (as : List Attribute) (front : Text) :
    start + Text.size (['<'] ++ name.chars ++ as.flatMap Attribute.chars ++ front) =
      start + 1 + Text.size name.chars + Text.size (as.flatMap Attribute.chars) +
        Text.size front := by
  simp only [Text.size_append, Nat.add_assoc]
  rfl

section Chars

variable {inner inner' front : Text}

theorem Attribute.Replaced.chars {a a' : Attribute} (h : a.Replaced inner inner' front a') :
    ∃ back, a.chars = front ++ Delimiter.drop.enclose inner ++ back ∧
      a'.chars = front ++ Delimiter.drop.enclose inner' ++ back := by
  cases h with
  | value gap name before after quote ps qs =>
    refine ⟨qs.flatMap Piece.chars ++ Quote.chars quote, ?_, ?_⟩ <;>
      simp [Attribute.chars, body, assigned, Assignment.chars, Value.chars, Value.content,
        Piece.chars]

theorem Head.Replaced.chars {h h' : Head} (hh : h.Replaced inner inner' front h') :
    ∃ back, h.chars = front ++ Delimiter.drop.enclose inner ++ back ∧
      h'.chars = front ++ Delimiter.drop.enclose inner' ++ back := by
  cases hh with
  | name as gap sc =>
    refine ⟨as.flatMap Attribute.chars ++ gap ++ closing ⟨.fixed [], [], [], sc⟩, ?_, ?_⟩ <;>
      simp [Head.chars, tail, TagName.chars, closing]
  | value name as bs gap sc ha =>
    obtain ⟨back, ha, ha'⟩ := ha.chars
    refine ⟨back ++ bs.flatMap Attribute.chars ++ gap ++ closing ⟨.fixed [], [], [], sc⟩, ?_, ?_⟩
    · simp [Head.chars, tail, closing, ha]
    · simp [Head.chars, tail, closing, ha']

/-- Both lexemes have the same text around the construct. -/
theorem Lexeme.Replaced.chars {d : Delimiter} {l l' : Lexeme}
    (h : l.Replaced inner inner' d front l') :
    ∃ back, l.chars = front ++ d.enclose inner ++ back ∧
      l'.chars = front ++ d.enclose inner' ++ back := by
  cases h with
  | drop => exact ⟨[], by simp [Lexeme.chars], by simp [Lexeme.chars]⟩
  | tag => exact ⟨[], by simp [Lexeme.chars], by simp [Lexeme.chars]⟩
  | opening body closing =>
    exact ⟨body ++ Delimiter.tag.enclose closing, by simp [Lexeme.chars], by simp [Lexeme.chars]⟩
  | closing opening body => exact ⟨[], by simp [Lexeme.chars], by simp [Lexeme.chars]⟩
  | startTag hh => exact hh.chars
  | rawElement body closeName closeRest hh =>
    obtain ⟨back, hh, hh'⟩ := hh.chars
    refine ⟨back ++ body ++ ['<', '/'] ++ closeName ++ closeRest ++ ['>'], ?_, ?_⟩
    · simp [Lexeme.chars, hh]
    · simp [Lexeme.chars, hh']
  | endTag gap => exact ⟨gap ++ ['>'], by simp [Lexeme.chars, TagName.chars],
      by simp [Lexeme.chars, TagName.chars]⟩

end Chars

/-! ## Reading what is replaced -/

/-- Text in front of pieces leaves a drop among them as it is. -/
theorem Piece.exists_of_join_eq {inner v : Text} {ps qs rs : List Piece}
    (h : join v rs = ps ++ drop inner :: qs) :
    ∃ rs', rs = rs' ++ drop inner :: qs ∧
      ∀ i, join v (rs' ++ drop i :: qs) = ps ++ drop i :: qs := by
  match rs with
  | text w :: rs =>
    cases ps with
    | nil => cases h
    | cons p ps =>
      obtain ⟨rfl, rfl⟩ := List.cons.inj h
      exact ⟨text w :: ps, rfl, fun i => rfl⟩
  | [] =>
    have hmem : drop inner ∈ join v [] := by simp [h]
    simp only [join] at hmem
    split at hmem
    · cases hmem
    · cases List.mem_singleton.1 hmem
  | drop j :: rs =>
    rw [join_drop] at h
    by_cases hv : v = []
    · subst hv
      exact ⟨ps, h, fun i => join_nil _⟩
    · have hjoin : join v [] = [text v] := if_neg hv
      rw [hjoin] at h
      cases ps with
      | nil => cases h
      | cons p ps =>
        obtain ⟨rfl, htail⟩ := List.cons.inj h
        refine ⟨ps, htail, fun i => ?_⟩
        cases ps with
        | nil => rw [List.nil_append, join_drop, hjoin]
        | cons p ps =>
          obtain ⟨rfl, -⟩ := List.cons.inj (htail : drop j :: rs = p :: (ps ++ _))
          rw [List.cons_append, join_drop, hjoin]
          rfl

section ReadBefore

variable {inner inner' front rest : Text}

namespace Atom

/-- Atoms that make up pieces around a drop are atoms around it. -/
theorem exists_of_pieces_eq {as : List Atom} {ps qs : List Piece}
    (h : pieces as = ps ++ .drop inner :: qs) :
    ∃ bs cs, as = bs ++ .drop inner :: cs ∧
      ∀ i, pieces (bs ++ .drop i :: cs) = ps ++ .drop i :: qs := by
  induction as generalizing ps with
  | nil => exact absurd h.symm (by simp [pieces])
  | cons a as ih =>
    have hjoin (ha : ∀ cs, pieces (a :: cs) = Piece.join a.chars (pieces cs)) :
        ∃ bs cs, a :: as = bs ++ .drop inner :: cs ∧
          ∀ i, pieces (bs ++ .drop i :: cs) = ps ++ .drop i :: qs := by
      rw [ha] at h
      obtain ⟨rs, hrs, hall⟩ := Piece.exists_of_join_eq h
      obtain ⟨bs, cs, rfl, hpieces⟩ := ih hrs
      exact ⟨a :: bs, cs, rfl, fun i => by rw [List.cons_append, ha, hpieces, hall]⟩
    cases a with
    | drop j =>
      cases ps with
      | nil =>
        obtain ⟨hj, rfl⟩ := List.cons.inj h
        cases hj
        exact ⟨[], as, rfl, fun i => rfl⟩
      | cons p ps =>
        obtain ⟨rfl, htail⟩ := List.cons.inj h
        obtain ⟨bs, cs, rfl, hpieces⟩ := ih htail
        exact ⟨.drop j :: bs, cs, rfl, fun i => congrArg (_ :: ·) (hpieces i)⟩
    | char c => exact hjoin fun cs => rfl
    | tag i => exact hjoin fun cs => rfl

theorem allReadBefore_replaced {stop : Char → Bool} {as bs : List Atom}
    (hs : Delimiter.drop.SameMarkup inner inner')
    (h : AllReadBefore stop rest (as ++ .drop inner :: bs)) :
    AllReadBefore stop rest (as ++ .drop inner' :: bs) := by
  induction as with
  | nil => exact ⟨hs.closes h.1, h.2⟩
  | cons a as ih =>
    have hfollow (i : Text) : (as ++ .drop i :: bs).flatMap chars ++ rest =
        (as.flatMap chars ++ Delimiter.drop.opening) ++
          (i ++ Delimiter.drop.closing ++ bs.flatMap chars ++ rest) := by
      simp [chars, Delimiter.enclose]
    have ha : a.ReadBefore stop ((as ++ .drop inner :: bs).flatMap chars ++ rest) := h.1
    rw [hfollow] at ha
    have ha' : a.ReadBefore stop ((as ++ .drop inner' :: bs).flatMap chars ++ rest) := by
      rw [hfollow]
      exact readBefore_follow (Delimiter.drop.decides_opening.append_left _) ha
    exact ⟨ha', ih h.2⟩

end Atom

namespace Attribute

theorem Replaced.readBefore {a a' : Attribute} (hr : a.Replaced inner inner' front a')
    (hs : Delimiter.drop.SameMarkup inner inner') (h : a.ReadBefore rest) : a'.ReadBefore rest := by
  cases hr with
  | value gap name before after quote ps qs =>
    obtain ⟨hname, hbefore, hafter, atoms, hpieces, hatoms, -⟩ := h
    obtain ⟨as, bs, rfl, hall⟩ := Atom.exists_of_pieces_eq hpieces.symm
    exact ⟨hname, hbefore, hafter, as ++ .drop inner' :: bs, (hall inner').symm,
      Atom.allReadBefore_replaced hs hatoms, by simp⟩

/-- What attributes begin with is the same up to the construct that is replaced. -/
theorem Replaced.follow {a a' : Attribute} (hr : a.Replaced inner inner' front a')
    (as bs : List Attribute) (rest : Text) :
    ∃ u x y, Text.Decides u ∧ (as ++ a :: bs).flatMap Attribute.chars ++ rest = u ++ x ∧
      (as ++ a' :: bs).flatMap Attribute.chars ++ rest = u ++ y := by
  obtain ⟨back, ha, ha'⟩ := hr.chars
  refine ⟨as.flatMap Attribute.chars ++ front ++ Delimiter.drop.opening,
    inner ++ Delimiter.drop.closing ++ back ++ bs.flatMap Attribute.chars ++ rest,
    inner' ++ Delimiter.drop.closing ++ back ++ bs.flatMap Attribute.chars ++ rest,
    Delimiter.drop.decides_opening.append_left _, ?_, ?_⟩
  · simp [ha, Delimiter.enclose]
  · simp [ha', Delimiter.enclose]

theorem allReadBefore_replaced {a a' : Attribute} {as bs : List Attribute}
    (hr : a.Replaced inner inner' front a') (hs : Delimiter.drop.SameMarkup inner inner')
    (h : AllReadBefore rest (as ++ a :: bs)) : AllReadBefore rest (as ++ a' :: bs) := by
  induction as with
  | nil =>
    obtain ⟨hgap, hname, hopens, ha, hbs⟩ := h
    have ha' := hr.readBefore hs ha
    cases hr with
    | value gap name before after quote ps qs =>
      refine ⟨hgap, hname, ?_, ha', hbs⟩
      have hbody (i : Text) : (⟨gap, name, some ⟨before, after, quote, ps ++ .drop i :: qs⟩⟩ :
          Attribute).body = (name ++ before ++ ['='] ++ after ++ Quote.chars quote ++
            ps.flatMap Piece.chars ++ Delimiter.drop.opening) ++
              (i ++ Delimiter.drop.closing ++ qs.flatMap Piece.chars ++ Quote.chars quote) := by
        simp [body, assigned, Assignment.chars, Value.chars, Value.content, Piece.chars,
          Delimiter.enclose]
      rw [hbody, List.append_assoc] at hopens ⊢
      rwa [(Delimiter.drop.decides_opening.append_left _).opensLiquid_eq]
  | cons b as ih =>
    rw [List.cons_append, AllReadBefore] at h ⊢
    obtain ⟨hgap, hname, hopens, hb, has⟩ := h
    obtain ⟨u, x, y, hu, hx, hy⟩ := hr.follow as bs rest
    refine ⟨hgap, hname, ?_, ?_, ih has⟩
    · rw [hx, ← List.append_assoc] at hopens
      rw [hy, ← List.append_assoc, ← (hu.append_left _).opensLiquid_eq (x := x)]
      exact hopens
    · rw [hx] at hb
      rw [hy]
      exact readBefore_follow hu hb

end Attribute

namespace Head

theorem Replaced.readBefore {h h' : Head} (hr : h.Replaced inner inner' front h')
    (hs : Delimiter.drop.SameMarkup inner inner') (hh : h.ReadBefore rest) :
    h'.ReadBefore rest := by
  obtain ⟨hname, has, hgap⟩ := hh
  cases hr with
  | name as gap sc => exact ⟨hs.closes hname, has, hgap⟩
  | value name as bs gap sc ha =>
    refine ⟨?_, Attribute.allReadBefore_replaced ha hs has, hgap⟩
    obtain ⟨u, x, y, hu, hx, hy⟩ :=
      ha.follow as bs (gap ++ (closing ⟨name, as, gap, sc⟩ ++ rest))
    have hname : name.ReadBefore (u ++ x) := hx ▸ hname
    exact hy ▸ TagName.readBefore_follow hu hname

theorem Replaced.rawName?_eq {h h' : Head} (hr : h.Replaced inner inner' front h') :
    h'.rawName? = h.rawName? := by
  cases hr <;> rfl

end Head

namespace Raw

theorem readTagOnto?_replaced {name body t body' : Text}
    (hs : Delimiter.tag.SameMarkup inner inner')
    (h : readTagOnto? name body t = some (body', inner, rest)) :
    ∃ u, t = u ++ (Delimiter.tag.enclose inner ++ rest) ∧
      readTagOnto? name body (u ++ (Delimiter.tag.enclose inner' ++ rest)) =
        some (body', inner', rest) := by
  fun_induction readTagOnto? name body t with
  | case1 => cases h
  | case2 => cases h
  | case3 body t before rest₁ h₁ found rest₂ h₂ hn =>
    simp only [Option.some.injEq, Prod.mk.injEq] at h
    obtain ⟨rfl, rfl, rfl⟩ := h
    refine ⟨before, ?_, ?_⟩
    · simp [Text.append_of_splitFirst? h₁, Delimiter.append_of_finish? h₂, Delimiter.enclose]
    · have h₁ := Text.splitFirst?_append h₁ (inner' ++ Delimiter.tag.closing ++ rest₂)
      have h₂ := Delimiter.finish?_append (hs.closes (Delimiter.closes_of_finish? h₂)) rest₂
      simp only [Delimiter.enclose, List.append_assoc] at h₁ h₂ ⊢
      refine readTagOnto?_found h₁ h₂ ?_
      rw [← hn, Tag.ofInner_eq_of_text hs.text]
  | case4 body t before rest₁ h₁ skipped rest₂ h₂ hn ih =>
    obtain ⟨u, rfl, hu⟩ := ih h
    refine ⟨before ++ Delimiter.tag.enclose skipped ++ u, ?_, ?_⟩
    · simp [Text.append_of_splitFirst? h₁, Delimiter.append_of_finish? h₂, Delimiter.enclose]
    · have h₁ := Text.splitFirst?_append h₁
        (skipped ++ Delimiter.tag.closing ++ (u ++ (Delimiter.tag.enclose inner' ++ rest)))
      have h₂ := Delimiter.finish?_append h₂ (u ++ (Delimiter.tag.enclose inner' ++ rest))
      rw [← hu]
      simp only [Delimiter.enclose, List.append_assoc] at h₁ h₂ ⊢
      rw [readTagOnto?_skip h₁ h₂ hn]
      simp [Delimiter.enclose]

/-- The end tag that a raw tag finds is found where it differs in its trim markers. -/
theorem readTag?_replaced {name body : Text} (hs : Delimiter.tag.SameMarkup inner inner')
    (h : readTag? name (body ++ (Delimiter.tag.enclose inner ++ rest)) = some (body, inner, rest)) :
    readTag? name (body ++ (Delimiter.tag.enclose inner' ++ rest)) = some (body, inner', rest) := by
  obtain ⟨u, hu, hread⟩ := readTagOnto?_replaced hs h
  rwa [← List.append_cancel_right hu] at hread

end Raw

theorem Lexeme.Replaced.readBefore {d : Delimiter} {l l' : Lexeme}
    (hr : l.Replaced inner inner' d front l') (hs : d.SameMarkup inner inner')
    (h : l.ReadBefore rest) : l'.ReadBefore rest := by
  have hname : (Tag.ofInner inner').name = (Tag.ofInner inner).name := by
    rw [Tag.ofInner_eq_of_text hs.text]
  cases hr with
  | drop => exact hs.closes h
  | tag => exact ⟨hs.closes h.1, hname ▸ h.2⟩
  | opening body closing => exact ⟨hs.closes h.1, hname ▸ h.2.1, hname ▸ h.2.2⟩
  | closing opening body => exact ⟨h.1, h.2.1, Raw.readTag?_replaced hs h.2.2⟩
  | startTag hh => exact ⟨hh.readBefore hs h.1, hh.rawName?_eq.trans h.2⟩
  | rawElement body closeName closeRest hh =>
    obtain ⟨hhead, name, hraw, he⟩ := h
    exact ⟨hh.readBefore hs hhead, name, hh.rawName?_eq.trans hraw, he⟩
  | endTag gap => exact ⟨hs.closes h.1, h.2⟩

end ReadBefore

end LiquidTemplate
