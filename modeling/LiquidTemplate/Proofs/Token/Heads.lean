import LiquidTemplate.Proofs.Token.Values

/-!
# Heads in a template

The grammar of a tag head, said by offsets into the template alone: `<`, a name, attributes with
blanks in front, and `>` or `/>`, where names are maximal runs. A head is read where one stands by
this grammar and nowhere else, and the spans of its parts are those the grammar gives
(`Cursor.head_read_iff_derived`).
-/

namespace LiquidTemplate

open Cursor (Stands)
open Reader (slice?_eq stands_of_slice? stands_skip stands_unique)

namespace Span

/-- The span is a run of characters that pass, and the text behind it does not go on with one. -/
def IsRun (source : Text) (p : Char → Bool) (s : Span) : Prop :=
  ∃ run rest, Stands source ⟨s.start, run ++ rest⟩ ∧ s.stop = s.start + Text.size run ∧
    run ≠ [] ∧ (∀ c ∈ run, p c = true) ∧ Text.Stops p rest

/-- The span covers blanks, or nothing. -/
def IsBlank (source : Text) (s : Span) : Prop :=
  ∃ blanks, Text.slice? source s = some blanks ∧ Text.AllBlank blanks

/-- The span is an equals sign with any blanks in front. -/
def IsEquals (source : Text) (s : Span) : Prop :=
  ∃ blanks, Text.slice? source s = some (blanks ++ ['=']) ∧ Text.AllBlank blanks

theorem isRun_iff {source : Text} {p : Char → Bool} {i j : Nat} :
    IsRun source p ⟨i, j⟩ ↔ ∃ run rest, Stands source ⟨i, run ++ rest⟩ ∧
      j = i + Text.size run ∧ run ≠ [] ∧ (∀ c ∈ run, p c = true) ∧ Text.Stops p rest :=
  Iff.rfl

end Span

/-! ## Names -/

/-- The name of a tag stands here: a drop, or a maximal run. -/
def NameParts.DerivedIn (source : Text) (n : NameParts) : Prop :=
  if n.isDynamic then n.whole.IsDrop source else n.whole.IsRun source TagName.isNameChar

/-- A brace is no character of a name, so a name that is no drop begins with a letter. -/
theorem TagName.isAlpha_of_startsName {c : Char} {t : Text}
    (hs : Opening.startsName (c :: t) = true) (hc : isNameChar c = true) : c.isAlpha = true := by
  rcases Opening.startsName_iff.1 hs with ⟨r, hr⟩ | ⟨d, r, hr, hd⟩
  · obtain ⟨rfl, -⟩ := List.cons.inj hr
    cases hc
  · obtain ⟨rfl, -⟩ := List.cons.inj hr
    exact hd

/-- Where a name can begin, the names that stand there are those that are read. -/
theorem NameParts.derivedIn_iff {source t : Text} {n : NameParts}
    (hstands : Stands source ⟨n.whole.start, t⟩) (hs : Opening.startsName t = true) :
    n.DerivedIn source ↔ ∃ name rest, t = name.chars ++ rest ∧ name.ReadBefore rest ∧
      ofName n.whole.start name = n := by
  obtain ⟨dynamic, start, stop⟩ := n
  dsimp only at hstands
  constructor
  · intro h
    cases dynamic with
    | true =>
      obtain ⟨inner, rest, hdrop, rfl, hcloses⟩ := Span.isDrop_iff.1 h
      exact ⟨.dynamic inner, rest, stands_unique hstands hdrop, hcloses, rfl⟩
    | false =>
      obtain ⟨run, rest, hrun, rfl, hne, hall, hstop⟩ := Span.isRun_iff.1 h
      obtain rfl := stands_unique hstands hrun
      obtain ⟨c, run, rfl⟩ := List.exists_cons_of_ne_nil hne
      have hc := TagName.isAlpha_of_startsName hs (hall c List.mem_cons_self)
      exact ⟨.fixed (c :: run), rest, rfl, ⟨⟨c, run, rfl, hc⟩, hall, hstop⟩, rfl⟩
  · rintro ⟨name, rest, rfl, hread, hn⟩
    simp only [ofName, mk.injEq, Span.ofText, Span.mk.injEq, true_and] at hn
    obtain ⟨rfl, rfl⟩ := hn
    cases name with
    | fixed name =>
      obtain ⟨⟨c, run, rfl, -⟩, hall, hstop⟩ := hread
      exact ⟨c :: run, rest, hstands, rfl, List.cons_ne_nil c run, hall, hstop⟩
    | dynamic inner => exact Span.isDrop_iff.2 ⟨inner, rest, hstands, rfl, hread⟩

/-! ## Attributes -/

/-- An attribute stands here: a maximal run, with a value if an equals sign follows. -/
structure AttributeParts.DerivedIn (source : Text) (a : AttributeParts) : Prop where
  start_eq : a.whole.start = a.name.start
  name : a.name.IsRun source Attribute.isNameChar
  no_liquid : ∀ t, Stands source ⟨a.name.start, t⟩ → opensLiquid t = false
  value : match a.value with
    | none => a.whole.stop = a.name.stop ∧ ∀ k, ¬ Span.IsEquals source ⟨a.name.stop, k⟩
    | some v => ∃ k, Span.IsEquals source ⟨a.name.stop, k⟩ ∧
      Span.IsBlank source ⟨k, v.whole.start⟩ ∧ v.DerivedIn source ∧ a.whole.stop = v.whole.stop

/-- From the first offset to the second the attributes follow each other, with blanks in front. -/
def AttributeParts.Run (source : Text) : Nat → List AttributeParts → Nat → Prop
  | i, [], j => i = j
  | i, a :: as, j => Span.IsBlank source ⟨i, a.whole.start⟩ ∧ a.DerivedIn source ∧
    Run source a.whole.stop as j

section

variable {source rest : Text} {i j : Nat}

theorem Span.isBlank_iff :
    Span.IsBlank source ⟨i, j⟩ ↔ ∃ blanks rest, Stands source ⟨i, blanks ++ rest⟩ ∧
      j = i + Text.size blanks ∧ Text.AllBlank blanks := by
  constructor
  · rintro ⟨blanks, hslice, hblank⟩
    obtain ⟨rest, hstands, hstop⟩ := stands_of_slice? hslice
    exact ⟨blanks, rest, hstands, hstop, hblank⟩
  · rintro ⟨blanks, rest, hstands, hstop, hblank⟩
    exact ⟨blanks, slice?_eq hstands hstop, hblank⟩

/-- An equals sign follows when one is next behind the blanks. -/
theorem Span.isEquals_iff (h : Stands source ⟨i, rest⟩) :
    Span.IsEquals source ⟨i, j⟩ ↔ ∃ more, Text.trimStart rest = '=' :: more ∧
      j = i + Text.size (Text.leadingBlanks rest) + 1 := by
  constructor
  · rintro ⟨blanks, hslice, hblank⟩
    obtain ⟨more, hstands, hstop⟩ := stands_of_slice? hslice
    obtain rfl := stands_unique h hstands
    rw [List.append_assoc, List.singleton_append]
    obtain ⟨hlead, htrim⟩ := Text.blanks_append_of_stops hblank
      (Text.stops_cons.2 rfl : Text.Stops Text.isBlank ('=' :: more))
    exact ⟨more, htrim, by rw [hlead, hstop, Text.size_append, ← Nat.add_assoc]; rfl⟩
  · rintro ⟨more, hmore, hstop⟩
    have hsplit := Text.leadingBlanks_append_trimStart rest
    rw [hmore, List.append_cons] at hsplit
    rw [← hsplit] at h
    refine ⟨Text.leadingBlanks rest, slice?_eq h ?_, Text.allBlank_leadingBlanks rest⟩
    rw [hstop, Text.size_append, ← Nat.add_assoc]
    rfl

theorem Attribute.stops_assigned {a : Attribute} (h : a.ReadBefore rest) :
    Text.Stops isNameChar (a.assigned ++ rest) := by
  obtain ⟨gap, name, assignment⟩ := a
  obtain ⟨-, h⟩ := h
  cases assignment with
  | none => exact h.1
  | some s =>
    obtain ⟨before, after, v⟩ := s
    cases before with
    | nil => exact Text.stops_cons.2 rfl
    | cons b before =>
      exact Text.stops_cons.2 (not_isNameChar_of_isBlank (h.1 b List.mem_cons_self))

namespace AttributeParts

theorem ofAttribute_plain (start : Nat) (gap name : Text) :
    ofAttribute ⟨start, ⟨gap, name, none⟩⟩ = ⟨.ofText start name, .ofText start name, none⟩ := by
  simp [ofAttribute, Attribute.body, Attribute.assigned, Attribute.valueAt?]

theorem ofAttribute_assigned (start : Nat) (gap name before after : Text) (v : Value) :
    let value := ValueParts.ofValue
      ⟨start + Text.size name + Text.size (before ++ ['=']) + Text.size after, v⟩
    ofAttribute ⟨start, ⟨gap, name, some ⟨before, after, v⟩⟩⟩ =
      ⟨⟨start, value.whole.stop⟩, .ofText start name, some value⟩ := by
  have hequals : '='.utf8Size = 1 := rfl
  simp [ofAttribute, Attribute.body, Attribute.assigned, Assignment.chars, Attribute.valueAt?,
    Span.ofText, ValueParts.ofValue, hequals, Nat.add_assoc]

theorem stop_ofAttribute (attr : Attribute) :
    (ofAttribute ⟨i + Text.size attr.gap, attr⟩).whole.stop = i + Text.size attr.chars := by
  rw [Attribute.chars, Text.size_append, ← Nat.add_assoc]
  rfl

/-- An attribute that stands in a template can be read there, behind any blanks. -/
theorem DerivedIn.exists_attribute {a : AttributeParts} (h : a.DerivedIn source) (gap : Text) :
    ∃ attr rest, attr.gap = gap ∧ Stands source ⟨a.whole.start, attr.body ++ rest⟩ ∧
      attr.name ≠ [] ∧ opensLiquid (attr.body ++ rest) = false ∧ attr.ReadBefore rest ∧
        ofAttribute ⟨a.whole.start, attr⟩ = a := by
  obtain ⟨⟨start, stop⟩, ⟨nameStart, nameStop⟩, value⟩ := a
  obtain ⟨hstart, ⟨name, rest, hname, hstop, hne, hall, hstops⟩, hliquid, hvalue⟩ := h
  dsimp only at hstart hname hstop hliquid hvalue ⊢
  subst hstart hstop
  have hrest := stands_skip hname
  cases value with
  | none =>
    obtain ⟨rfl, hequals⟩ := hvalue
    refine ⟨⟨gap, name, none⟩, rest, rfl, ?_, hne, ?_, ⟨hall, hstops, fun c hc => ?_⟩,
      ofAttribute_plain _ _ _⟩
    · simpa [Attribute.body, Attribute.assigned] using hname
    · simpa [Attribute.body, Attribute.assigned] using hliquid _ hname
    · obtain ⟨more, hmore⟩ := List.head?_eq_some_iff.1 hc
      simp only [beq_eq_false_iff_ne]
      rintro rfl
      exact hequals _ ((Span.isEquals_iff hrest).2 ⟨more, hmore, rfl⟩)
  | some v =>
    obtain ⟨k, ⟨before, hequals, hbefore⟩, hblank, hv, rfl⟩ := hvalue
    obtain ⟨more, hmore, rfl⟩ := stands_of_slice? hequals
    obtain rfl := stands_unique hrest hmore
    obtain ⟨after, more', hmore', hvstart, hafter⟩ := Span.isBlank_iff.1 hblank
    obtain rfl := stands_unique (stands_skip hmore) hmore'
    obtain ⟨val, rest', hval, hread, hofv⟩ := ValueParts.derivedIn_iff.1 hv
    rw [hvstart] at hval hofv
    obtain rfl := stands_unique (stands_skip hmore') hval
    refine ⟨⟨gap, name, some ⟨before, after, val⟩⟩, rest', rfl, ?_, hne, ?_,
      ⟨hall, hbefore, hafter, hread⟩, ?_⟩
    · simpa [Attribute.body, Attribute.assigned, Assignment.chars] using hname
    · simpa [Attribute.body, Attribute.assigned, Assignment.chars] using hliquid _ hname
    · rw [ofAttribute_assigned, hofv]
      rfl

/-- An attribute that can be read stands by the grammar. -/
theorem derivedIn_ofAttribute {attr : Attribute} (hstands : Stands source ⟨i, attr.body ++ rest⟩)
    (hne : attr.name ≠ []) (hliquid : opensLiquid (attr.body ++ rest) = false)
    (hread : attr.ReadBefore rest) : (ofAttribute ⟨i, attr⟩).DerivedIn source := by
  obtain ⟨gap, name, assignment⟩ := attr
  have hstops := Attribute.stops_assigned hread
  rw [Attribute.body, List.append_assoc] at hstands hliquid
  have hrest := stands_skip hstands
  have hrun : Span.IsRun source Attribute.isNameChar (.ofText i name) :=
    ⟨name, _, hstands, rfl, hne, hread.1, hstops⟩
  have hplain : ∀ t, Stands source ⟨i, t⟩ → opensLiquid t = false := fun t ht =>
    stands_unique hstands ht ▸ hliquid
  cases assignment with
  | none =>
    rw [ofAttribute_plain]
    refine ⟨rfl, hrun, hplain, rfl, fun k hk => ?_⟩
    obtain ⟨more, hmore, -⟩ := (Span.isEquals_iff hrest).1 hk
    exact absurd (hread.2.2 '=' (by simpa [Attribute.assigned] using congrArg List.head? hmore))
      (by decide)
  | some s =>
    obtain ⟨before, after, v⟩ := s
    obtain ⟨-, hbefore, hafter, hv⟩ := hread
    have hassigned : Attribute.assigned ⟨gap, name, some ⟨before, after, v⟩⟩ ++ rest =
        before ++ ['='] ++ (after ++ (v.chars ++ rest)) := by
      simp [Attribute.assigned, Assignment.chars]
    rw [hassigned] at hrest
    have hequals := stands_skip hrest
    have hblank := stands_skip hequals
    rw [ofAttribute_assigned]
    exact ⟨rfl, hrun, hplain, _, ⟨before, slice?_eq hrest rfl, hbefore⟩,
      Span.isBlank_iff.2 ⟨after, _, hequals, rfl, hafter⟩,
      ValueParts.derivedIn_iff.2 ⟨v, rest, hblank, hv, rfl⟩, rfl⟩

/-- The attributes in front of a text can be read in front of it. -/
theorem Run.exists_attributes {as : List AttributeParts} (h : Run source i as j)
    (hrest : Stands source ⟨j, rest⟩) :
    ∃ attrs, Stands source ⟨i, attrs.flatMap Attribute.chars ++ rest⟩ ∧
      j = i + Text.size (attrs.flatMap Attribute.chars) ∧ Attribute.AllReadBefore rest attrs ∧
        Reader.attributeParts i attrs = as := by
  induction as generalizing i with
  | nil =>
    obtain rfl : i = j := h
    exact ⟨[], hrest, rfl, trivial, rfl⟩
  | cons a as ih =>
    obtain ⟨hblank, ha, hrun⟩ := h
    obtain ⟨gap, more, hgap, hstart, hallBlank⟩ := Span.isBlank_iff.1 hblank
    obtain ⟨attr, more', rfl, hattr, hne, hliquid, hread, hofa⟩ := ha.exists_attribute gap
    rw [hstart] at hattr hofa
    obtain rfl := stands_unique (stands_skip hgap) hattr
    obtain ⟨attrs, hattrs, rfl, hall, rfl⟩ := ih hrun
    have hstop : a.whole.stop = i + Text.size attr.chars := hofa ▸ stop_ofAttribute attr
    rw [hstop] at hattrs
    have hchars : attr.gap ++ (attr.body ++ more') = attr.chars ++ more' := by
      rw [Attribute.chars, List.append_assoc]
    rw [hchars] at hgap
    obtain rfl := stands_unique (stands_skip hgap) hattrs
    refine ⟨attr :: attrs, ?_, ?_, ⟨hallBlank, hne, hliquid, hread, hall⟩, ?_⟩
    · rwa [List.flatMap_cons, List.append_assoc]
    · rw [hstop, List.flatMap_cons, Text.size_append, Nat.add_assoc]
    · rw [Reader.attributeParts_cons, ← hstop, hofa]

/-- Attributes that can be read one behind the other stand so by the grammar. -/
theorem run_attributeParts {attrs : List Attribute}
    (hstands : Stands source ⟨i, attrs.flatMap Attribute.chars ++ rest⟩)
    (hall : Attribute.AllReadBefore rest attrs) :
    Run source i (Reader.attributeParts i attrs)
      (i + Text.size (attrs.flatMap Attribute.chars)) := by
  induction attrs generalizing i with
  | nil => rfl
  | cons attr attrs ih =>
    obtain ⟨hblank, hne, hliquid, hread, hall⟩ := hall
    rw [List.flatMap_cons, Attribute.chars, List.append_assoc, List.append_assoc] at hstands
    have hattr := stands_skip hstands
    have hattrs := stands_skip hattr
    rw [Nat.add_assoc, ← Text.size_append, ← Attribute.chars] at hattrs
    rw [Reader.attributeParts_cons, List.flatMap_cons, Text.size_append, ← Nat.add_assoc]
    refine ⟨Span.isBlank_iff.2 ⟨attr.gap, _, hstands, rfl, hblank⟩,
      derivedIn_ofAttribute hattr hne hliquid hread, ?_⟩
    rw [stop_ofAttribute]
    exact ih hattrs hall

end AttributeParts

end

/-! ## Heads -/

/-- The head of a start tag stands here: `<`, a name, attributes, blanks, and `>` or `/>`. -/
structure HeadParts.DerivedIn (source : Text) (h : HeadParts) : Prop where
  opening : Text.slice? source ⟨h.whole.start, h.name.whole.start⟩ = some ['<']
  name : h.name.DerivedIn source
  attributes : ∃ i j, AttributeParts.Run source h.name.whole.stop h.attributes i ∧
    Span.IsBlank source ⟨i, j⟩ ∧
      Text.slice? source ⟨j, h.whole.stop⟩ = some (if h.selfClosing then ['/', '>'] else ['>'])

/-- The text is the head of a start tag by itself. -/
def Text.IsHead (w : Text) : Prop :=
  ∃ parts : HeadParts, parts.whole = .ofText 0 w ∧ parts.DerivedIn w

/-- The heads that stand in a template where a start tag begins are those that are read. -/
theorem HeadParts.derivedIn_iff {source t : Text} {p : Nat} {parts : HeadParts}
    (h : Stands source ⟨p, '<' :: t⟩) (hs : Opening.startsName t = true) :
    parts.whole.start = p ∧ parts.DerivedIn source ↔
      ∃ head rest, Head.read t = .ok (head, rest) ∧ ofHead p head = parts := by
  have hname : Stands source ⟨p + 1, t⟩ := stands_skip (s := ['<']) h
  constructor
  · obtain ⟨⟨start, stop⟩, nameParts, attributes, selfClosing⟩ := parts
    rintro ⟨rfl, hopening, hn, i, j, hrun, hblank, hclose⟩
    dsimp only at h hname hopening hn hrun hclose ⊢
    have hnameStart : nameParts.whole.start = start + 1 := by
      obtain ⟨-, -, hstop⟩ := stands_of_slice? hopening
      exact hstop
    obtain ⟨name, more, rfl, hread, hofn⟩ :=
      (NameParts.derivedIn_iff (hnameStart ▸ hname) hs).1 hn
    rw [hnameStart] at hofn
    subst hofn
    obtain ⟨gap, more', hgap, rfl, hallBlank⟩ := Span.isBlank_iff.1 hblank
    obtain ⟨rest, hstands, hstop⟩ := stands_of_slice? hclose
    obtain rfl := stands_unique (stands_skip hgap) hstands
    obtain ⟨attrs, hattrs, rfl, hall, rfl⟩ := hrun.exists_attributes hgap
    obtain rfl := stands_unique (stands_skip hname) hattrs
    let head : Head := ⟨name, attrs, gap, selfClosing⟩
    have htail : name.chars ++ (attrs.flatMap Attribute.chars ++ (gap ++
        ((if selfClosing = true then ['/', '>'] else ['>']) ++ rest))) = head.tail ++ rest := by
      simp [head, Head.tail, Head.closing]
    have hheadRead : head.ReadBefore rest := ⟨hread, hall, hallBlank⟩
    refine ⟨head, rest, (Head.read_eq_ok_iff.2 ⟨htail, hheadRead⟩).2, ?_⟩
    rw [Reader.ofHead_eq]
    have hend : stop = start + Text.size head.chars := hstop.trans (Reader.stop_head start head)
    rw [hend]
    rfl
  · rintro ⟨head, rest, hread, rfl⟩
    obtain ⟨rfl, hnameRead, hall, hblank⟩ := Head.read_eq_ok_iff.1 ⟨hs, hread⟩
    rw [Reader.ofHead_eq]
    simp only [Head.tail, List.append_assoc] at hname hs
    have hattributes := stands_skip hname
    have hgap := stands_skip hattributes
    have hclosing := stands_skip hgap
    refine ⟨rfl, slice?_eq (s := ['<']) h rfl,
      (NameParts.derivedIn_iff hname hs).2 ⟨head.name, _, rfl, hnameRead, rfl⟩, _, _,
      AttributeParts.run_attributeParts hattributes hall,
      Span.isBlank_iff.2 ⟨head.gap, _, hgap, rfl, hblank⟩,
      slice?_eq hclosing (Reader.stop_head p head).symm⟩

/-- A head that can be read stands by the grammar. -/
theorem HeadParts.derivedIn_ofHead {source rest : Text} {p : Nat} {head : Head}
    (h : Stands source ⟨p, head.chars ++ rest⟩) (hread : head.ReadBefore rest) :
    (ofHead p head).DerivedIn source := by
  obtain ⟨hs, hr⟩ := Head.read_eq_ok_iff.2 ⟨rfl, hread⟩
  exact ((derivedIn_iff h hs).2 ⟨head, rest, hr, rfl⟩).2

/-- The attributes of a head stand by the grammar. -/
theorem HeadParts.DerivedIn.forall_attributes {source : Text} {h : HeadParts}
    (hh : h.DerivedIn source) : ∀ a ∈ h.attributes, a.DerivedIn source := by
  obtain ⟨i, j, hrun, -⟩ := hh.attributes
  generalize h.name.whole.stop = k, h.attributes = as at hrun ⊢
  clear hh
  induction as generalizing k with
  | nil => exact List.forall_mem_nil _
  | cons a as ih => exact List.forall_mem_cons.2 ⟨hrun.2.1, ih _ hrun.2.2⟩

/-- In front of more text, where the name of a tag can begin, a head is `<` and a text in which one
can begin. -/
theorem Text.IsHead.startsName {w rest t : Text} (hw : IsHead w) (ht : '<' :: t = w ++ rest)
    (hs : Opening.startsName t = true) :
    ∃ u, w = '<' :: u ∧ t = u ++ rest ∧ Opening.startsName u = true := by
  obtain ⟨⟨whole, ⟨dynamic, start, stop⟩, attributes, selfClosing⟩, rfl, hopening, hname, -⟩ := hw
  have hopening : slice? w ⟨0, start⟩ = some ['<'] := hopening
  obtain ⟨u, hu, rfl⟩ := stands_of_slice? hopening
  obtain rfl : w = '<' :: u := stands_unique ⟨[], rfl, rfl⟩ hu
  obtain rfl : t = u ++ rest := (List.cons.inj ht).2
  have hu : Stands ('<' :: u) ⟨1, u⟩ := stands_skip (s := ['<']) hu
  refine ⟨u, rfl, rfl, ?_⟩
  cases dynamic with
  | true =>
    obtain ⟨inner, more, hdrop, -⟩ := Span.isDrop_iff.1 hname
    obtain rfl := stands_unique hu hdrop
    rfl
  | false =>
    obtain ⟨run, more, hrun, -, hne, hall, -⟩ := Span.isRun_iff.1 hname
    obtain rfl := stands_unique hu hrun
    obtain ⟨c, run, rfl⟩ := List.exists_cons_of_ne_nil hne
    have hc := TagName.isAlpha_of_startsName hs (hall c List.mem_cons_self)
    exact Opening.startsName_iff.2 (.inr ⟨c, _, rfl, hc⟩)

/-- A head that is read is a head by itself, and is read again wherever it stands. -/
theorem Head.read_iff_isHead {t : Text} (hs : Opening.startsName t = true) {w : Text} :
    (∃ head rest, read t = .ok (head, rest) ∧ w = head.chars) ↔
      w <+: '<' :: t ∧ w.IsHead := by
  constructor
  · rintro ⟨head, rest, hread, rfl⟩
    obtain ⟨rfl, hbefore⟩ := read_eq_ok_iff.1 ⟨hs, hread⟩
    have hstands : Stands head.chars ⟨0, head.chars ++ []⟩ := ⟨[], (List.append_nil _).symm, rfl⟩
    exact ⟨⟨rest, rfl⟩, .ofHead 0 head, rfl,
      HeadParts.derivedIn_ofHead hstands (hbefore.of_readBefore [])⟩
  · rintro ⟨⟨rest, ht⟩, hw⟩
    obtain ⟨u, rfl, rfl, hu⟩ := hw.startsName ht.symm hs
    obtain ⟨parts, hwhole, hparts⟩ := hw
    obtain ⟨head, rest', hread, rfl⟩ :=
      (HeadParts.derivedIn_iff ⟨[], rfl, rfl⟩ hu).1 ⟨congrArg Span.start hwhole, hparts⟩
    have hsize : Text.size head.chars = Text.size ('<' :: u) := by
      simpa [HeadParts.ofHead, Span.ofText] using congrArg Span.stop hwhole
    -- the head is all of its own text, so it is read in front of anything
    have htail := append_of_read hread
    obtain rfl : rest' = [] := by
      by_contra hne
      have := Text.size_pos hne
      rw [htail, Head.chars, Text.size_cons, Text.size_cons, Text.size_append] at hsize
      omega
    rw [List.append_nil] at htail
    obtain ⟨v, hv, -, hagain⟩ := read_append hu hread
    rw [List.append_nil] at hv
    exact ⟨head, rest, hv ▸ hagain rest, by rw [Head.chars, htail]⟩

/-- **Heads are read by their grammar.** Where a start tag begins, its head is read with these parts
if and only if a head with these parts stands there by the grammar; and a head is read up to an
offset if and only if the text up to there is a head by itself. -/
theorem Cursor.head_read_iff_derived (source t : Text) (p : Nat)
    (h : Stands source ⟨p, '<' :: t⟩) (hs : Opening.startsName t = true) :
    (∀ parts : HeadParts,
      (∃ head rest, Head.read t = .ok (head, rest) ∧ HeadParts.ofHead p head = parts) ↔
        parts.whole.start = p ∧ parts.DerivedIn source) ∧
    ∀ e, (∃ head rest, Head.read t = .ok (head, rest) ∧ (HeadParts.ofHead p head).whole = ⟨p, e⟩) ↔
      ∃ w, Text.slice? source ⟨p, e⟩ = some w ∧ w.IsHead := by
  refine ⟨fun parts => (HeadParts.derivedIn_iff h hs).symm, fun e => ⟨?_, ?_⟩⟩
  · rintro ⟨head, rest, hread, hwhole⟩
    obtain ⟨⟨rest', hprefix⟩, hhead⟩ := (Head.read_iff_isHead hs).1 ⟨head, rest, hread, rfl⟩
    rw [← hprefix] at h
    exact ⟨head.chars, slice?_eq h (congrArg Span.stop hwhole).symm, hhead⟩
  · rintro ⟨w, hslice, hw⟩
    obtain ⟨rest', hstands, rfl⟩ := stands_of_slice? hslice
    obtain ⟨head, rest, hread, rfl⟩ :=
      (Head.read_iff_isHead hs).2 ⟨⟨rest', (stands_unique h hstands).symm⟩, hw⟩
    exact ⟨head, rest, hread, rfl⟩

/-- A drop for a name, quotes and `>` inside drops and Liquid tags, and a value that takes the `/`
in front of `>`. -/
theorem Cursor.head_read_iff_derived_quotes :
    let source :=
      "é<\x7b\x7b t \x7d\x7d a='\x7b\x7b \"'\" \x7d\x7d\x7b% > '>' %\x7db' c d ".toList ++
        "=/x\x7b\x7b y \x7d\x7d/>".toList
    HeadParts.DerivedIn source ⟨⟨2, 53⟩, ⟨true, ⟨3, 10⟩⟩,
      [⟨⟨11, 36⟩, ⟨11, 12⟩, some ⟨⟨13, 36⟩, some .single, [⟨true, ⟨14, 23⟩⟩, ⟨false, ⟨23, 35⟩⟩]⟩⟩,
       ⟨⟨37, 38⟩, ⟨37, 38⟩, none⟩,
       ⟨⟨39, 52⟩, ⟨39, 40⟩, some ⟨⟨42, 52⟩, none,
         [⟨false, ⟨42, 44⟩⟩, ⟨true, ⟨44, 51⟩⟩, ⟨false, ⟨51, 52⟩⟩]⟩⟩], false⟩ := by
  intro source
  have hread : Head.read (source.drop 2) = .ok
      (⟨.dynamic " t ".toList,
        [⟨[' '], ['a'], some ⟨[], [], some .single,
            [.drop " \"'\" ".toList, .text "\x7b% > '>' %\x7db".toList]⟩⟩,
         ⟨[' '], ['c'], none⟩,
         ⟨[' '], ['d'], some ⟨[' '], [], none,
            [.text "/x".toList, .drop " y ".toList, .text "/".toList]⟩⟩], [], false⟩, []) := by
    decide +kernel
  exact (((head_read_iff_derived source (source.drop 2) 2
    ⟨['é'], rfl, rfl⟩ rfl).1 _).1 ⟨_, _, hread, by decide +kernel⟩).2

end LiquidTemplate
