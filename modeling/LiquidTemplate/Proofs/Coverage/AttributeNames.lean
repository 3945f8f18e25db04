import LiquidTemplate.Proofs.Coverage.Attributes
import LiquidTemplate.Proofs.Coverage.Subtrees
import LiquidTemplate.Proofs.Nesting.ViablePrefix

/-!
# Liquid markup and the names of attributes

Liquid markup in a start tag is turned away where an attribute would begin, and nowhere else: one
behind the first character of a name is part of that name. So the template is rejected for it if and
only if it stands right behind blanks, a value or the name of the tag, and the names of attributes
are all runs of their characters that do not begin with an opening
(`Cursor.liquid_name_rejected_iff_in_place`).
-/

namespace LiquidTemplate

open Cursor (Stands)
open Reader (stands_of_slice? stands_skip stands_unique)

/-! ## Openings at the start of a name -/

section

variable {u v : Text}

/-- An opening stays one in front of more text. -/
theorem opensLiquid_append_of_true (h : opensLiquid u = true) (x : Text) :
    opensLiquid (u ++ x) = true := by
  unfold opensLiquid at h
  split at h
  · rfl
  · rfl
  · cases h

theorem opensLiquid_eq_false_of_append (h : opensLiquid (u ++ v) = false) :
    opensLiquid u = false := by
  cases hu : opensLiquid u with
  | false => rfl
  | true => rw [opensLiquid_append_of_true hu] at h; cases h

/-- A slash does not complete an opening. -/
theorem opensLiquid_append_slash (h : opensLiquid u = false) (x : Text) :
    opensLiquid (u ++ '/' :: x) = false := by
  match u with
  | [] => rfl
  | [c] =>
    refine opensLiquid_eq_false ?_ ?_
    · rintro r - ⟨⟩
    · rintro r - ⟨⟩
  | c :: d :: u => exact (opensLiquid_append (by simp) _).trans h

end

/-! ## Where a head is turned away -/

/-- Reading pieces fails for the lack of an end only. -/
theorem Piece.eq_unterminated_of_read {stop : Char → Bool} {t : Text} {flaw : Flaw}
    (h : read stop t = .error flaw) : ∃ d, flaw = .unterminated d := by
  suffices key : ∀ pieces run, readOnto stop pieces run t = .error flaw →
      ∃ d, flaw = .unterminated d from key [] [] h
  clear h
  intro pieces run h
  fun_induction readOnto stop pieces run t with
  | case1 => cases h
  | case2 _ _ _ _ _ _ ih => exact ih h
  | case3 => cases h; exact ⟨_, rfl⟩
  | case4 _ _ _ _ _ _ ih => exact ih h
  | case5 => cases h; exact ⟨_, rfl⟩
  | case6 => cases h
  | case7 _ _ _ _ _ _ _ ih => exact ih h

theorem Value.readQuoted_ne_liquid (q : Quote) (t : Text) :
    readQuoted q t ≠ .error (.head .liquidAsAttributeName) := by
  intro h
  unfold readQuoted at h
  cases hp : Piece.read (· == q.char) t with
  | error flaw =>
    obtain ⟨d, rfl⟩ := Piece.eq_unterminated_of_read hp
    simp [hp, bind, Except.bind] at h
  | ok found =>
    simp only [hp, bind, Except.bind] at h
    split at h <;> cases h

theorem Value.readUnquoted_ne_liquid (t : Text) :
    readUnquoted t ≠ .error (.head .liquidAsAttributeName) := by
  intro h
  unfold readUnquoted at h
  cases hp : Piece.read (fun c => !isUnquotedChar c) t with
  | error flaw =>
    obtain ⟨d, rfl⟩ := Piece.eq_unterminated_of_read hp
    simp [hp, bind, Except.bind] at h
  | ok found =>
    simp only [hp, bind, Except.bind] at h
    split at h <;> cases h

theorem Value.read_ne_liquid (t : Text) :
    read t ≠ .error (.head .liquidAsAttributeName) := by
  unfold read
  split
  · exact nofun
  · split
    · exact readQuoted_ne_liquid _ _
    · exact readUnquoted_ne_liquid _

theorem Attribute.read_ne_liquid (gap t : Text) :
    read gap t ≠ .error (.head .liquidAsAttributeName) := by
  intro h
  simp only [read] at h
  split at h
  · split at h
    · cases h
    · next hv => cases h; exact Value.read_ne_liquid _ hv
  · cases h

theorem TagName.read_ne_liquid (t : Text) :
    read t ≠ .error (.head .liquidAsAttributeName) := by
  intro h
  unfold read at h
  split at h
  · split at h <;> cases h
  · cases h

namespace Head

variable {name : TagName} {found : List Attribute} {t : Text}

theorem readOnto_liquid (h : opensLiquid (Text.trimStart t) = true) :
    readOnto name found t = .error (.head .liquidAsAttributeName) := by
  unfold opensLiquid at h
  rw [readOnto]
  split at h
  · next ht => split <;> simp_all
  · next ht => split <;> simp_all
  · cases h

/-- Attributes are read up to Liquid markup that stands in the place of the next one. -/
theorem readOnto_eq_liquid_iff :
    readOnto name found t = .error (.head .liquidAsAttributeName) ↔
      ∃ as gap u, t = as.flatMap Attribute.chars ++ (gap ++ u) ∧
        Attribute.AllReadBefore (gap ++ u) as ∧ Text.AllBlank gap ∧ opensLiquid u = true := by
  constructor
  · intro h
    fun_induction readOnto name found t with
    | case1 => cases h
    | case2 => cases h
    | case3 => cases h
    | case4 found t u ht =>
      have hsplit := Text.leadingBlanks_append_trimStart t
      rw [ht] at hsplit
      exact ⟨[], _, _, hsplit.symm, trivial, Text.allBlank_leadingBlanks t, rfl⟩
    | case5 found t u ht =>
      have hsplit := Text.leadingBlanks_append_trimStart t
      rw [ht] at hsplit
      exact ⟨[], _, _, hsplit.symm, trivial, Text.allBlank_leadingBlanks t, rfl⟩
    | case6 found t gap c rest _ _ hd hl ht hc a rest' ha ih =>
      obtain ⟨as, gap', u, rfl, has, hgap', hu⟩ := ih h
      obtain ⟨hag, hbody, hbefore⟩ := Attribute.read_eq_ok_iff.1 ha
      have hname : a.name ≠ [] := by
        rw [(Attribute.eq_of_read ha).2.1, List.takeWhile_cons, if_pos hc]
        exact List.cons_ne_nil _ _
      refine ⟨a :: as, gap', u, ?_, ⟨?_, hname, ?_, hbefore, has⟩, hgap', hu⟩
      · have hsplit := Text.leadingBlanks_append_trimStart t
        rw [ht, hbody] at hsplit
        rw [← hsplit, List.flatMap_cons, Attribute.chars, hag]
        simp [gap]
      · rw [hag]
        exact Text.allBlank_leadingBlanks t
      · rw [← hbody]
        exact opensLiquid_eq_false hd hl
    | case7 found t gap c rest _ _ _ _ ht hc flaw ha =>
      cases h
      exact (Attribute.read_ne_liquid _ _ ha).elim
    | case8 => cases h
  · rintro ⟨as, gap, u, rfl, has, hgap, hu⟩
    have hstops : Text.Stops Text.isBlank u := by
      unfold opensLiquid at hu
      split at hu
      · exact Text.stops_cons.2 rfl
      · exact Text.stops_cons.2 rfl
      · cases hu
    rw [readOnto_attributes found has]
    exact readOnto_liquid (by rw [(Text.blanks_append_of_stops hgap hstops).2, hu])

theorem read_eq_liquid_iff (hs : Opening.startsName t = true) :
    read t = .error (.head .liquidAsAttributeName) ↔
      ∃ (name : TagName) (more : Text), t = name.chars ++ more ∧ name.ReadBefore more ∧
        ∃ as gap u, more = as.flatMap Attribute.chars ++ (gap ++ u) ∧
          Attribute.AllReadBefore (gap ++ u) as ∧ Text.AllBlank gap ∧ opensLiquid u = true := by
  constructor
  · intro h
    unfold read at h
    split at h
    · next name more hn =>
      obtain ⟨ht, hname⟩ := TagName.read_eq_ok_iff.1 ⟨hs, hn⟩
      exact ⟨name, more, ht, hname, readOnto_eq_liquid_iff.1 h⟩
    · next hn => cases h; exact (TagName.read_ne_liquid t hn).elim
  · rintro ⟨name, more, rfl, hname, h⟩
    have hn := (TagName.read_eq_ok_iff.2 ⟨rfl, hname⟩).2
    simp only [read, hn]
    exact readOnto_eq_liquid_iff.2 h

end Head

/-- Liquid markup stands in the place of an attribute of the start tag at `p`: behind the name of
the tag, attributes and blanks. -/
def AttributeParts.LiquidInPlace (source : Text) (p : Nat) : Prop :=
  ∃ name : NameParts, ∃ as i j u, name.whole.start = p + 1 ∧ name.DerivedIn source ∧
    Run source name.whole.stop as i ∧ Span.IsBlank source ⟨i, j⟩ ∧ Stands source ⟨j, u⟩ ∧
      opensLiquid u = true

/-- A head is turned away for it where it stands in the place of an attribute. -/
theorem AttributeParts.liquidInPlace_iff {source t : Text} {p : Nat}
    (h : Stands source ⟨p, '<' :: t⟩) (hs : Opening.startsName t = true) :
    LiquidInPlace source p ↔ Head.read t = .error (.head .liquidAsAttributeName) := by
  have hname : Stands source ⟨p + 1, t⟩ := stands_skip (s := ['<']) h
  rw [Head.read_eq_liquid_iff hs]
  constructor
  · rintro ⟨nameParts, as, i, j, u, hstart, hn, hrun, hblank, hu, hopens⟩
    obtain ⟨name, more, rfl, hread, hofn⟩ := (NameParts.derivedIn_iff (hstart ▸ hname) hs).1 hn
    rw [hstart] at hofn
    subst hofn
    obtain ⟨gap, more', hgap, rfl, hallBlank⟩ := Span.isBlank_iff.1 hblank
    obtain rfl := stands_unique (stands_skip hgap) hu
    obtain ⟨attrs, hattrs, rfl, hall, rfl⟩ := hrun.exists_attributes hgap
    obtain rfl := stands_unique (stands_skip hname) hattrs
    exact ⟨name, _, rfl, hread, attrs, gap, _, rfl, hall, hallBlank, hopens⟩
  · rintro ⟨name, more, rfl, hread, attrs, gap, u, rfl, hall, hallBlank, hopens⟩
    have hattrs := stands_skip hname
    have hgap := stands_skip hattrs
    exact ⟨.ofName (p + 1) name, Reader.attributeParts (p + 1 + Text.size name.chars) attrs, _, _,
      u, rfl, (NameParts.derivedIn_iff hname hs).2 ⟨name, _, rfl, hread, rfl⟩,
      run_attributeParts hattrs hall, Span.isBlank_iff.2 ⟨gap, u, hgap, rfl, hallBlank⟩,
      stands_skip hgap, hopens⟩

theorem Opening.complete_startTag_eq_liquid_iff {t : Text} :
    startTag.complete t = .error (.head .liquidAsAttributeName) ↔
      Head.read t = .error (.head .liquidAsAttributeName) := by
  constructor
  · intro h
    simp only [complete] at h
    split at h
    · next hread =>
      cases h
      exact hread
    · split at h
      · cases h
      · split at h <;> cases h
  · intro h
    simp only [complete, h]

/-! ## Names in a document -/

namespace Document

variable {source : Text}

/-- A template with an invalid token is rejected for it, if not for a fault in front of it. -/
theorem exists_parse_eq_error {t : Token} {flaw : Flaw} (ht : t ∈ Token.ofText source)
    (hp : t.parts = .invalid flaw) :
    ∃ r, parse source = .error r ∧
      (r.offset < t.start ∨ r.offset = t.start ∧ r.fault = .flaw flaw) := by
  have hstep (s : State) : s.step t = .error (.flaw flaw) := by
    obtain ⟨start, item⟩ := t
    cases item with
    | invalid flaw' rest => cases hp; rfl
    | _ => cases hp
  obtain ⟨pre, post, hts⟩ := List.append_of_mem ht
  cases hpre : State.initial.reach pre with
  | ok s =>
    have hreach : State.initial.reach (Token.ofText source) = .error (.flaw flaw, t.start) := by
      rw [hts, State.reach_append, hpre]
      simp only [State.reach, hstep]
    refine ⟨.ofFault source (.flaw flaw) t.start, ?_, .inr ⟨rfl, rfl⟩⟩
    simp only [parse, run, State.run_eq, hreach]
    rfl
  | error found =>
    obtain ⟨fault, offset⟩ := found
    have hreach : State.initial.reach (Token.ofText source) = .error (fault, offset) := by
      rw [hts, State.reach_append, hpre]
    obtain ⟨done, u, rest, -, rfl, -, -, rfl⟩ := State.reach_eq_error hpre
    refine ⟨.ofFault source fault u.start, ?_, .inl ?_⟩
    · simp only [parse, run, State.run_eq, hreach]
      rfl
    · have hu : u ∈ Token.ofText source := by simp [hts]
      have hpos := Token.forall_mem_ofText_iff.2
        (fun _ => Lexeme.size_pos_of_mem_ofText) u hu
      have hstop := (Token.ofText_around hts).1 u (by simp)
      rw [Token.stop_eq, ← Lexeme.size] at hstop
      exact Nat.lt_of_lt_of_le (Nat.lt_add_of_pos_right hpos) hstop

/-- What the names of attributes in a document are: runs of characters of a name that do not begin
with Liquid markup. -/
theorem attribute_name {d : Document} (h : parse source = .ok d) {r : Record} (hr : r ∈ d.records)
    {name : Text} {quote : Option Quote} {hasEquals : Bool}
    (hk : r.entry.kind = .attr name quote hasEquals) :
    name ≠ [] ∧ (∀ c ∈ name, Attribute.isNameChar c = true) ∧ opensLiquid name = false := by
  have hmem : Record.family d.records r ∈
      (d.records.filter (·.entry.kind.isAttribute)).map (Record.family d.records) :=
    List.mem_map_of_mem (List.mem_filter.2 ⟨hr, by rw [hk]; rfl⟩)
  rw [map_family_attributes h] at hmem
  obtain ⟨a, ha, hfamily⟩ := List.mem_map.1 hmem
  obtain ⟨t, ht, ha⟩ := List.mem_flatMap.1 ha
  obtain rfl : a.item.name = name := by
    have hkind := congrArg (fun f => f.1.kind) hfamily
    exact (Kind.attr.inj (hkind.trans hk)).1
  have hc : Stands source ⟨0, source⟩ := ⟨[], rfl, rfl⟩
  have hslice : Text.slice? source (.ofText a.start a.item.name) = some a.item.name :=
    Located.within_iff_slice?.2 ⟨Attribute.within_name.trans
      ((Token.within_attributes ha).trans (hc.within ht)), rfl⟩
  have hderived := hc.derivedIn ht (.ofAttribute a) (by
    rw [t.attributes_parts]
    exact List.mem_map_of_mem ha)
  obtain ⟨run, rest, hstands, hstop, hne, hall, -⟩ := hderived.name
  obtain rfl : run = a.item.name :=
    Option.some.inj ((Reader.slice?_eq hstands hstop).symm.trans hslice)
  exact ⟨hne, hall, opensLiquid_eq_false_of_append (hderived.no_liquid _ hstands)⟩

/-- An empty element with one attribute, which has no value. -/
def headWithAttribute (name : Text) : Head := ⟨.fixed ['a'], [⟨[' '], name, none⟩], [], true⟩

variable {name : Text}

theorem readBefore_headWithAttribute (hne : name ≠ [])
    (hall : ∀ c ∈ name, Attribute.isNameChar c = true) (hopens : opensLiquid name = false) :
    (headWithAttribute name).ReadBefore [] := by
  have hblank : Text.AllBlank [' '] := by
    rintro c hc
    rw [List.mem_singleton.1 hc]
    rfl
  have hslash : Text.Stops Attribute.isNameChar ['/', '>'] := Text.stops_cons.2 rfl
  refine ⟨⟨⟨'a', [], rfl, rfl⟩, ?_, Text.stops_cons.2 rfl⟩,
    ⟨hblank, hne, ?_, ⟨hall, hslash, ?_⟩, trivial⟩, List.forall_mem_nil _⟩
  · exact List.forall_mem_singleton.2 rfl
  · simpa [headWithAttribute, Attribute.body, Attribute.assigned, Head.closing] using
      opensLiquid_append_slash hopens ['>']
  · exact Text.stops_cons.2 rfl

/-- Every such run is the name of an attribute in some document. -/
theorem exists_attribute_name (hne : name ≠ [])
    (hall : ∀ c ∈ name, Attribute.isNameChar c = true) (hopens : opensLiquid name = false) :
    ∃ d, parse (headWithAttribute name).chars = .ok d ∧
      ∃ r ∈ d.records, r.entry.kind = .attr name none false := by
  have hread := readBefore_headWithAttribute hne hall hopens
  have hlexemes : Lexeme.ofText (headWithAttribute name).chars =
      [.startTag (headWithAttribute name)] := by
    have hnext := Lexeme.next?_of_readBefore (l := .startTag (headWithAttribute name)) ⟨hread, rfl⟩
    rw [List.append_nil] at hnext
    rw [Lexeme.ofText_eq, show Lexeme.next? (headWithAttribute name).chars = _ from hnext]
    exact congrArg _ Lexeme.ofText_nil
  have hparse := parse_of_leaf hlexemes (show Token.leafNode? _ = some _ from rfl)
  refine ⟨_, hparse, ?_⟩
  have hfamilies := map_family_attributes hparse
  have htokens : Token.ofText (headWithAttribute name).chars =
      [⟨0, .startTag (headWithAttribute name)⟩] := by
    rw [Token.ofText, Token.ofTextAt, hlexemes]
    rfl
  rw [htokens] at hfamilies
  obtain ⟨r, hr, hfamily⟩ := List.map_eq_singleton_iff.1 hfamilies
  have hmem := hr ▸ List.mem_singleton_self r
  exact ⟨r, List.mem_of_mem_filter hmem, congrArg (fun f => f.1.kind) hfamily⟩

end Document

/-- **Liquid markup in names of attributes.** Where a start tag begins a token, it is turned away
for Liquid markup as a name if and only if that stands in the place of an attribute: right behind
the name of the tag, attributes and blanks. Then the template is rejected, for this or for a fault
in front of it. The names of attributes in documents are all runs of characters of a name that do
not begin with Liquid markup, so behind the first character an opening is part of the name. -/
theorem Cursor.liquid_name_rejected_iff_in_place (source : Text) :
    (∀ offset, ∀ t ∈ (ofOffset source offset).tokens, ∀ u, Stands source ⟨t.start, '<' :: u⟩ →
      Opening.startsName u = true →
        (t.parts = .invalid (.head .liquidAsAttributeName) ↔
          AttributeParts.LiquidInPlace source t.start)) ∧
    (∀ t ∈ Token.ofText source, t.parts = .invalid (.head .liquidAsAttributeName) →
      ∃ r, Document.parse source = .error r ∧ (r.offset < t.start ∨
        r.offset = t.start ∧ r.fault = .flaw (.head .liquidAsAttributeName))) ∧
    ∀ name, (∃ template d, Document.parse template = .ok d ∧ ∃ r ∈ d.records,
        ∃ quote hasEquals, r.entry.kind = .attr name quote hasEquals) ↔
      name ≠ [] ∧ (∀ c ∈ name, Attribute.isNameChar c = true) ∧ opensLiquid name = false := by
  refine ⟨fun offset t ht u hu hs => ?_, fun t => Document.exists_parse_eq_error, fun name => ?_⟩
  · obtain ⟨before, rest, hsource, hstart, hn⟩ :=
      next?_of_mem_tokens (stands_ofOffset source offset) ht
    have htext : '<' :: u = t.item.chars ++ rest := stands_unique hu ⟨before, hsource, hstart⟩
    rw [← htext] at hn
    rw [Token.parts_eq_invalid_iff (o := .startTag) hs hn, Opening.complete_startTag_eq_liquid_iff,
      AttributeParts.liquidInPlace_iff hu hs]
  · constructor
    · rintro ⟨template, d, h, r, hr, quote, hasEquals, hk⟩
      exact Document.attribute_name h hr hk
    · rintro ⟨hne, hall, hopens⟩
      obtain ⟨d, h, r, hr, hk⟩ := Document.exists_attribute_name hne hall hopens
      exact ⟨_, d, h, r, hr, none, false, hk⟩

/-- A drop behind an attribute without a value: the token is invalid, so the drop stands in the
place of an attribute, and the template is rejected there. -/
theorem Cursor.liquid_name_rejected_iff_in_place_behind_attribute :
    let source := "é<a b {{x}}>".toList
    AttributeParts.LiquidInPlace source 2 ∧
      ∃ r, Document.parse source = .error r ∧ r.offset = 2 ∧
        r.fault = .flaw (.head .liquidAsAttributeName) := by
  intro source
  let t : Token := ⟨2, .invalid (.head .liquidAsAttributeName) "<a b {{x}}>".toList⟩
  obtain ⟨hplace, herror, -⟩ := liquid_name_rejected_iff_in_place source
  refine ⟨(hplace 0 t (by decide +kernel) "a b {{x}}>".toList ⟨['é'], rfl, rfl⟩ rfl).1 rfl, ?_⟩
  have ht : t ∈ Token.ofText source := by decide +kernel
  obtain ⟨r, hr, hlt | h⟩ := herror t ht rfl
  · have hoffset : Document.outcomeEvent (Document.parse source) =
        .rejected .malformedHtmlTag 2 := by
      decide +kernel
    rw [hr] at hoffset
    exact absurd (Event.rejected.inj hoffset).2 (Nat.ne_of_lt hlt)
  · exact ⟨r, hr, h⟩

/-- A Liquid tag that no blank separates from the name in front of it is read as names. -/
theorem Document.liquid_tag_split_into_names :
    ∃ d, parse "<a b{% if x %}></a>".toList = .ok d ∧
      (∃ r ∈ d.records, ∃ name quote hasEquals, r.entry.kind = .attr name quote hasEquals ∧
        Delimiter.tag.opening <:+: name) ∧
      d.records.map (fun r => r.entry.kind) = [.document, .attr "b\x7b%".toList none false,
        .attr "if".toList none false, .attr "x".toList none false, .attr "%\x7d".toList none false,
        .element (some "a".toList)] := by
  have hcomputed : (parse "<a b{% if x %}></a>".toList).toOption.map
      (fun d => d.records.map fun r => r.entry.kind) =
      some [.document, .attr "b\x7b%".toList none false, .attr "if".toList none false,
        .attr "x".toList none false, .attr "%\x7d".toList none false,
        .element (some "a".toList)] := by
    decide +kernel
  obtain ⟨d, h, hkinds⟩ := exists_of_map_parse hcomputed
  have hmem : Kind.attr "b\x7b%".toList none false ∈ d.records.map fun r => r.entry.kind := by
    rw [hkinds]
    decide
  obtain ⟨r, hr, hk⟩ := List.mem_map.1 hmem
  exact ⟨d, h, ⟨r, hr, _, none, false, hk, ['b'], [], rfl⟩, hkinds⟩

end LiquidTemplate
