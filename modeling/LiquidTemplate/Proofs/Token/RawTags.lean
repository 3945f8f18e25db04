import LiquidTemplate.Proofs.Lexeme.Pairing
import LiquidTemplate.Proofs.Token.FirstEnds

/-!
# Where a raw tag ends

A raw tag ends at the first of those end tags that have nothing but pairs between them and its
opening, and it is unclosed if there is none of those (`Cursor.rawTag_ends_at_first_reachable`). A
`{%` in the body that nothing closes before the end tag does, takes the `%}` of the end tag, which
is then passed over: there is an end tag, and yet the raw tag is unclosed
(`Raw.stray_opening_hides_end_tag`).
-/

namespace LiquidTemplate

open Text (placesFrom)

namespace Raw

/-- The offsets of end tags that have nothing but pairs between `start` and them. -/
def reachableEnds (source : Text) (start : Nat) (name : Text) : Set Nat :=
  {n ∈ placesFrom source start (EndTag name) |
    ∃ body, Text.slice? source ⟨start, n⟩ = some body ∧ Paired body}

section

variable {front rest name body closing after : Text} {n : Nat}

theorem mem_reachableEnds_iff :
    n ∈ reachableEnds (front ++ rest) (Text.size front) name ↔
      ∃ p q, rest = p ++ q ∧ n = Text.size front + Text.size p ∧ EndTag name q ∧ Paired p := by
  have hslice (p q : Text) : Text.slice? (front ++ (p ++ q))
      ⟨Text.size front, Text.size front + Text.size p⟩ = some p :=
    Text.slice?_eq_some_iff.2 ⟨front, q, (List.append_assoc _ _ _).symm, rfl, rfl⟩
  constructor
  · rintro ⟨hplace, body, hbody, hpaired⟩
    obtain ⟨p, q, rfl, rfl, hq⟩ := Text.mem_placesFrom_iff.1 hplace
    obtain rfl := Option.some.inj ((hslice p q).symm.trans hbody)
    exact ⟨p, q, rfl, rfl, hq, hpaired⟩
  · rintro ⟨p, q, rfl, rfl, hq, hp⟩
    exact ⟨Text.mem_placesFrom_iff.2 ⟨p, q, rfl, rfl, hq⟩, p, hslice p q, hp⟩

variable (front) in
theorem isLeast_reachableEnds (h : readTag? name rest = some (body, closing, after)) :
    IsLeast (reachableEnds (front ++ rest) (Text.size front) name)
      (Text.size front + Text.size body) := by
  obtain ⟨hrest, hpaired, hcloses, hname, hleast⟩ := paired_of_readTag? h
  refine ⟨mem_reachableEnds_iff.2 ⟨body, _, hrest, rfl, ⟨closing, after, rfl, hcloses, hname⟩,
    hpaired⟩, fun n hn => ?_⟩
  obtain ⟨p, q, hpq, rfl, hq, hp⟩ := mem_reachableEnds_iff.1 hn
  exact Nat.add_le_add_left (hleast p q hpq hp hq) _

theorem reachableEnds_eq_empty (h : readTag? name rest = none) :
    reachableEnds (front ++ rest) (Text.size front) name = ∅ := by
  refine Set.eq_empty_iff_forall_notMem.2 fun n hn => ?_
  obtain ⟨p, q, hpq, -, hq, hp⟩ := mem_reachableEnds_iff.1 hn
  exact not_endTag_of_readTag?_eq_none h p q hpq hp hq

end

end Raw

/-- Behind a tag with the name of a raw tag, the end tag is searched for. -/
theorem Opening.complete_rawTag {inner : Text} (hcloses : Delimiter.tag.Closes inner)
    (hraw : Keyword.isRawTag (Tag.ofInner inner).name = true) (after : Text) :
    tag.complete (inner ++ Delimiter.tag.closing ++ after) =
      match Raw.readTag? (Tag.ofInner inner).name after with
      | some (body, closing, rest) => .ok (.rawTag inner body closing, rest)
      | none => .error (.unclosedRaw (Tag.ofInner inner).name) := by
  cases hr : Raw.readTag? (Tag.ofInner inner).name after <;>
    simp only [complete, Delimiter.finish?_append hcloses after, hraw, hr, if_true]

section

variable {t : Token} {opening body closing after rest rest' : Text}

/-- A tag with the name of a raw tag begins one if the end tag is found. -/
theorem Token.parts_of_readTag?_eq_some
    (hn : Lexeme.next? (Delimiter.tag.enclose opening ++ after) = some (t.item, rest))
    (hcloses : Delimiter.tag.Closes opening)
    (hraw : Keyword.isRawTag (Tag.ofInner opening).name = true)
    (hr : Raw.readTag? (Tag.ofInner opening).name after = some (body, closing, rest')) :
    let stop := t.start + Text.size (Delimiter.tag.enclose opening)
    t.parts = .rawTag ⟨t.start, stop⟩ ⟨stop, stop + Text.size body⟩
      ⟨stop + Text.size body, t.stop⟩ := by
  have hcomplete := Opening.complete_rawTag hcloses hraw after
  rw [hr] at hcomplete
  rw [(Raw.finish?_enclose hcloses after).1] at hn
  have hnext := (Lexeme.next?_of_complete (o := .tag) trivial hcomplete).symm.trans hn
  intro stop
  rw [Token.parts, ← (Prod.mk.inj (Option.some.inj hnext)).1]
  rfl

theorem Token.parts_of_readTag?_eq_none
    (hn : Lexeme.next? (Delimiter.tag.enclose opening ++ after) = some (t.item, rest))
    (hcloses : Delimiter.tag.Closes opening)
    (hraw : Keyword.isRawTag (Tag.ofInner opening).name = true)
    (hr : Raw.readTag? (Tag.ofInner opening).name after = none) :
    t.parts = .invalid (.unclosedRaw (Tag.ofInner opening).name) := by
  have hcomplete := Opening.complete_rawTag hcloses hraw after
  rw [hr] at hcomplete
  rw [(Raw.finish?_enclose hcloses after).1] at hn
  exact (Token.parts_eq_invalid_iff (o := .tag) trivial hn).2 hcomplete

end

open Raw in
/-- **Where a raw tag ends.** Where a tag with the name of a raw tag begins a token, this is a raw
tag with the body up to `n` if and only if `n` is the first of the end tags with nothing but pairs
in front of them, and unclosed if and only if there is none of those. -/
theorem Cursor.rawTag_ends_at_first_reachable {source opening : Text} {offset stop : Nat}
    {t : Token} (ht : t ∈ (ofOffset source offset).tokens)
    (hopening : Text.slice? source ⟨t.start, stop⟩ = some (Delimiter.tag.enclose opening))
    (hcloses : Delimiter.tag.Closes opening)
    (hraw : Keyword.isRawTag (Tag.ofInner opening).name = true) :
    let name := (Tag.ofInner opening).name
    let ends := reachableEnds source stop name
    (∀ n, t.parts = .rawTag ⟨t.start, stop⟩ ⟨stop, n⟩ ⟨n, t.stop⟩ ↔ IsLeast ends n) ∧
      (t.parts = .invalid (.unclosedRaw name) ↔ ends = ∅) := by
  intro name ends
  obtain ⟨before, rest, hs, hstart, hn⟩ := next?_of_mem_tokens (stands_ofOffset source offset) ht
  obtain ⟨before', after, hs', hstart', hstop⟩ := Text.slice?_eq_some_iff.1 hopening
  rw [List.append_assoc] at hs'
  obtain ⟨rfl, htext⟩ := Text.append_inj_of_size (hs.symm.trans hs') (hstart.trans hstart'.symm)
  have hends : ends = reachableEnds (before ++ Delimiter.tag.enclose opening ++ after)
      (Text.size (before ++ Delimiter.tag.enclose opening)) name := by
    rw [Text.size_append, hstart', List.append_assoc, ← hs', ← hstop]
  rw [htext] at hn
  cases hr : readTag? name after with
  | none =>
    have hparts := Token.parts_of_readTag?_eq_none hn hcloses hraw hr
    have hempty := hends.trans (reachableEnds_eq_empty hr)
    refine ⟨fun n => iff_of_false ?_ fun hleast => ?_, iff_of_true hparts hempty⟩
    · rw [hparts]
      exact Parts.noConfusion
    · rw [hempty] at hleast
      exact hleast.1
  | some found =>
    obtain ⟨body, closing, rest'⟩ := found
    have hparts := Token.parts_of_readTag?_eq_some hn hcloses hraw hr
    have hleast : IsLeast ends (stop + Text.size body) := by
      have h := isLeast_reachableEnds (before ++ Delimiter.tag.enclose opening) hr
      rwa [← hends, Text.size_append, hstart', ← hstop] at h
    rw [← show stop = _ from hstop] at hparts
    refine ⟨fun n => ?_, iff_of_false ?_ ?_⟩
    · rw [hparts]
      constructor
      · intro h
        cases h
        exact hleast
      · intro hn
        rw [hn.unique hleast]
    · rw [hparts]
      exact Parts.noConfusion
    · exact Set.nonempty_iff_ne_empty.1 ⟨_, hleast.1⟩

/-- In front of the first end tag stand a closing without an opening and a pair; in the second
template an opening takes the closing of the only end tag. -/
theorem Cursor.rawTag_ends_at_first_reachable_behind_pair :
    let source := "{% raw %}%\x7d{% if %}{%- endraw -%}{% endraw %}".toList
    IsLeast (Raw.reachableEnds source 9 "raw".toList) 19 ∧
      Raw.reachableEnds "{% raw %}\x7b% {% endraw %}".toList 9 "raw".toList = ∅ := by
  intro source
  constructor
  · refine ((@rawTag_ends_at_first_reachable source " raw ".toList 0 9
      ⟨0, .rawTag " raw ".toList "%\x7d{% if %}".toList "- endraw -".toList⟩
      ?_ ?_ ?_ ?_).1 19).1 ?_ <;> decide +kernel
  · refine (@rawTag_ends_at_first_reachable "{% raw %}\x7b% {% endraw %}".toList " raw ".toList 0 9
      ⟨0, .invalid (.unclosedRaw "raw".toList) "{% raw %}\x7b% {% endraw %}".toList⟩
      ?_ ?_ ?_ ?_).2.1 ?_ <;> decide +kernel

namespace Raw

theorem endTag_iff {name t : Text} :
    EndTag name t ↔ ∃ r ∈ Text.after? Delimiter.tag.opening t,
      ∃ found ∈ Delimiter.tag.finish? r, (Tag.ofInner found.1).name = Keyword.endTag name := by
  constructor
  · rintro ⟨inner, after, rfl, hcloses, hname⟩
    obtain ⟨henclose, hfinish⟩ := finish?_enclose hcloses after
    rw [henclose]
    exact ⟨_, Text.after?_append _ _, _, hfinish, hname⟩
  · rintro ⟨r, hr, ⟨inner, after⟩, hfound, hname⟩
    refine ⟨inner, after, ?_, Delimiter.closes_of_finish? hfound, hname⟩
    rw [Text.after?_eq_some_iff.1 hr, Delimiter.append_of_finish? hfound]
    simp [Delimiter.enclose]

instance (name t : Text) : Decidable (EndTag name t) := decidable_of_iff _ endTag_iff.symm

/-- An end tag that is passed over: the opening in front of it takes its closing, and so the raw tag
is unclosed. -/
theorem stray_opening_hides_end_tag :
    let source := "{% raw %}\x7b% {% endraw %}".toList
    IsLeast (placesFrom source 9 (EndTag "raw".toList)) 12 ∧
      (Cursor.ofOffset source 0).tokens = [⟨0, .invalid (.unclosedRaw "raw".toList) source⟩] := by
  intro source
  have hend : EndTag "raw".toList "{% endraw %}".toList := by decide +kernel
  exact ⟨Text.isLeast_placesFrom "{% raw %}".toList "\x7b% ".toList hend
    (Text.forall_suffix_iff.2 (by decide +kernel)), by decide +kernel⟩

end Raw

end LiquidTemplate
