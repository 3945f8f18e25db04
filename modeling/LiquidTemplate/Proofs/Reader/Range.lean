import LiquidTemplate.Proofs.Reader.Parser
import LiquidTemplate.Proofs.Reader.Spans
import LiquidTemplate.Proofs.Arena.Simulation

/-!
# Everything is in range

A record refers to records only, and covers a part of the template. Together with the spans of
tokens and with the parse by offsets, which fails at the first cut, index or span that is wrong,
this says that no template makes anything fail (`Document.reads_in_range`).
-/

namespace LiquidTemplate

open Located (Within)

/-- A token that is taken from a cursor stands in the template. -/
theorem Cursor.Stands.within {source : Text} {c : Cursor} {t : Token} (hc : c.Stands source)
    (h : t ∈ c.tokens) : t.located.Within ⟨0, source⟩ := by
  obtain ⟨before, hs, hoff⟩ := hc
  have hcursor : Within ⟨c.offset, c.text⟩ ⟨0, source⟩ :=
    ⟨before, [], by rw [List.append_nil]; exact hs, by rw [Nat.zero_add, hoff]⟩
  have htoken : t.located.Within ⟨c.offset, (Lexeme.ofText c.text).flatMap Lexeme.chars⟩ :=
    (Located.within_of_mem_locate h).1
  rw [Lexeme.flatMap_chars_ofText] at htoken
  exact htoken.trans hcursor

namespace Document

/-- The part of the template that the node of this number covers. -/
def slice? (d : Document) (id : Nat) : Option Text := do
  let r ← d.records[id]?
  Text.slice? d.source r.entry.position

variable {d : Document}

theorem id_lt_of_mem_records {r : Record} (h : r ∈ d.records) : r.id < d.records.length :=
  (List.getElem?_eq_some_iff.1 (d.numbered_records.getElem?_id h)).1

theorem contentIds_lt {r : Record} (h : r ∈ d.records) :
    ∀ id ∈ r.contentIds, id < d.records.length := by
  intro id hid
  obtain ⟨r', hr', rfl, -⟩ := d.contentLinked_records r h id hid
  exact id_lt_of_mem_records hr'

theorem parent_lt {r : Record} (h : r ∈ d.records) : ∀ p ∈ r.parent, p < d.records.length := by
  intro p hp
  have hr := d.numbered_records.getElem?_id h
  rcases Nat.eq_zero_or_pos r.id with hzero | hpos
  · obtain ⟨root, hroot, hnone, -⟩ := d.postOrder_records
    rw [hzero, hroot] at hr
    cases hr
    rw [hnone] at hp
    cases hp
  · obtain ⟨q, holder, hq, hholder, -⟩ := d.exists_unique_holder hpos hr
    obtain rfl := Option.some.inj (hq.symm.trans hp)
    exact (List.getElem?_eq_some_iff.1 hholder).1

theorem exists_slice? {source : Text} (h : parse source = .ok d) {id : Nat}
    (hid : id < d.records.length) : ∃ covered, d.slice? id = some covered := by
  obtain ⟨rfl, -⟩ := parse_eq_ok_iff_sequenceTree.1 h
  obtain ⟨covered, hwithin, hstop, -⟩ := covers_of_parse h _ (List.getElem_mem hid)
  refine ⟨covered, ?_⟩
  rw [slice?, List.getElem?_eq_getElem hid]
  exact Located.within_iff_slice?.2 ⟨hwithin, hstop⟩

/-- **No template makes anything fail.** From wherever scanning starts, doing it by offsets gives
the tokens; so does parsing by offsets give the document or the rejection. All spans of a token
cover parts of it and lie in the template on character boundaries, all that is loaded of a token is
there, and where markup is taken there are two delimiters of two bytes with room between them.
Linking records never meets a number that has none, nor does anything that is held or holds in a
document that was parsed, and each of its nodes covers a part of the template. -/
theorem reads_in_range (source : Text) :
    Reader.parse source = pure (parse source) ∧
    (∀ offset, let c := Cursor.ofOffset source offset
      Reader.tokens source c.offset = pure (c.tokens.map Token.reading) ∧
      ∀ t ∈ c.tokens,
        Reader.load source (Token.reading t) = pure (Token.work t) ∧
        (∀ s ∈ t.span :: t.parts.spans,
          s.start ≤ s.stop ∧ s.stop ≤ Text.size source ∧ Text.IsBoundary source s.start ∧
            Text.IsBoundary source s.stop ∧ t.span.start ≤ s.start ∧ s.stop ≤ t.span.stop) ∧
        ∀ d s, (d, s) ∈ (Token.reading t).markups →
          4 ≤ s.length ∧ Text.size d.opening = 2 ∧ Text.size d.closing = 2 ∧
            ∃ inner, Text.slice? source s = some (d.opening ++ inner ++ d.closing)) ∧
    (∀ id, Builder.build source ≠ .error (.missing id) ∧
      Builder.build source ≠ .error (.linkedTwice id)) ∧
    ∀ d, parse source = .ok d →
      0 < d.records.length ∧
      (∀ r ∈ d.records, (∀ id ∈ r.contentIds, id < d.records.length) ∧
        ∀ p ∈ r.parent, p < d.records.length) ∧
      ∀ id < d.records.length, ∃ covered, d.slice? id = some covered := by
  refine ⟨Reader.parse_eq source, fun offset => ?_, fun id => ?_, fun d h => ⟨?_, ?_, ?_⟩⟩
  · have hc := Cursor.stands_ofOffset source offset
    refine ⟨Reader.tokens_eq hc, fun t ht => ?_⟩
    have hwithin := hc.within ht
    exact ⟨Reader.load_eq hwithin, fun s hs => (t.covers_of_mem_spans s hs).inRange hwithin,
      fun d s hm => (t.encloses_of_mem_markups (d, s) hm).long hwithin⟩
  · rw [Builder.build_eq]
    cases parse source with
    | ok d => exact ⟨nofun, nofun⟩
    | error r => exact ⟨nofun, nofun⟩
  · rw [records_eq]
    exact Nat.succ_pos _
  · exact fun r hr => ⟨contentIds_lt hr, parent_lt hr⟩
  · exact fun id hid => exists_slice? h hid

/-- A drop with nothing in it, behind a character of two bytes; the cursor is put inside that. -/
theorem reads_in_range_empty_drop :
    (∃ d, parse "é{{}}<p a=\x7b%\x7d%\x7d></p>".toList = .ok d ∧
      ∃ covered, d.slice? 2 = some covered) ∧
    Text.IsBoundary "é{{}}<p a=\x7b%\x7d%\x7d></p>".toList 6 ∧
    ∃ inner, Text.slice? "é{{}}<p a=\x7b%\x7d%\x7d></p>".toList ⟨2, 6⟩ =
      some (['{', '{'] ++ inner ++ ['}', '}']) := by
  obtain ⟨-, hscan, -, hparsed⟩ := reads_in_range "é{{}}<p a=\x7b%\x7d%\x7d></p>".toList
  obtain ⟨-, hspans, hmarkups⟩ := (hscan 1).2 ⟨2, .drop []⟩ (by decide +kernel)
  refine ⟨?_, (hspans ⟨2, 6⟩ (by decide)).2.2.2.1, (hmarkups .drop ⟨2, 6⟩ (by decide)).2.2.2⟩
  have haccepted : outcomeEvent (parse "é{{}}<p a=\x7b%\x7d%\x7d></p>".toList) = .accepted 6 := by
    decide +kernel
  obtain ⟨d, hd, hsize⟩ := outcomeEvent_eq_accepted_iff.1 haccepted
  exact ⟨d, hd, (hparsed d hd).2.2 2 (by rw [length_records]; omega)⟩

end Document

end LiquidTemplate
