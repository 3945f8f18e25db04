import LiquidTemplate.Proofs.Arena.Concatenation

/-!
# Blanks around a template

Blanks join the run of text at which they stand, or are a run of their own, and the blanks around a
run add nothing to its node. So blanks in front of a template move what is parsed behind them
(`State.reach_blanks_append`) and blanks at its end change no node (`State.reach_append_blanks`);
only the document itself covers them (`Document.parse_surrounded`).
-/

namespace LiquidTemplate

section Blanks

variable {w : Text} (hw : Text.AllBlank w)

include hw

/-! ## Runs of text -/

namespace Text

theorem trim_blanks_append (t : Text) : trim (w ++ t) = trim t := by
  rw [trim, trimStart, List.dropWhile_append_of_pos hw, ← trimStart, ← trim]

theorem leadingBlanks_blanks_append (t : Text) :
    leadingBlanks (w ++ t) = w ++ leadingBlanks t :=
  List.takeWhile_append_of_pos hw

/-- Blanks behind a text that is not blank are trimmed at its end. -/
theorem trim_append_blanks {t : Text} (ht : trimStart t ≠ []) : trim (t ++ w) = trim t := by
  have hblank : ∀ c ∈ w.reverse, isBlank c = true := fun c hc => hw c (List.mem_reverse.1 hc)
  rw [trim, (trimStart_append ht w).1, trimEnd, List.reverse_append,
    List.dropWhile_append_of_pos hblank, ← trimEnd, ← trim]

end Text

namespace Node

theorem ofText?_blanks_append (start : Nat) (t : Text) :
    ofText? start (w ++ t) = ofText? (start + Text.size w) t := by
  simp only [ofText?, Text.trim_blanks_append hw, Text.leadingBlanks_blanks_append hw,
    Text.size_append, Nat.add_assoc]

theorem ofText?_append_blanks (start : Nat) (t : Text) :
    ofText? start (t ++ w) = ofText? start t := by
  by_cases ht : Text.trimStart t = []
  · have hblank : Text.AllBlank t := by
      rw [← Text.trim_eq_nil_iff, Text.trim, ht]
      rfl
    rw [ofText?_eq_none_iff.2 hblank, ofText?_eq_none_iff.2 (hblank.append hw)]
  · simp only [ofText?, Text.trim_append_blanks hw ht, (Text.trimStart_append ht w).2]

end Node

/-! ## Runs of a parse -/

namespace State

/-- Blanks in front only move the tokens. -/
theorem reach_blanks_append (s : State) (t : Text) :
    s.reach (Token.ofText (w ++ t)) = s.reach (Token.ofTextAt (Text.size w) t) := by
  by_cases hne : w = []
  · rw [hne]; rfl
  · rcases Lexeme.ofText_blanks_append hw hne t with ⟨v, ls, ht, hwt⟩ | hwt
    · rw [Token.ofText, Token.ofTextAt, Token.ofTextAt, hwt, ht, Located.locate_cons,
        Located.locate_cons, reach_text_cons, reach_text_cons, Node.ofText?_blanks_append hw]
      simp only [Lexeme.size, Lexeme.chars, Text.size_append, Nat.zero_add]
    · have hnone : Node.ofText? 0 w = none := Node.ofText?_eq_none_iff.2 hw
      rw [Token.ofText, Token.ofTextAt, hwt, Located.locate_cons, reach_text_cons, hnone,
        Nat.zero_add]
      rfl

/-- Blanks at the end do nothing, unless they stand in a construct that is not complete. -/
theorem reach_append_blanks (s : State) {t : Text}
    (ht : ∀ l ∈ Lexeme.ofText t, l.isInvalid = false) :
    s.reach (Token.ofText (t ++ w)) = s.reach (Token.ofText t) := by
  by_cases hne : w = []
  · rw [hne, List.append_nil]
  · have hlexemes := Lexeme.ofText_append_blanks hw hne ht (.inl rfl)
    rw [List.append_nil, Lexeme.ofText_nil, List.append_nil] at hlexemes
    rw [Token.ofText, Token.ofText, Token.ofTextAt, Token.ofTextAt, hlexemes]
    rcases Lexeme.padded_cases w (Lexeme.ofText t) with ⟨before, v, hbefore, hlast⟩ | hlast
    · rw [hlast, hbefore, Lexeme.locate_append, Lexeme.locate_append, reach_append, reach_append]
      simp only [Located.locate_cons, Located.locate_nil, reach_text_cons,
        Node.ofText?_append_blanks hw]
    · rw [hlast, Lexeme.locate_append, reach_append]
      cases s.reach (Located.locate Lexeme.size 0 (Lexeme.ofText t)) with
      | error found => rfl
      | ok s' =>
        simp only [Located.locate_cons, Located.locate_nil, reach_text_cons,
          Node.ofText?_eq_none_iff.2 hw]
        rfl

end State

/-! ## Documents -/

namespace Document

/-- A template with blanks in front is parsed like a document without nodes and then the
template. -/
theorem run_blanks_append (s : Text) :
    (run (w ++ s)).2 = ((run s).2.map (List.map (Node.shift (Text.size w)))).mapError
      (Fault.shift (Text.size w)) := by
  have hshift := State.run_behind_shift [] (Text.size w) [] [.started (Text.size s)]
    (Token.ofText s)
  rw [run, State.run_eq, State.reach_blanks_append hw, Token.ofTextAt_eq_map, run,
    ← State.run_eq State.initial []]
  refine hshift.trans ?_
  cases (State.initial.run [.started (Text.size s)] (Token.ofText s)).2 <;> rfl

/-- Blanks at the end of a template that is accepted do nothing. -/
theorem run_append_blanks {s : Text} {d : Document} (h : parse s = .ok d) :
    (run (s ++ w)).2 = (run s).2 := by
  obtain ⟨nodes, hreach, -⟩ := parse_eq_ok_iff.1 h
  have hvalid : ∀ l ∈ Lexeme.ofText s, l.isInvalid = false :=
    Token.forall_mem_ofText_iff.1 (State.isInvalid_eq_false_of_reach hreach)
  rw [run, run, State.run_eq, State.run_eq, State.reach_append_blanks hw _ hvalid]

end Document

end Blanks

namespace Record

/-- The record of a node that stands `n` bytes further on. -/
def shift (n : Nat) (r : Record) : Record := { r with entry := r.entry.shift n }

/-- The record of a node that ends `n` bytes further on. -/
def extend (n : Nat) (r : Record) : Record :=
  { r with entry.position.stop := r.entry.position.stop + n }

theorem move_zero (n : Nat) : move 0 n = shift n := by
  funext r
  have hid : moveId 0 = fun id => id := funext fun id => by
    by_cases h : id = 0 <;> simp [moveId, h]
  simp [move, shift, hid]

end Record

namespace Document

variable {d : Document} {root : Record} {rest : List Record}

theorem records_text (w : Text) :
    records ⟨w, []⟩ = [⟨0, none, ⟨.child, .document, .ofText 0 w⟩, []⟩] := rfl

/-- The records of a document behind a text without nodes. -/
theorem records_text_append (w : Text) (h : d.records = root :: rest) :
    (append ⟨w, []⟩ d).records =
      root.extend (Text.size w) :: rest.map (Record.shift (Text.size w)) := by
  obtain ⟨_, _, _, _, hw, hd, happend⟩ := records_append ⟨w, []⟩ d
  obtain ⟨rfl, rfl⟩ := List.cons.inj ((records_text w).symm.trans hw)
  obtain ⟨rfl, rfl⟩ := List.cons.inj (h.symm.trans hd)
  obtain ⟨rfl, -⟩ := List.cons.inj (h.symm.trans (records_eq d))
  rw [happend]
  simp [Record.extend, Record.move_zero, outline, Tree.value, position, Span.ofText, Nat.add_comm]

/-- The records of a document in front of a text without nodes. -/
theorem records_append_text (w : Text) (h : d.records = root :: rest) :
    (append d ⟨w, []⟩).records = root.extend (Text.size w) :: rest := by
  obtain ⟨_, _, _, _, hd, hw, happend⟩ := records_append d ⟨w, []⟩
  obtain ⟨rfl, rfl⟩ := List.cons.inj ((records_text w).symm.trans hw)
  obtain ⟨rfl, rfl⟩ := List.cons.inj (h.symm.trans hd)
  obtain ⟨rfl, -⟩ := List.cons.inj (h.symm.trans (records_eq d))
  rw [happend]
  simp [Record.extend, outline, Tree.value, position, Span.ofText]

/-- **Blanks around a template**: with blanks in front a template is accepted exactly when it is
without them. The arena is then the same, except that every node is moved by the size of the blanks,
and the document itself, which starts where it did, ends so much later. Blanks at the end of a
template that is accepted only put off the end of the document. A rejection is moved by blanks in
front and is otherwise the same. -/
theorem parse_surrounded {w : Text} (hw : Text.AllBlank w) (s : Text) :
    ((∃ d, parse (w ++ s) = .ok d) ↔ ∃ d, parse s = .ok d) ∧
    (∀ d, parse s = .ok d → ∃ behind before root rest,
      parse (w ++ s) = .ok behind ∧ parse (s ++ w) = .ok before ∧ d.records = root :: rest ∧
      behind.records = root.extend (Text.size w) :: rest.map (Record.shift (Text.size w)) ∧
      before.records = root.extend (Text.size w) :: rest) ∧
    ∀ r, parse s = .error r → ∃ r', parse (w ++ s) = .error r' ∧ r'.fault = r.fault ∧
      r'.fault.kind = r.fault.kind ∧ r'.fault.message = r.fault.message ∧
      r'.offset = r.offset + Text.size w := by
  have hfront := run_blanks_append hw s
  have hok (d : Document) (h : parse s = .ok d) : parse (w ++ s) = .ok (append ⟨w, []⟩ d) := by
    obtain ⟨rfl, hrun⟩ := parse_eq_ok_iff_run.1 h
    rw [hrun] at hfront
    exact parse_eq_ok_iff_run.2 ⟨rfl, hfront⟩
  have herror (r : Rejection) (h : parse s = .error r) :
      parse (w ++ s) = .error (.ofFault (w ++ s) r.fault (r.offset + Text.size w)) := by
    obtain ⟨-, hrun⟩ := parse_eq_error_iff_run.1 h
    rw [hrun] at hfront
    exact parse_eq_error_iff_run.2 ⟨rfl, hfront⟩
  refine ⟨⟨?_, fun ⟨d, h⟩ => ⟨_, hok d h⟩⟩, fun d h => ?_,
    fun r h => ⟨_, herror r h, rfl, rfl, rfl, rfl⟩⟩
  · rintro ⟨d', hd'⟩
    cases h : parse s with
    | ok d => exact ⟨d, rfl⟩
    | error r => rw [herror r h] at hd'; cases hd'
  · have hback := run_append_blanks hw h
    obtain ⟨rfl, hrun⟩ := parse_eq_ok_iff_run.1 h
    have hparse : parse (d.source ++ w) = .ok (append d ⟨w, []⟩) := by
      refine parse_eq_ok_iff_run.2 ⟨rfl, hback.trans (hrun.trans ?_)⟩
      simp [append]
    exact ⟨_, _, _, _, hok d h, hparse, records_eq d, records_text_append w (records_eq d),
      records_append_text w (records_eq d)⟩

/-- An ideographic space and a line feed around a template that ends in `<`, and in front of one
that is rejected. -/
theorem parse_surrounded_ideographic :
    ∃ d behind before root rest r r', parse "<b>{{ x }}</b> <".toList = .ok d ∧
      d.records = root :: rest ∧ rest.length = 3 ∧
      parse ("\u3000\n".toList ++ "<b>{{ x }}</b> <".toList) = .ok behind ∧
      behind.records = root.extend 4 :: rest.map (Record.shift 4) ∧
      parse ("<b>{{ x }}</b> <".toList ++ "\u3000\n".toList) = .ok before ∧
      before.records = root.extend 4 :: rest ∧
      parse "x</b>".toList = .error r ∧ parse ("\u3000\n".toList ++ "x</b>".toList) = .error r' ∧
      r'.fault = r.fault ∧ r'.offset = r.offset + 4 := by
  have hw : Text.AllBlank "\u3000\n".toList := by decide
  have haccepted : outcomeEvent (parse "<b>{{ x }}</b> <".toList) = .accepted 4 := by
    decide +kernel
  have hrejected : outcomeEvent (parse "x</b>".toList) = .rejected .unexpectedClosingTag 1 := by
    decide +kernel
  obtain ⟨d, hd, hsize⟩ := outcomeEvent_eq_accepted_iff.1 haccepted
  obtain ⟨r, hr, -⟩ := outcomeEvent_eq_rejected_iff.1 hrejected
  obtain ⟨-, hok, -⟩ := parse_surrounded hw "<b>{{ x }}</b> <".toList
  obtain ⟨behind, before, root, rest, hbehind, hbefore, hrecords, hmoved, hlater⟩ := hok d hd
  obtain ⟨-, -, herror⟩ := parse_surrounded hw "x</b>".toList
  obtain ⟨r', hr', hfault, -, -, hoffset⟩ := herror r hr
  have hrest : rest.length = 3 := by
    have hlength := length_records d
    rw [hsize, hrecords, List.length_cons] at hlength
    omega
  exact ⟨d, behind, before, root, rest, r, r', hd, hrecords, hrest, hbehind, hmoved, hbefore,
    hlater, hr, hr', hfault, hoffset⟩

end Document

end LiquidTemplate
