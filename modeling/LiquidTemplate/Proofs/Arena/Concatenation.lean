import LiquidTemplate.Proofs.Arena.PostOrder
import LiquidTemplate.Proofs.Nesting.Relocation

/-!
# Parsing two templates as one

Where the first of two templates is accepted and does not end in text, parsing both as one is the
same as parsing them apart and joining the results: the nodes of the second are moved behind those
of the first, by number and by position, and so is its rejection (`Document.parse_append`).
-/

namespace LiquidTemplate

/-! ## Moving records -/

namespace Record

/-- A number that is counted from `k` on. The document keeps its own. -/
def moveId (k id : Nat) : Nat := if id = 0 then 0 else id + k

/-- The record of a node whose number is `k` more and which stands `n` bytes further on. -/
def move (k n : Nat) (r : Record) : Record :=
  ⟨r.id + k, r.parent.map (moveId k), r.entry.shift n, r.contents.map fun c => (c.1, c.2 + k)⟩

theorem moveId_of_pos {k id : Nat} (h : 0 < id) : moveId k id = id + k :=
  if_neg (Nat.ne_of_gt h)

end Record

namespace Tree

/-- The slots of trees that are moved and counted from further on. -/
theorem map_slot_numberAll_shift (k n : Nat) (ts : List (Tree Entry)) (next : Nat) :
    (numberAll (next + k) (mapAll (Entry.shift n) ts)).1.map slot =
      ((numberAll next ts).1.map slot).map fun c => (c.1, c.2 + k) := by
  induction ts generalizing next with
  | nil => rfl
  | cons t ts ih =>
    obtain ⟨entry, us⟩ := t
    rw [mapAll, numberAll_cons_fst, numberAll_cons_fst, size_map, Nat.add_right_comm, List.map_cons,
      List.map_cons, List.map_cons, ih, map, number_node_fst, number_node_fst, sizeAll_mapAll,
      Nat.add_right_comm]
    rfl

end Tree

namespace Record

mutual

theorem layout_shift (k n : Nat) : ∀ (t : Tree Entry) (parent : Option Nat) {next : Nat},
    0 < next →
    layout (parent.map (moveId k)) ((t.map (Entry.shift n)).number (next + k)).1 =
      (layout parent (t.number next).1).map (move k n)
  | .node entry ts, parent, next, h => by
    have hid : 0 < next + Tree.sizeAll ts := Nat.add_pos_left h _
    have hbelow := layoutAll_shift k n ts (some (next + Tree.sizeAll ts)) h
    rw [Option.map_some, moveId_of_pos hid] at hbelow
    rw [Tree.map, Tree.number_node_fst, Tree.number_node_fst, Tree.sizeAll_mapAll,
      Nat.add_right_comm, layout, layout, hbelow, List.map_append, Tree.map_slot_numberAll_shift]
    rfl

/-- The records of trees that are moved and counted from further on. -/
theorem layoutAll_shift (k n : Nat) : ∀ (ts : List (Tree Entry)) (parent : Option Nat) {next : Nat},
    0 < next →
    layoutAll (parent.map (moveId k))
        (Tree.numberAll (next + k) (Tree.mapAll (Entry.shift n) ts)).1 =
      (layoutAll parent (Tree.numberAll next ts).1).map (move k n)
  | [], _, _, _ => rfl
  | t :: ts, parent, next, h => by
    have hrest := layoutAll_shift k n ts parent (Nat.add_pos_left h t.size)
    rw [Nat.add_right_comm] at hrest
    rw [Tree.mapAll, Tree.numberAll_cons_fst, Tree.numberAll_cons_fst, Tree.size_map, layoutAll,
      layoutAll, layout_shift k n t parent h, hrest, List.map_append]

end

end Record

/-- The tokens of both templates, those of the second further on. -/
theorem Token.ofText_append {a : Text} (ha : ∀ t ∈ ofText a, t.item.isInvalid = false)
    (hlast : ∀ v, (Lexeme.ofText a).getLast? ≠ some (.text v)) (b : Text) :
    ofText (a ++ b) = ofText a ++ (ofText b).map (Located.shift (Text.size a)) := by
  have hlexemes := Lexeme.ofText_append (forall_mem_ofText_iff.1 ha) hlast b
  rw [ofText, ofTextAt, hlexemes, Lexeme.locate_append, Lexeme.flatMap_chars_ofText, Nat.zero_add,
    ← ofTextAt_eq_map]
  rfl

theorem State.run_append {s s' : State} {ts : List Token} (h : s.reach ts = .ok s')
    (events : List Event) (us : List Token) :
    (s.run events (ts ++ us)).2 = (s'.run events us).2 := by
  rw [run_eq, run_eq, reach_append, h]

namespace Document

/-- The nodes of `d` and then those of `e`, as they stand when the templates are joined. -/
def append (d e : Document) : Document :=
  ⟨d.source ++ e.source, d.children ++ e.children.map (Node.shift (Text.size d.source))⟩

theorem parse_eq_ok_iff_run {source : Text} {d : Document} :
    parse source = .ok d ↔ d.source = source ∧ (run source).2 = .ok d.children := by
  obtain ⟨text, children⟩ := d
  rw [parse]
  cases (run source).2 with
  | ok nodes => simp [ofOutcome, eq_comm]
  | error found => simp [ofOutcome]

theorem parse_eq_error_iff_run {source : Text} {r : Rejection} :
    parse source = .error r ↔
      r = .ofFault source r.fault r.offset ∧ (run source).2 = .error (r.fault, r.offset) := by
  rw [parse]
  cases (run source).2 with
  | ok nodes => simp [ofOutcome]
  | error found =>
    obtain ⟨fault, offset⟩ := found
    simp only [ofOutcome, Except.error.injEq, Prod.mk.injEq]
    constructor
    · rintro rfl
      exact ⟨rfl, rfl, rfl⟩
    · rintro ⟨h, rfl, rfl⟩
      exact h.symm

theorem run_append {a : Text} {da : Document} (ha : parse a = .ok da)
    (hlast : ∀ v, (Lexeme.ofText a).getLast? ≠ some (.text v)) (b : Text) :
    (run (a ++ b)).2 =
      (((run b).2.map (List.map (Node.shift (Text.size a)))).mapError
        (Fault.shift (Text.size a))).map (da.children ++ ·) := by
  obtain ⟨nodes, hreach, rfl⟩ := parse_eq_ok_iff.1 ha
  have hvalid := State.isInvalid_eq_false_of_reach hreach
  rw [run, Token.ofText_append hvalid hlast, State.run_append hreach]
  exact State.run_behind_shift nodes _ _ _ _

/-- The records of the first document, then those of the second, moved. -/
theorem records_append (d e : Document) :
    ∃ root rest root' rest', d.records = root :: rest ∧ e.records = root' :: rest' ∧
      (d.append e).records =
        ⟨0, none, ⟨.child, .document, .ofText 0 (d.source ++ e.source)⟩,
          root.contents ++ root'.contents.map fun c => (c.1, c.2 + rest.length)⟩ ::
        (rest ++ rest'.map (Record.move rest.length (Text.size d.source))) := by
  refine ⟨_, _, _, _, records_eq d, records_eq e, ?_⟩
  have hlayout := Record.layoutAll_shift (Tree.sizeAll (Node.outlineAll d.children))
    (Text.size d.source) (Node.outlineAll e.children) (some 0) Nat.one_pos
  have houtline : Node.outlineAll (d.append e).children = Node.outlineAll d.children ++
      Tree.mapAll (Entry.shift (Text.size d.source)) (Node.outlineAll e.children) := by
    rw [append, Node.outlineAll_append, ← Node.shiftAll_eq_map, Node.outlineAll_shiftAll]
  rw [records_eq, houtline, Tree.numberAll_append_fst, Record.layoutAll_append,
    Record.length_layoutAll, List.map_append, Tree.map_slot_numberAll_shift, ← hlayout]
  rfl

/-- **Joining templates**: let `a` be accepted and not end in text. If `b` is accepted too, so is
`a ++ b`, and its arena is a root that holds the children of both, the other nodes of `a`, and those
of `b` with numbers and positions counted on. If `b` is rejected, `a ++ b` is rejected for the same
fault, as far behind `a`. -/
theorem parse_append {a : Text} {da : Document} (ha : parse a = .ok da)
    (hlast : ∀ v, (Lexeme.ofText a).getLast? ≠ some (.text v)) (b : Text) :
    (∀ db, parse b = .ok db → ∃ d root rest root' rest', parse (a ++ b) = .ok d ∧
      da.records = root :: rest ∧ db.records = root' :: rest' ∧
      d.records =
        ⟨0, none, ⟨.child, .document, ⟨0, Text.size a + Text.size b⟩⟩,
          root.contents ++ root'.contents.map fun c => (c.1, c.2 + (da.records.length - 1))⟩ ::
        (rest ++ rest'.map (Record.move (da.records.length - 1) (Text.size a)))) ∧
    ∀ r, parse b = .error r → ∃ r', parse (a ++ b) = .error r' ∧ r'.fault = r.fault ∧
      r'.fault.kind = r.fault.kind ∧ r'.fault.message = r.fault.message ∧
      r'.offset = Text.size a + r.offset := by
  have hrun := run_append ha hlast b
  obtain ⟨rfl, -⟩ := parse_eq_ok_iff_run.1 ha
  refine ⟨fun db hb => ?_, fun r hb => ?_⟩
  · obtain ⟨rfl, hb⟩ := parse_eq_ok_iff_run.1 hb
    rw [hb] at hrun
    obtain ⟨root, rest, root', rest', hda, hdb, hd⟩ := records_append da db
    have hlen : da.records.length - 1 = rest.length := by rw [hda]; rfl
    rw [Span.ofText, Text.size_append, Nat.zero_add, ← hlen] at hd
    exact ⟨da.append db, root, rest, root', rest', parse_eq_ok_iff_run.2 ⟨rfl, hrun⟩, hda, hdb, hd⟩
  · obtain ⟨-, hb⟩ := parse_eq_error_iff_run.1 hb
    rw [hb] at hrun
    have hparse : parse (da.source ++ b) =
        .error (.ofFault (da.source ++ b) r.fault (r.offset + Text.size da.source)) :=
      parse_eq_error_iff_run.2 ⟨rfl, hrun⟩
    exact ⟨_, hparse, rfl, rfl, rfl, Nat.add_comm _ _⟩

/-- A block, and behind it an element in one template and a stray end tag in another. -/
theorem parse_append_behind_block :
    ∃ da db d r r', parse "{% if é %}x{% endif %}".toList = .ok da ∧
      (Lexeme.ofText "{% if é %}x{% endif %}".toList).getLast? = some (.tag " endif ".toList) ∧
      parse "<p a>y</p>".toList = .ok db ∧
      parse ("{% if é %}x{% endif %}".toList ++ "<p a>y</p>".toList) = .ok d ∧
      d.records.tail = da.records.tail ++ db.records.tail.map (Record.move 3 23) ∧
      parse "z</i>".toList = .error r ∧
      parse ("{% if é %}x{% endif %}".toList ++ "z</i>".toList) = .error r' ∧
      r'.fault = r.fault ∧ r'.offset = 23 + r.offset := by
  have hlast : (Lexeme.ofText "{% if é %}x{% endif %}".toList).getLast? =
      some (.tag " endif ".toList) := by
    decide +kernel
  have ha : outcomeEvent (parse "{% if é %}x{% endif %}".toList) = .accepted 4 := by
    decide +kernel
  have hb : outcomeEvent (parse "<p a>y</p>".toList) = .accepted 4 := by decide +kernel
  have hc : outcomeEvent (parse "z</i>".toList) = .rejected .unexpectedClosingTag 1 := by
    decide +kernel
  obtain ⟨da, hda, hsize⟩ := outcomeEvent_eq_accepted_iff.1 ha
  obtain ⟨db, hdb, -⟩ := outcomeEvent_eq_accepted_iff.1 hb
  obtain ⟨r, hr, -⟩ := outcomeEvent_eq_rejected_iff.1 hc
  have hjoin := parse_append hda fun v => by rw [hlast]; simp
  obtain ⟨d, root, rest, root', rest', hd, hra, hrb, hrec⟩ := (hjoin _).1 db hdb
  obtain ⟨r', hr', hfault, -, -, hoff⟩ := (hjoin _).2 r hr
  refine ⟨da, db, d, r, r', hda, hlast, hdb, hd, ?_, hr, hr', hfault, hoff⟩
  have hlen : da.records.length - 1 = 3 := by rw [length_records, hsize]
  rw [hrec, hlen, hra, hrb]
  rfl

end Document

end LiquidTemplate
