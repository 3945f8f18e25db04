import LiquidTemplate.Proofs.Trace.Emitted
import LiquidTemplate.Proofs.Coverage.Containers
import LiquidTemplate.Proofs.Coverage.Order
import LiquidTemplate.Proofs.Arena.PostOrder

/-!
# The log of a parse and its tree

The lines about a node are read off the tree (`Node.reports?`): an element or a block is opened
where it starts, then come the lines of its children, branch by branch, and then it is closed. The
tree does not say where an end tag starts, so that is looked up in the tokens. A parse writes
exactly the lines of the nodes that it builds, in their order, however it comes to them
(`Nesting.SequenceTree.emitted`, `Document.trace_mirrors`).
-/

namespace LiquidTemplate

def Lexeme.isEndTag : Lexeme → Bool
  | endTag _ _ => true
  | _ => false

/-- The end tag of an element that ends at `stop`. -/
def Token.endTagAt? (ts : List Token) (stop : Nat) : Option Token :=
  ts.find? fun t => t.item.isEndTag && t.stop == stop

section Lines

variable (ts : List Token)

mutual

/-- The lines about a node of a template with these tokens. -/
def Node.reports? : Node → Option (List Report)
  | .element name _ children position => do
    let inside ← Node.reportsAll? children
    let endTag ← Token.endTagAt? ts position.stop
    some (.openElement name.shown position.start ::
      inside ++ [.closeElement name.shown endTag.start])
  | .block tag branches _ position => do
    let inside ← Branch.reportsAll? tag.name branches
    let last ← branches.getLast?
    some (.openBlock tag.name position.start ::
      inside ++ [.closeBlock tag.name last.position.stop])
  | .text _ _ | .drop _ | .tag _ _ | .comment _ _ | .doctype _ _ | .rawTag _ _ _ _
  | .rawElement _ _ _ _ | .voidElement _ _ _ | .selfClosingElement _ _ _ => some []

def Node.reportsAll? : List Node → Option (List Report)
  | [] => some []
  | n :: ns => do
    let first ← n.reports?
    let rest ← Node.reportsAll? ns
    some (first ++ rest)

/-- The lines inside a block. Its first branch is not reported. -/
def Branch.reportsAll? (block : Text) : List Branch → Option (List Report)
  | [] => none
  | .mk _ children _ :: later => do
    let inside ← Node.reportsAll? children
    let rest ← Branch.reportsLater? block later
    some (inside ++ rest)

def Branch.reportsLater? (block : Text) : List Branch → Option (List Report)
  | [] => some []
  | .mk label children position :: later => do
    let tag ← label
    let inside ← Node.reportsAll? children
    let rest ← Branch.reportsLater? block later
    some (.branch tag.name block position.start :: inside ++ rest)

end

end Lines

/-- The lines about the nodes of a document. -/
def Document.reports? (d : Document) : Option (List Report) :=
  Node.reportsAll? (Token.ofText d.source) d.children

/-! ## Lookup -/

/-- Every end tag of a template is found again from where it ends. -/
theorem Token.endTagAt?_stop {source : Text} {t : Token} (h : t ∈ ofText source)
    (ht : t.item.isEndTag = true) : endTagAt? (ofText source) t.stop = some t := by
  obtain ⟨ts, us, hts⟩ := List.append_of_mem h
  have hlt : t.start < t.stop := by
    refine start_lt_stop ?_
    cases hl : t.item with
    | endTag _ _ => rfl
    | _ => rw [hl] at ht; cases ht
  have hfront : endTagAt? ts t.stop = none := by
    refine List.find?_eq_none.2 fun u hu hfound => ?_
    have hle := (ofText_around hts).1 u hu
    simp only [Bool.and_eq_true, beq_iff_eq] at hfound
    omega
  rw [endTagAt?] at hfront ⊢
  rw [hts, List.find?_append, hfront, Option.none_or,
    List.find?_cons_of_pos (by simp [ht])]

/-! ## Nodes -/

section

variable {ts : List Token}

theorem Node.reportsAll?_append {ns ms : List Node} {es fs : List Report}
    (hn : Node.reportsAll? ts ns = some es) (hm : Node.reportsAll? ts ms = some fs) :
    Node.reportsAll? ts (ns ++ ms) = some (es ++ fs) := by
  induction ns generalizing es with
  | nil => cases hn; exact hm
  | cons n ns ih =>
    simp only [Node.reportsAll?, Option.bind_eq_bind, Option.bind_eq_some_iff,
      Option.some.injEq] at hn
    obtain ⟨first, hfirst, rest, hrest, rfl⟩ := hn
    simp [Node.reportsAll?, hfirst, ih hrest]

theorem Node.reportsAll?_singleton {n : Node} {es : List Report} (h : n.reports? ts = some es) :
    Node.reportsAll? ts [n] = some es := by
  simp [Node.reportsAll?, h]

theorem Node.reports?_of_containers {n : Node} (h : n.containers = []) :
    n.reports? ts = some [] := by
  cases n with
  | element _ _ _ _ => cases h
  | block _ _ _ _ => cases h
  | _ => rw [Node.reports?]

/-- A later branch is reported where it starts. -/
theorem Branch.reportsLater?_cons {block : Text} {tag : Tag} {children : List Node}
    {position : Span} {later : List Branch} {es : List Report}
    (h : Branch.reportsAll? ts block (.mk (some tag) children position :: later) = some es) :
    Branch.reportsLater? ts block (.mk (some tag) children position :: later) =
      some (.branch tag.name block position.start :: es) := by
  simp only [Branch.reportsAll?, Option.bind_eq_bind, Option.bind_eq_some_iff,
    Option.some.injEq] at h
  obtain ⟨inside, hinside, rest, hrest, rfl⟩ := h
  simp [Branch.reportsLater?, hinside, hrest]

end

/-! ## Derivations -/

namespace Nesting

/-- Branches start with the one under way and end where the last one does. -/
theorem BranchTrees.first_last {name : Text} {label : Option Tag} {start stop : Nat}
    {ts : List Token} {branches : List Branch} (h : BranchTrees name label start ts stop branches) :
    (∃ ns stop' later, branches = .mk label ns ⟨start, stop'⟩ :: later) ∧
      ∃ last, branches.getLast? = some last ∧ last.position.stop = stop := by
  induction h using BranchTrees.rec (motive_1 := fun _ _ _ => True)
    (motive_2 := fun _ _ _ => True) with
  | last _ _ => exact ⟨⟨_, _, [], rfl⟩, _, rfl, rfl⟩
  | more _ _ _ _ _ ih =>
    obtain ⟨⟨_, _, _, hfirst⟩, last, hlast, hstop⟩ := ih
    refine ⟨⟨_, _, _, rfl⟩, last, ?_, hstop⟩
    rw [hfirst] at hlast ⊢
    rwa [List.getLast?_cons_cons]
  | _ => trivial

variable {all : List Token}

mutual

/-- A run writes the lines of the nodes that it builds. -/
theorem SequenceTree.emitted : ∀ {ts : List Token} {ns : List Node}, SequenceTree ts ns →
    (∀ t ∈ ts, t.item.isEndTag = true → Token.endTagAt? all t.stop = some t) →
    ∃ reports, Node.reportsAll? all ns = some reports ∧
      ∀ s : State, (s.emitted ts).map Event.report = reports
  | _, _, .empty, _ => ⟨[], rfl, fun _ => rfl⟩
  | _, _, .cons hi ht, hall => by
    obtain ⟨hall₁, hall₂⟩ := List.forall_mem_append.1 hall
    obtain ⟨es, hes, hemit⟩ := hi.emitted hall₁
    obtain ⟨fs, hfs, hemit'⟩ := ht.emitted hall₂
    refine ⟨es ++ fs, Node.reportsAll?_append hes hfs, fun s => ?_⟩
    rw [State.emitted_append (hi.reach s), List.map_append, hemit, hemit']

theorem ItemTree.emitted : ∀ {ts : List Token} {ns : List Node}, ItemTree ts ns →
    (∀ t ∈ ts, t.item.isEndTag = true → Token.endTagAt? all t.stop = some t) →
    ∃ reports, Node.reportsAll? all ns = some reports ∧
      ∀ s : State, (s.emitted ts).map Event.report = reports
  | _, _, .blank ht hv, _ =>
    ⟨[], rfl, fun _ => by rw [State.emitted_cons (State.step_of_blank ht hv)]; rfl⟩
  | _, _, .leaf hn, _ =>
    ⟨[], Node.reportsAll?_singleton (Node.reports?_of_containers (leafNode?_cases hn).1),
      fun _ => by rw [State.emitted_cons (State.step_of_leafNode? hn)]; rfl⟩
  | _, _, @ItemTree.element t t' head name _ _ _ ht ho hts ht' hk, hall => by
    obtain ⟨hall, hlast⟩ := List.forall_mem_append.1 hall
    obtain ⟨es, hes, hemit⟩ := hts.emitted (List.forall_mem_cons.1 hall).2
    have hend := hlast t' (List.mem_singleton_self t') (by rw [ht']; rfl)
    refine ⟨.openElement (ElementName.ofHead t.start head).shown t.start :: es ++
        [.closeElement (ElementName.ofHead t.start head).shown t'.start],
      Node.reportsAll?_singleton ?_, fun s => ?_⟩
    · rw [Node.ofElement, Node.reports?, hes, hend]
      rfl
    · rw [List.cons_append, State.emitted_cons (State.step_of_opens ht ho), State.push,
        State.emitted_append (hts.reach _), State.emitted_cons (State.step_of_endTag ht' hk),
        List.map_append, List.map_append, hemit, ← hk, ElementName.shown_ofHead]
      rfl
  | _, _, @ItemTree.block t t' inner _ _ _ ht hr hts ht' hr', hall => by
    obtain ⟨hall, -⟩ := List.forall_mem_append.1 hall
    obtain ⟨es, hes, hemit⟩ := hts.emitted (List.forall_mem_cons.1 hall).2
    obtain ⟨-, last, hlast, hstop⟩ := hts.first_last
    refine ⟨.openBlock (Tag.ofInner inner).name t.start :: es ++
      [.closeBlock (Tag.ofInner inner).name t'.start], Node.reportsAll?_singleton ?_, fun s => ?_⟩
    · rw [Node.reports?, hes, hlast, ← hstop]
      rfl
    · obtain ⟨siblings, done, label, start, hreach, -⟩ :=
        hts.reach rfl s.siblings s.frames t.start []
      rw [List.cons_append, State.emitted_cons (State.step_of_opensBlock ht hr), State.push,
        State.emitted_append hreach, State.emitted_cons (State.step_of_closes ht' hr'),
        List.map_append, List.map_append, hemit rfl]
      rfl

theorem BranchTrees.emitted : ∀ {name : Text} {label : Option Tag} {start stop : Nat}
    {ts : List Token} {branches : List Branch}, BranchTrees name label start ts stop branches →
    (∀ t ∈ ts, t.item.isEndTag = true → Token.endTagAt? all t.stop = some t) →
    ∃ reports, Branch.reportsAll? all name branches = some reports ∧
      ∀ {block : Tag}, block.name = name → ∀ {outer : List Node} {frames : List Frame}
        {first : Nat} {done : List Branch},
      (State.emitted ⟨[], ⟨.block first block done label start, outer⟩ :: frames⟩ ts).map
        Event.report = reports
  | _, _, _, _, _, _, .last hts, hall => by
    obtain ⟨es, hes, hemit⟩ := hts.emitted hall
    exact ⟨es, by simp [Branch.reportsAll?, Branch.reportsLater?, hes], fun _ => hemit _⟩
  | _, _, _, _, _, _, @BranchTrees.more name _ _ _ t inner _ _ _ _ hts ht hb hbs, hall => by
    obtain ⟨hall, hlater⟩ := List.forall_mem_append.1 hall
    obtain ⟨es, hes, hemit⟩ := hts.emitted hall
    obtain ⟨fs, hfs, hemit'⟩ := hbs.emitted (List.forall_mem_cons.1 hlater).2
    obtain ⟨⟨_, _, _, rfl⟩, -⟩ := hbs.first_last
    refine ⟨es ++ .branch (Tag.ofInner inner).name name t.start :: fs, ?_, ?_⟩
    · simp [Branch.reportsAll?, Branch.reportsLater?_cons hfs, hes]
    · rintro block rfl outer frames first done
      rw [State.emitted_append (hts.reach _), List.map_append, hemit,
        State.emitted_cons (State.step_of_isBranchOf ht hb), List.map_append, hemit' rfl]
      rfl

end

end Nesting

namespace Document

/-- **The log mirrors the tree**: when a template is accepted, the log is the first line, the lines
about its nodes in order, which leave nothing open, and the line with the number of its nodes. When
it is rejected the last line is the rejection, and up to there every construct that is closed is the
innermost open one, under the name it was opened with, as is every block that has a branch. -/
theorem trace_mirrors (source : Text) :
    (∀ d, parse source = .ok d → ∃ reports, d.reports? = some reports ∧
      Report.Nest [] reports [] ∧
      log source = .parsing (Text.size source) :: reports ++ [.parsed d.records.length]) ∧
    ∀ r, parse source = .error r → ∃ reports opened, Report.Nest [] reports opened ∧
      log source =
        .parsing (Text.size source) :: reports ++ [.rejecting r.fault.kind r.offset] := by
  obtain ⟨s, hnest, hreach⟩ := State.initial.exists_nest_emitted (Token.ofText source)
  refine ⟨fun d h => ?_, fun r h => ?_⟩
  · obtain ⟨rfl, htree⟩ := parse_eq_ok_iff_sequenceTree.1 h
    obtain ⟨reports, hreports, hemit⟩ := htree.emitted fun t => Token.endTagAt?_stop
    obtain rfl := hreach _ (htree.reach State.initial)
    rw [hemit] at hnest
    refine ⟨reports, hreports, hnest, ?_⟩
    rw [log_eq_emitted, hemit, h, outcomeEvent, Event.report_eq, length_records]
  · exact ⟨_, _, hnest, by rw [log_eq_emitted, h, outcomeEvent, Event.report_eq]⟩

/-- Branches with a dynamic element in one, and an element that is closed inside a block. -/
theorem trace_mirrors_branches :
    ∃ d r opened,
      parse "<a>{% if x %}y{% else %}<{{ n }}>z</{{n}}>{% endif %}</a>".toList = .ok d ∧
      d.reports? = some
        [.openElement "a".toList 0, .openBlock "if".toList 3,
          .branch "else".toList "if".toList 14, .openElement "{{ n }}".toList 24,
          .closeElement "{{ n }}".toList 34, .closeBlock "if".toList 42,
          .closeElement "a".toList 53] ∧
      d.records.length = 9 ∧
      parse "<a>{% if x %}</a>".toList = .error r ∧
      Report.Nest [] [.openElement "a".toList 0, .openBlock "if".toList 3] opened ∧
      r.fault.kind = .mismatchedClosingTag ∧ r.offset = 13 := by
  have haccepted :
      outcomeEvent (parse "<a>{% if x %}y{% else %}<{{ n }}>z</{{n}}>{% endif %}</a>".toList) =
        .accepted 9 := by decide +kernel
  have hlog : log "<a>{% if x %}y{% else %}<{{ n }}>z</{{n}}>{% endif %}</a>".toList =
      .parsing 57 :: [.openElement "a".toList 0, .openBlock "if".toList 3,
        .branch "else".toList "if".toList 14, .openElement "{{ n }}".toList 24,
        .closeElement "{{ n }}".toList 34, .closeBlock "if".toList 42,
        .closeElement "a".toList 53] ++ [.parsed 9] := by decide +kernel
  have hrejected : outcomeEvent (parse "<a>{% if x %}</a>".toList) =
      .rejected .mismatchedClosingTag 13 := by decide +kernel
  have hlog' : log "<a>{% if x %}</a>".toList =
      .parsing 17 :: [.openElement "a".toList 0, .openBlock "if".toList 3] ++
        [.rejecting .mismatchedClosingTag 13] := by decide +kernel
  obtain ⟨d, hd, hsize⟩ := outcomeEvent_eq_accepted_iff.1 haccepted
  obtain ⟨r, hr, hkind, hoffset⟩ := outcomeEvent_eq_rejected_iff.1 hrejected
  obtain ⟨reports, hreports, -, htrace⟩ := (trace_mirrors _).1 d hd
  obtain ⟨reports', opened, hnest, htrace'⟩ := (trace_mirrors _).2 r hr
  rw [length_records, hsize] at htrace
  rw [hkind, hoffset] at htrace'
  obtain ⟨-, rfl⟩ := List.cons.inj (List.append_cancel_right (htrace.symm.trans hlog))
  obtain ⟨-, rfl⟩ := List.cons.inj (List.append_cancel_right (htrace'.symm.trans hlog'))
  exact ⟨d, r, opened, hd, hreports, by rw [length_records, hsize], hr, hnest, hkind, hoffset⟩

end Document

end LiquidTemplate
