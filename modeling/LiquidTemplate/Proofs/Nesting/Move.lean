import LiquidTemplate.Parse.Document
import LiquidTemplate.Proofs.Nesting.Grammar
import LiquidTemplate.Proofs.Lexeme.Construct
import LiquidTemplate.Proofs.Text.Slice

/-!
# What a token can do

Each token that is taken makes one of a few moves, and what is proved about all parses is proved
move by move. A step that finds no fault is a move (`exists_step_eq_ok_iff`); a parse makes moves up
to its end or its first fault (`State.reach`, `State.run_eq`).
-/

namespace LiquidTemplate

/-- The node of a token that opens and closes nothing; blank text has none. -/
def Token.leafNode? (t : Token) : Option Node :=
  match t.item with
  | .text value => Node.ofText? t.start value
  | .drop inner => some (.drop (.ofInner t.start inner))
  | .tag inner =>
    if Keyword.roleOf (Tag.ofInner inner).name = .inline then some (.tag (.ofInner inner) t.span)
    else none
  | .startTag head =>
    let attributes := AttributeNode.ofHead t.start head
    let position := Span.ofText t.start head.chars
    match head.voidName? with
    | some name => some (.voidElement name attributes position)
    | none =>
      if head.selfClosing then
        some (.selfClosingElement (.ofHead t.start head) attributes position)
      else none
  | .endTag _ _ => none
  | .comment body => some (.comment body t.span)
  | .doctype _ raw => some (.doctype (Text.trim raw) t.span)
  | .rawElement head body _ _ =>
    some (.rawElement head.name.chars body (AttributeNode.ofHead t.start head) t.span)
  | .rawTag opening body closing =>
    some (.rawTag (.ofInner opening) body (Tag.ofInner closing).trims t.span)
  | .invalid _ _ => none

/-- The element between its start tag and the end of its end tag. -/
def Node.ofElement (start : Nat) (head : Head) (children : List Node) (stop : Nat) : Node :=
  .element (.ofHead start head) (AttributeNode.ofHead start head) children ⟨start, stop⟩

theorem Node.ofText?_eq_none_iff {start : Nat} {value : Text} :
    Node.ofText? start value = none ↔ Text.AllBlank value := by
  simp [Node.ofText?, Text.trim_eq_nil_iff]

theorem Keyword.roleOf_of_isBranchOf {block name : Text}
    (h : Keyword.isBranchOf block name = true) : Keyword.roleOf name = .startsBranch := by
  have hbranch := Keyword.isBranchTag_of_isBranchOf h
  have hblock : Keyword.isBlockTag name = false := by
    have : ∀ n ∈ Keyword.branchTags, Keyword.isBlockTag n = false := by decide
    exact this name (List.contains_iff_mem.1 hbranch)
  simp [Keyword.roleOf, hbranch, hblock]

theorem Keyword.roleOf_eq_opensBlock_iff {name : Text} :
    Keyword.roleOf name = .opensBlock ↔ Keyword.isBlockTag name = true := by
  unfold Keyword.roleOf
  split
  · next hb => simp [hb]
  · next hb =>
    split
    · simp [hb]
    · cases Keyword.closedBy? name <;> simp [hb]

/-- What a token does to a state. -/
inductive Move (t : Token) : State → State → Prop
  | blank {s : State} {value : Text} :
    t.item = .text value → Text.AllBlank value → Move t s s
  | leaf {s : State} {n : Node} : t.leafNode? = some n → Move t s (s.append n)
  | openElement {s : State} {head : Head} :
    t.item = .startTag head → head.opens = true → Move t s (s.push (.element t.start head))
  | closeElement {siblings outer : List Node} {frames : List Frame} {start : Nat} {head : Head}
      {name : TagName} {gap : Text} :
    t.item = .endTag name gap → head.name.key = name.key →
      Move t ⟨siblings, ⟨.element start head, outer⟩ :: frames⟩
        ⟨.ofElement start head siblings.reverse t.stop :: outer, frames⟩
  | openBlock {s : State} {inner : Text} :
    t.item = .tag inner → Keyword.roleOf (Tag.ofInner inner).name = .opensBlock →
      Move t s (s.push (.block t.start (.ofInner inner) [] none t.stop))
  | startBranch {siblings outer : List Node} {frames : List Frame} {start branchStart : Nat}
      {block : Tag} {branches : List Branch} {label : Option Tag} {inner : Text} :
    t.item = .tag inner → Keyword.isBranchOf block.name (Tag.ofInner inner).name = true →
      Move t ⟨siblings, ⟨.block start block branches label branchStart, outer⟩ :: frames⟩
        ⟨[], ⟨.block start block (.mk label siblings.reverse ⟨branchStart, t.start⟩ :: branches)
          (some (.ofInner inner)) t.start, outer⟩ :: frames⟩
  | closeBlock {siblings outer : List Node} {frames : List Frame} {start branchStart : Nat}
      {block : Tag} {branches : List Branch} {label : Option Tag} {inner : Text} :
    t.item = .tag inner → Keyword.roleOf (Tag.ofInner inner).name = .closes block.name →
      Move t ⟨siblings, ⟨.block start block branches label branchStart, outer⟩ :: frames⟩
        ⟨.block block (.mk label siblings.reverse ⟨branchStart, t.start⟩ :: branches).reverse
          (Tag.ofInner inner).trims ⟨start, t.stop⟩ :: outer, frames⟩

/-- An invalid token does nothing. -/
theorem Move.isInvalid_eq_false {t : Token} {s s' : State} (h : Move t s s') :
    t.item.isInvalid = false := by
  cases h with
  | leaf hn =>
    obtain ⟨start, item⟩ := t
    cases item with
    | invalid flaw rest => cases hn
    | _ => rfl
  | blank ht _ => rw [ht]; rfl
  | openElement ht _ => rw [ht]; rfl
  | closeElement ht _ => rw [ht]; rfl
  | openBlock ht _ => rw [ht]; rfl
  | startBranch ht _ => rw [ht]; rfl
  | closeBlock ht _ => rw [ht]; rfl

namespace State

section

variable {s s' : State} {t : Token} {e : Option Event}

theorem move_of_append {n : Node} (hn : t.leafNode? = some n)
    (h : (s.append n).quietly = .ok (s', e)) : Move t s s' := by
  cases h
  exact .leaf hn

theorem move_of_startTag {head : Head} (ht : t.item = .startTag head)
    (h : s.startTag t.start head = .ok (s', e)) : Move t s s' := by
  simp only [startTag] at h
  split at h
  · next name hv => exact move_of_append (by simp [Token.leafNode?, ht, hv]) h
  · next hv =>
    split at h
    · next hc => exact move_of_append (by simp [Token.leafNode?, ht, hv, hc]) h
    · next hc =>
      cases h
      exact .openElement ht (by simp [Head.opens, hv, hc])

theorem move_of_endTag {name : TagName} {gap : Text} (ht : t.item = .endTag name gap)
    (h : s.endTag name.key t.span = .ok (s', e)) : Move t s s' := by
  obtain ⟨siblings, frames⟩ := s
  match frames with
  | [] => cases h
  | ⟨.element start head, outer⟩ :: frames =>
    simp only [endTag] at h
    split at h
    · next hk =>
      cases h
      exact .closeElement ht hk
    · cases h
  | ⟨.block _ _ _ _ _, _⟩ :: _ => cases h

theorem move_of_startBranch {inner : Text} (ht : t.item = .tag inner)
    (h : s.startBranch (.ofInner inner) t.span = .ok (s', e)) : Move t s s' := by
  obtain ⟨siblings, frames⟩ := s
  match frames with
  | [] => cases h
  | ⟨.element _ _, _⟩ :: _ => cases h
  | ⟨.block _ block _ _ _, _⟩ :: _ =>
    simp only [startBranch] at h
    split at h
    · next hb =>
      cases h
      exact .startBranch ht hb
    · cases h

theorem move_of_endBlock {inner name : Text} (ht : t.item = .tag inner)
    (hr : Keyword.roleOf (Tag.ofInner inner).name = .closes name)
    (h : s.endBlock name (.ofInner inner) t.span = .ok (s', e)) : Move t s s' := by
  obtain ⟨siblings, frames⟩ := s
  match frames with
  | [] => cases h
  | ⟨.element _ _, _⟩ :: _ => cases h
  | ⟨.block _ block _ _ _, _⟩ :: _ =>
    simp only [endBlock] at h
    split at h
    · next hn =>
      cases h
      exact .closeBlock ht (hn ▸ hr)
    · cases h

theorem move_of_liquidTag {inner : Text} (ht : t.item = .tag inner)
    (h : s.liquidTag (.ofInner inner) t.span = .ok (s', e)) : Move t s s' := by
  simp only [liquidTag] at h
  split at h
  · next hr =>
    cases h
    exact .openBlock ht hr
  · exact move_of_startBranch ht h
  · next hr => exact move_of_endBlock ht hr h
  · next hr => exact move_of_append (by simp [Token.leafNode?, ht, hr]) h

theorem move_of_step (h : s.step t = .ok (s', e)) : Move t s s' := by
  obtain ⟨start, item⟩ := t
  cases item with
  | text value =>
    simp only [step] at h
    split at h
    · next hn => exact move_of_append hn h
    · next hn =>
      cases h
      exact .blank rfl (Node.ofText?_eq_none_iff.1 hn)
  | drop inner => exact move_of_append rfl h
  | tag inner => exact move_of_liquidTag rfl h
  | startTag head => exact move_of_startTag rfl h
  | endTag name gap => exact move_of_endTag rfl h
  | comment body => exact move_of_append rfl h
  | doctype keyword raw => exact move_of_append rfl h
  | rawElement head body closeName closeRest => exact move_of_append rfl h
  | rawTag opening body closing => exact move_of_append rfl h
  | invalid flaw rest => cases h

theorem step_of_leafNode? {n : Node} (h : t.leafNode? = some n) :
    s.step t = (s.append n).quietly := by
  obtain ⟨start, item⟩ := t
  cases item with
  | text value => simp only [step, show Node.ofText? start value = some n from h]
  | tag inner =>
    simp only [Token.leafNode?, Option.ite_none_right_eq_some, Option.some.injEq] at h
    obtain ⟨hr, rfl⟩ := h
    simp only [step, liquidTag, hr]
  | startTag head =>
    simp only [Token.leafNode?] at h
    simp only [step, startTag]
    rcases Option.eq_none_or_eq_some head.voidName? with hv | ⟨name, hv⟩
    · simp only [hv, Option.ite_none_right_eq_some, Option.some.injEq] at h ⊢
      obtain ⟨hc, rfl⟩ := h
      exact if_pos hc
    · simp only [hv, Option.some.injEq] at h ⊢
      rw [h]
  | endTag _ _ => cases h
  | invalid _ _ => cases h
  | drop inner => cases h; rfl
  | comment body => cases h; rfl
  | doctype keyword raw => cases h; rfl
  | rawElement head body closeName closeRest => cases h; rfl
  | rawTag opening body closing => cases h; rfl

theorem step_of_blank {value : Text} (ht : t.item = .text value) (hv : Text.AllBlank value) :
    s.step t = s.quietly := by
  simp [step, ht, Node.ofText?_eq_none_iff.2 hv]

theorem step_of_opens {head : Head} (ht : t.item = .startTag head) (ho : head.opens = true) :
    s.step t =
      .ok (s.push (.element t.start head), some (.openedElement head.name.key t.start)) := by
  simp only [Head.opens, Bool.and_eq_true, Option.isNone_iff_eq_none, Bool.not_eq_true'] at ho
  simp [step, ht, startTag, ho.1, ho.2]

theorem step_of_opensBlock {inner : Text} (ht : t.item = .tag inner)
    (hr : Keyword.roleOf (Tag.ofInner inner).name = .opensBlock) :
    s.step t = .ok (s.push (.block t.start (.ofInner inner) [] none t.stop),
      some (.openedBlock (Tag.ofInner inner).name t.start)) := by
  simp [step, ht, liquidTag, hr, Token.span]

section Innermost

variable {siblings outer : List Node} {frames : List Frame} {start branchStart : Nat}
  {block : Tag} {branches : List Branch} {label : Option Tag} {inner : Text}

theorem step_of_endTag {head : Head} {name : TagName} {gap : Text}
    (ht : t.item = .endTag name gap) (hk : head.name.key = name.key) :
    step ⟨siblings, ⟨.element start head, outer⟩ :: frames⟩ t =
      .ok (⟨.ofElement start head siblings.reverse t.stop :: outer, frames⟩,
        some (.closedElement name.key t.start)) := by
  simp [step, ht, endTag, hk, Node.ofElement, Token.span]

theorem step_of_isBranchOf (ht : t.item = .tag inner)
    (hb : Keyword.isBranchOf block.name (Tag.ofInner inner).name = true) :
    step ⟨siblings, ⟨.block start block branches label branchStart, outer⟩ :: frames⟩ t =
      .ok (⟨[], ⟨.block start block (.mk label siblings.reverse ⟨branchStart, t.start⟩ :: branches)
          (some (.ofInner inner)) t.start, outer⟩ :: frames⟩,
        some (.startedBranch (Tag.ofInner inner).name block.name t.start)) := by
  have hr := Keyword.roleOf_of_isBranchOf hb
  simp [step, ht, liquidTag, hr, startBranch, hb, finishBranch, Token.span]

theorem step_of_closes (ht : t.item = .tag inner)
    (hr : Keyword.roleOf (Tag.ofInner inner).name = .closes block.name) :
    step ⟨siblings, ⟨.block start block branches label branchStart, outer⟩ :: frames⟩ t =
      .ok (⟨.block block (.mk label siblings.reverse ⟨branchStart, t.start⟩ :: branches).reverse
          (Tag.ofInner inner).trims ⟨start, t.stop⟩ :: outer, frames⟩,
        some (.closedBlock block.name t.start)) := by
  simp [step, ht, liquidTag, hr, endBlock, finishBranch, Token.span]

end Innermost

/-- A step finds no fault exactly if it is a move. -/
theorem exists_step_eq_ok_iff : (∃ e, s.step t = .ok (s', e)) ↔ Move t s s' := by
  constructor
  · rintro ⟨e, h⟩
    exact move_of_step h
  · intro h
    cases h with
    | blank ht hv => exact ⟨none, step_of_blank ht hv⟩
    | leaf hn => exact ⟨none, step_of_leafNode? hn⟩
    | openElement ht ho => exact ⟨_, step_of_opens ht ho⟩
    | closeElement ht hk => exact ⟨_, step_of_endTag ht hk⟩
    | openBlock ht hr => exact ⟨_, step_of_opensBlock ht hr⟩
    | startBranch ht hb => exact ⟨_, step_of_isBranchOf ht hb⟩
    | closeBlock ht hr => exact ⟨_, step_of_closes ht hr⟩

end

/-! ## Runs -/

/-- The state behind the tokens, or the first fault and where it is. -/
def reach (s : State) : List Token → Except (Fault × Nat) State
  | [] => .ok s
  | t :: ts =>
    match s.step t with
    | .ok (s', _) => s'.reach ts
    | .error fault => .error (fault, t.start)

theorem run_eq (s : State) (events : List Event) (ts : List Token) :
    (s.run events ts).2 = match s.reach ts with
      | .ok s' => s'.finish
      | .error fault => .error fault := by
  induction ts generalizing s events with
  | nil => rfl
  | cons t ts ih =>
    cases h : s.step t with
    | error fault => simp [run, reach, h]
    | ok result =>
      obtain ⟨s', event⟩ := result
      cases event <;> simp [run, reach, h, ih]

theorem reach_append (s : State) (ts us : List Token) :
    s.reach (ts ++ us) = match s.reach ts with
      | .ok s' => s'.reach us
      | .error fault => .error fault := by
  induction ts generalizing s with
  | nil => rfl
  | cons t ts ih =>
    cases h : s.step t with
    | error fault => simp [reach, h]
    | ok result => simp [reach, h, ih]

theorem reach_cons_of_move {s s' : State} {t : Token} (h : Move t s s') (ts : List Token) :
    s.reach (t :: ts) = s'.reach ts := by
  obtain ⟨e, h⟩ := exists_step_eq_ok_iff.2 h
  simp only [reach, h]

/-- Text adds its node, if it has one, to the innermost container. -/
theorem reach_text_cons (s : State) (start : Nat) (value : Text) (ts : List Token) :
    s.reach (⟨start, .text value⟩ :: ts) =
      reach { s with siblings := (Node.ofText? start value).toList ++ s.siblings } ts := by
  cases hn : Node.ofText? start value with
  | none => simp [reach, step, hn, quietly]
  | some n => simp [reach, step, hn, quietly, append]

/-- Whatever every move preserves is preserved by a run; `P` may speak about the tokens so far. -/
theorem reach_induction {P : List Token → State → Prop} {s s' : State} {ts us : List Token}
    (hs : P ts s) (hstep : ∀ {ts t s s'}, P ts s → Move t s s' → P (ts ++ [t]) s')
    (h : s.reach us = .ok s') : P (ts ++ us) s' := by
  induction us generalizing s ts with
  | nil => cases h; simpa using hs
  | cons t us ih =>
    simp only [reach] at h
    split at h
    · next s₁ e hst =>
      have := ih (hstep hs (move_of_step hst)) h
      rwa [List.append_assoc] at this
    · cases h

theorem isInvalid_eq_false_of_reach {s s' : State} {ts : List Token} (h : s.reach ts = .ok s') :
    ∀ t ∈ ts, t.item.isInvalid = false :=
  reach_induction (P := fun ts _ => ∀ t ∈ ts, t.item.isInvalid = false) (List.forall_mem_nil _)
    (fun hts hm u hu => by
      rcases List.mem_append.1 hu with hu | hu
      · exact hts u hu
      · rw [List.mem_singleton.1 hu]
        exact hm.isInvalid_eq_false) h

end State

namespace Document

/-- A template is accepted if no token is a fault and nothing is open at the end. -/
theorem parse_eq_ok_iff {source : Text} {d : Document} :
    parse source = .ok d ↔
      ∃ nodes, State.initial.reach (Token.ofText source) = .ok ⟨nodes, []⟩ ∧
        d = ⟨source, nodes.reverse⟩ := by
  simp only [parse, run, State.run_eq]
  cases h : State.initial.reach (Token.ofText source) with
  | error fault => simp [ofOutcome]
  | ok s =>
    obtain ⟨siblings, frames⟩ := s
    cases frames with
    | nil => simp [State.finish, ofOutcome, eq_comm]
    | cons frame frames => simp [State.finish, List.getLast?_cons, ofOutcome]

end Document

end LiquidTemplate
