import LiquidTemplate.Proofs.Trace.Log
import LiquidTemplate.Proofs.Nesting.Move

/-!
# What a parse reports

`State.emitted` lists the events of a run of tokens in order, so a log is the start of the parse,
the lines of its tokens and its outcome (`Document.log_eq_emitted`). The lines nest, and what they
leave open is what the parse has open, also up to a fault (`State.exists_nest_emitted`).
-/

namespace LiquidTemplate

/-- The construct as the log names it. -/
def Opener.opened : Opener → Report.Opened
  | element _ head => .element head.name.key.chars
  | block _ tag _ _ _ => .block tag.name

namespace State

/-- What is open, innermost first. -/
def opened (s : State) : List Report.Opened := s.frames.map fun f => f.opener.opened

/-- The events of a run, first one first. -/
def emitted (s : State) : List Token → List Event
  | [] => []
  | t :: ts =>
    match s.step t with
    | .ok (s', e) => e.toList ++ s'.emitted ts
    | .error _ => []

variable {s s' : State} {t : Token} {e : Option Event}

theorem emitted_cons (h : s.step t = .ok (s', e)) (ts : List Token) :
    s.emitted (t :: ts) = e.toList ++ s'.emitted ts := by
  simp only [emitted, h]

theorem emitted_append {ts : List Token} (h : s.reach ts = .ok s') (us : List Token) :
    s.emitted (ts ++ us) = s.emitted ts ++ s'.emitted us := by
  induction ts generalizing s with
  | nil => cases h; rfl
  | cons t ts ih =>
    simp only [reach] at h
    split at h
    · next s₁ e hst =>
      rw [List.cons_append, emitted_cons hst, emitted_cons hst, ih h, List.append_assoc]
    · cases h

/-- A run keeps its events in reverse. -/
theorem run_fst (s : State) (events : List Event) (ts : List Token) :
    (s.run events ts).1 = (s.emitted ts).reverse ++ events := by
  induction ts generalizing s events with
  | nil => rfl
  | cons t ts ih =>
    cases h : s.step t with
    | error fault => simp [run, emitted, h]
    | ok result =>
      obtain ⟨s', e⟩ := result
      cases e <;> simp [run, emitted, h, ih]

/-! ## Nesting -/

/-- The line of a step fits what is open, and so does what it leaves open. -/
theorem nest_of_step (h : s.step t = .ok (s', e)) {rest : List Report}
    {last : List Report.Opened} (hrest : Report.Nest s'.opened rest last) :
    Report.Nest s.opened (e.toList.map Event.report ++ rest) last := by
  cases move_of_step h with
  | blank ht hv =>
    cases h.symm.trans (step_of_blank ht hv)
    exact hrest
  | leaf hn =>
    cases h.symm.trans (step_of_leafNode? hn)
    exact hrest
  | openElement ht ho =>
    cases h.symm.trans (step_of_opens ht ho)
    exact .openElement _ _ hrest
  | closeElement ht hk =>
    cases h.symm.trans (step_of_endTag ht hk)
    rw [← hk]
    exact .closeElement _ _ hrest
  | openBlock ht hr =>
    cases h.symm.trans (step_of_opensBlock ht hr)
    exact .openBlock _ _ hrest
  | startBranch ht hb =>
    cases h.symm.trans (step_of_isBranchOf ht hb)
    exact .branch _ hb hrest
  | closeBlock ht hr =>
    cases h.symm.trans (step_of_closes ht hr)
    exact .closeBlock _ _ hrest

/-- The lines of a run nest, also where it ends in a fault. -/
theorem exists_nest_emitted (s : State) (ts : List Token) :
    ∃ s' : State, Report.Nest s.opened ((s.emitted ts).map Event.report) s'.opened ∧
      ∀ s₁, s.reach ts = .ok s₁ → s₁ = s' := by
  induction ts generalizing s with
  | nil => exact ⟨s, .done _, fun s₁ h => (Except.ok.inj h).symm⟩
  | cons t ts ih =>
    cases h : s.step t with
    | error fault =>
      refine ⟨s, by simpa only [emitted, h] using .done _, fun s₁ hs₁ => ?_⟩
      simp only [reach, h] at hs₁
      cases hs₁
    | ok result =>
      obtain ⟨s₁, e⟩ := result
      obtain ⟨s', hs', hreach⟩ := ih s₁
      refine ⟨s', ?_, by simpa only [reach, h] using hreach⟩
      rw [emitted_cons h, List.map_append]
      exact nest_of_step h hs'

end State

namespace Document

theorem log_eq_emitted (source : Text) :
    log source = .parsing (Text.size source) ::
      (State.initial.emitted (Token.ofText source)).map Event.report ++
        [(outcomeEvent (parse source)).report] := by
  rw [log, trace_eq, run, State.run_fst, List.reverse_append, List.reverse_reverse,
    List.map_append, List.map_append]
  rfl

end Document

end LiquidTemplate
