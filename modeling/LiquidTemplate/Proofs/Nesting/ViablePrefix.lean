import LiquidTemplate.Proofs.Nesting.Closing

/-!
# Faults are found as early as they can be

What stands in front of the token that a rejection points at is the beginning of some template that
is accepted, so no earlier token was at fault. On its own it is accepted, or it lacks no more than
end tags.
-/

namespace LiquidTemplate

/-- The text in front of a token. -/
theorem Token.slice?_covered {source : Text} {ts us : List Token} {t : Token}
    (h : ofText source = ts ++ t :: us) :
    Text.slice? source ⟨0, t.start⟩ = some (covered ts) := by
  obtain ⟨-, hstart, -⟩ := contiguous_of_ofText h
  refine Text.slice?_eq_some_iff.2
    ⟨[], covered (t :: us), source_of_ofText h, rfl, hstart.trans (Nat.zero_add _).symm⟩

namespace State

theorem reach_eq_error {s : State} {ts : List Token} {fault : Fault} {offset : Nat}
    (h : s.reach ts = .error (fault, offset)) :
    ∃ done t rest s', ts = done ++ t :: rest ∧ s.reach done = .ok s' ∧
      s'.step t = .error fault ∧ t.start = offset := by
  induction ts generalizing s with
  | nil => cases h
  | cons t ts ih =>
    simp only [reach] at h
    split at h
    · next s₁ e hs =>
      obtain ⟨done, u, rest, s', rfl, hr, hf, ho⟩ := ih h
      refine ⟨t :: done, u, rest, s', rfl, ?_, hf, ho⟩
      simp only [reach, hs, hr]
    · next hs =>
      cases h
      exact ⟨[], t, ts, s, rfl, rfl, hs, rfl⟩

end State

/-- What the fault of a token says of the constructs that are open. -/
def Fault.AgreesWith (frames : List Frame) : Fault → Prop
  | unopened _ | strayBranch _ => frames = []
  | mismatched _ _ | branchOfElement _ _ | branchOfBlock _ _ => frames ≠ []
  | flaw _ => True
  | unclosed _ => False

namespace Fault.AgreesWith

variable {frames : List Frame} {fault : Fault}

theorem eq_nil (h : fault.AgreesWith frames) (hk : fault.kind = .unexpectedClosingTag) :
    frames = [] := by
  cases fault with
  | unopened found => exact h
  | flaw flaw => cases flaw <;> cases hk
  | _ => cases hk

theorem ne_nil (h : fault.AgreesWith frames) (hk : fault.kind = .mismatchedClosingTag) :
    frames ≠ [] := by
  cases fault with
  | mismatched expected found => exact h
  | flaw flaw => cases flaw <;> cases hk
  | _ => cases hk

end Fault.AgreesWith

namespace State

variable {s : State} {fault : Fault}

theorem agreesWith_of_endTag {key : Key} {position : Span}
    (h : s.endTag key position = .error fault) : fault.AgreesWith s.frames := by
  obtain ⟨siblings, frames⟩ := s
  match frames with
  | [] => cases h; rfl
  | ⟨.element _ _, _⟩ :: _ =>
    simp only [endTag] at h
    split at h <;> cases h
    exact List.cons_ne_nil _ _
  | ⟨.block _ _ _ _ _, _⟩ :: _ => cases h; exact List.cons_ne_nil _ _

theorem agreesWith_of_startBranch {tag : Tag} {position : Span}
    (h : s.startBranch tag position = .error fault) : fault.AgreesWith s.frames := by
  obtain ⟨siblings, frames⟩ := s
  match frames with
  | [] => cases h; rfl
  | ⟨.element _ _, _⟩ :: _ => cases h; exact List.cons_ne_nil _ _
  | ⟨.block _ _ _ _ _, _⟩ :: _ =>
    simp only [startBranch] at h
    split at h <;> cases h
    exact List.cons_ne_nil _ _

theorem agreesWith_of_endBlock {name : Text} {tag : Tag} {position : Span}
    (h : s.endBlock name tag position = .error fault) : fault.AgreesWith s.frames := by
  obtain ⟨siblings, frames⟩ := s
  match frames with
  | [] => cases h; rfl
  | ⟨.element _ _, _⟩ :: _ => cases h; exact List.cons_ne_nil _ _
  | ⟨.block _ _ _ _ _, _⟩ :: _ =>
    simp only [endBlock] at h
    split at h <;> cases h
    exact List.cons_ne_nil _ _

theorem agreesWith_of_step {t : Token} (h : s.step t = .error fault) :
    fault.AgreesWith s.frames := by
  obtain ⟨start, item⟩ := t
  cases item with
  | text value => simp only [step] at h; split at h <;> cases h
  | startTag head => simp only [step, startTag] at h; (repeat' split at h) <;> cases h
  | endTag name gap => exact agreesWith_of_endTag h
  | tag inner =>
    simp only [step, liquidTag] at h
    split at h
    · cases h
    · exact agreesWith_of_startBranch h
    · exact agreesWith_of_endBlock h
    · cases h
  | invalid flaw rest => cases h; trivial
  | _ => cases h

end State

namespace Nesting

/-- The token that opens `f` is taken where nothing is open. -/
def OpenedFirst (ts : List Token) (f : Frame) : Prop :=
  ∃ done t rest nodes, ts = done ++ t :: rest ∧ t.start = f.opener.start ∧
    State.initial.reach done = .ok ⟨nodes, []⟩

theorem OpenedFirst.append {ts : List Token} {f : Frame} (h : OpenedFirst ts f) (us : List Token) :
    OpenedFirst (ts ++ us) f := by
  obtain ⟨done, t, rest, nodes, rfl, hs, hr⟩ := h
  exact ⟨done, t, rest ++ us, nodes, by simp, hs, hr⟩

theorem Pending.openedFirst_push {ts us : List Token} {outer : List Node} {frames : List Frame}
    {t : Token} {o : Opener} {f : Frame} (h : Pending ts ⟨outer, frames⟩) (ho : t.start = o.start)
    (ih : ∀ {f}, frames.getLast? = some f → OpenedFirst ts f)
    (hf : (⟨o, outer⟩ :: frames : List Frame).getLast? = some f) :
    OpenedFirst (ts ++ t :: us) f := by
  cases frames with
  | nil =>
    cases hf
    cases h with
    | base hs =>
      have hreach := hs.reach State.initial
      exact ⟨ts, t, us, _, rfl, ho, by simpa [State.initial] using hreach⟩
  | cons g frames =>
    rw [List.getLast?_cons_cons] at hf
    exact (ih hf).append _

/-- The outermost open construct was opened where nothing was open. -/
theorem Pending.openedFirst {ts : List Token} {s : State} (h : Pending ts s) {f : Frame}
    (hf : s.frames.getLast? = some f) : OpenedFirst ts f := by
  induction h generalizing f with
  | base hs => cases hf
  | element hp ht ho hs ih => exact hp.openedFirst_push rfl ih hf
  | block hp ht hr hbs hs ih => exact hp.openedFirst_push rfl ih hf

/-- The open constructs start in the order of their tokens. -/
theorem Pending.starts_sublist {ts : List Token} {s : State} (h : Pending ts s) :
    (s.frames.map fun f => f.opener.start).reverse.Sublist (ts.map Located.start) := by
  have hcons : ∀ (t : Token) (us : List Token),
      [t.start].Sublist ((t :: us).map Located.start) :=
    fun t us => List.cons_sublist_cons.2 (List.nil_sublist _)
  induction h with
  | base hs => simp
  | element hp ht ho hs ih => simpa [Opener.start] using ih.append (hcons _ _)
  | block hp ht hr hbs hs ih => simpa [Opener.start] using ih.append (hcons _ (_ ++ _))

theorem Pending.outermost_le {start : Nat} {ts : List Token} {s : State} (h : Pending ts s)
    (hts : Token.Contiguous start ts) {f : Frame} (hf : s.frames.getLast? = some f) :
    ∀ g ∈ s.frames, f.opener.start ≤ g.opener.start := by
  have hsorted := hts.pairwise.sublist h.starts_sublist
  obtain ⟨inner, hs⟩ := List.getLast?_eq_some_iff.1 hf
  rw [hs, List.map_append, List.map_singleton, List.reverse_append, List.reverse_singleton,
    List.singleton_append, List.pairwise_cons] at hsorted
  intro g hg
  rw [hs, List.mem_append, List.mem_singleton] at hg
  rcases hg with hg | rfl
  · exact hsorted.1 _ (List.mem_reverse.2 (List.mem_map_of_mem hg))
  · exact Nat.le_refl _

end Nesting

namespace Document

/-- In front of a token nothing changes when the rest is taken away. -/
theorem reach_covered {source : Text} {done us : List Token} {s : State}
    (hts : Token.ofText source = done ++ us) (hdone : State.initial.reach done = .ok s) :
    State.initial.reach (Token.ofText (Token.covered done)) = .ok s := by
  rw [Token.ofText_covered hts (State.isInvalid_eq_false_of_reach hdone)]
  exact hdone

theorem parse_of_reach {p : Text} {s : State}
    (h : State.initial.reach (Token.ofText p) = .ok s) :
    (s.frames = [] → ∃ d, parse p = .ok d) ∧
      (s.frames ≠ [] → ∃ r, parse p = .error r ∧ r.fault.kind = .unexpectedEndOfInput) := by
  obtain ⟨siblings, frames⟩ := s
  simp only [parse, run, State.run_eq, h]
  constructor
  · rintro rfl
    exact ⟨_, rfl⟩
  · intro hne
    obtain ⟨f, hf⟩ := Option.ne_none_iff_exists'.1 (mt List.getLast?_eq_none_iff.1 hne)
    simp only [State.finish, hf]
    exact ⟨_, rfl, rfl⟩

/-- A template is rejected at a token, or for what is open at its end. -/
theorem parse_eq_error {source : Text} {r : Rejection} (h : parse source = .error r) :
    State.initial.reach (Token.ofText source) = .error (r.fault, r.offset) ∨
      ∃ s f, State.initial.reach (Token.ofText source) = .ok s ∧ s.frames.getLast? = some f ∧
        r.fault = .unclosed f.opener.closing ∧ f.opener.start = r.offset := by
  simp only [parse, run, State.run_eq] at h
  cases hr : State.initial.reach (Token.ofText source) with
  | error found =>
    rw [hr] at h
    cases h
    exact .inl rfl
  | ok s =>
    rw [hr] at h
    simp only [State.finish] at h
    split at h
    · cases h
    · next f hf =>
      cases h
      exact .inr ⟨s, f, rfl, hf, rfl, rfl⟩

/-- **Viable prefixes**: a rejection points at the start of a token, and what stands in front of
that token is the beginning of a template that is accepted. Taken alone it is accepted, or it ends
too early: it is accepted in front of an end tag where nothing is open and ends too early in front
of an end tag that does not match. Where a template ends too early itself, the rejection points at
the outermost open construct, and both what stands in front of that and the template with more
behind it are accepted. -/
theorem rejected_behind_viable_prefix {source : Text} {r : Rejection}
    (h : parse source = .error r) :
    ∃ before, Text.slice? source ⟨0, r.offset⟩ = some before ∧
      (∃ t ∈ Token.ofText source, t.start = r.offset) ∧
      (∃ x d, parse (before ++ x) = .ok d) ∧
      ((∃ d, parse before = .ok d) ∨
        ∃ r', parse before = .error r' ∧ r'.fault.kind = .unexpectedEndOfInput) ∧
      (r.fault.kind = .unexpectedClosingTag → ∃ d, parse before = .ok d) ∧
      (r.fault.kind = .mismatchedClosingTag →
        ∃ r', parse before = .error r' ∧ r'.fault.kind = .unexpectedEndOfInput) ∧
      ∀ expected, r.fault = .unclosed expected →
        (∃ d, parse before = .ok d) ∧
        (∃ s f, State.initial.reach (Token.ofText source) = .ok s ∧
          s.frames.getLast? = some f ∧ f.opener.start = r.offset ∧
          ∀ g ∈ s.frames, r.offset ≤ g.opener.start) ∧
        ∃ x d, parse (source ++ x) = .ok d := by
  rcases parse_eq_error h with hr | ⟨s, f, hr, hf, hfault, hoff⟩
  · obtain ⟨done, t, rest, s, hts, hdone, hstep, hoff⟩ := State.reach_eq_error hr
    have hag := State.agreesWith_of_step hstep
    have hreach := reach_covered hts hdone
    obtain ⟨hok, hend⟩ := parse_of_reach hreach
    refine ⟨Token.covered done, hoff ▸ Token.slice?_covered hts, ⟨t, by simp [hts], hoff⟩,
      exists_completion hreach, ?_, fun hk => hok (hag.eq_nil hk), fun hk => hend (hag.ne_nil hk),
      fun expected hx => ?_⟩
    · by_cases hs : s.frames = []
      · exact .inl (hok hs)
      · exact .inr (hend hs)
    · rw [hx] at hag
      exact hag.elim
  · have hp := Nesting.pending_of_reach hr
    obtain ⟨done, t, rest, nodes, hts, hstart, hdone⟩ := hp.openedFirst hf
    have hreach := reach_covered hts hdone
    have hok := (parse_of_reach hreach).1 rfl
    have hslice := Token.slice?_covered hts
    rw [hstart, hoff] at hslice
    refine ⟨Token.covered done, hslice, ⟨t, by simp [hts], hstart.trans hoff⟩,
      exists_completion hreach, .inl hok, fun _ => hok, fun hk => ?_,
      fun _ _ => ⟨hok, ⟨s, f, hr, hf, hoff, ?_⟩, exists_completion hr⟩⟩
    · rw [hfault] at hk
      cases hk
    · rw [← hoff]
      exact hp.outermost_le (Token.contiguous_ofText source) hf

/-- The end tag of the element is a fault inside the block, behind a `{` that is text. -/
theorem rejected_behind_open_block :
    ∃ r before, parse "<a>{% if x %}\x7b</a>".toList = .error r ∧ r.offset = 14 ∧
      Text.slice? "<a>{% if x %}\x7b</a>".toList ⟨0, r.offset⟩ = some before ∧
      (∃ x d, parse (before ++ x) = .ok d) ∧
      ∃ r', parse before = .error r' ∧ r'.fault.kind = .unexpectedEndOfInput := by
  have hr : outcomeEvent (parse "<a>{% if x %}\x7b</a>".toList) =
      .rejected .mismatchedClosingTag 14 := by
    decide +kernel
  cases h : parse "<a>{% if x %}\x7b</a>".toList with
  | ok d => rw [h] at hr; cases hr
  | error r =>
    rw [h] at hr
    obtain ⟨hk, hoff⟩ := Event.rejected.inj hr
    obtain ⟨before, hslice, -, hx, -, -, hend, -⟩ := rejected_behind_viable_prefix h
    exact ⟨r, before, rfl, hoff, hslice, hx, hend hk⟩

end Document

end LiquidTemplate
