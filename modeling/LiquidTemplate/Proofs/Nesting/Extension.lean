import LiquidTemplate.Proofs.Arena.Concatenation
import LiquidTemplate.Proofs.Nesting.ViablePrefix
import LiquidTemplate.Proofs.Text.Lines
import LiquidTemplate.Proofs.Token.Cursor

/-!
# What more text cannot change

A complete construct stays what it is whatever is written behind it, and so does all in front of it.
A fault of nesting is found at a complete construct, so it stays a fault, at the same place
(`Document.complete_never_revised`). Text and an unfinished construct at the end may still change.
-/

namespace LiquidTemplate

namespace Token

/-- No token in front of another one is invalid. -/
theorem isInvalid_eq_false_of_append {source : Text} {done rest : List Token} {t : Token}
    (h : ofText source = done ++ t :: rest) : ∀ u ∈ done, u.item.isInvalid = false := by
  intro u hu
  obtain ⟨before, after, rfl⟩ := List.append_of_mem hu
  rw [List.append_assoc, List.cons_append] at h
  have hlexemes := lexemes_of_ofText h
  rw [List.map_cons] at hlexemes
  cases hi : u.item.isInvalid with
  | false => rfl
  | true => simpa using Lexeme.eq_nil_of_isInvalid hlexemes hi

/-- The tokens up to a complete construct are the first ones of every longer template. -/
theorem ofText_append_of_isConstruct {source : Text} {done rest : List Token} {t : Token}
    (h : ofText source = done ++ t :: rest) (ht : t.item.isConstruct = true) (x : Text) :
    ∃ more, ofText (source ++ x) = done ++ t :: more := by
  have hvalid : ∀ u ∈ done ++ [t], u.item.isInvalid = false :=
    List.forall_mem_append.2 ⟨isInvalid_eq_false_of_append h,
      List.forall_mem_singleton.2 (Lexeme.isInvalid_of_isConstruct ht)⟩
  have hcut : ofText source = (done ++ [t]) ++ rest := by simpa using h
  have hfront := ofText_covered hcut hvalid
  have hlast : ∀ v, (Lexeme.ofText (covered (done ++ [t]))).getLast? ≠ some (.text v) := by
    intro v hv
    rw [← map_item_ofTextAt 0 (covered _), show ofTextAt 0 (covered _) = _ from hfront] at hv
    have hv : t.item = .text v := by simpa using hv
    rw [hv] at ht
    cases ht
  have hsource : source ++ x = covered (done ++ [t]) ++ (covered rest ++ x) := by
    rw [← List.append_assoc, ← source_of_ofText hcut]
  have hjoin := ofText_append (by rwa [hfront]) hlast (covered rest ++ x)
  rw [← hsource, hfront] at hjoin
  exact ⟨_, by simpa using hjoin⟩

end Token

/-- Where a character boundary is does not depend on what stands behind it. -/
theorem Place.ofOffset_append {source before : Text} {offset : Nat}
    (h : Text.slice? source ⟨0, offset⟩ = some before) (x : Text) :
    ofOffset (source ++ x) offset = ofOffset source offset := by
  obtain ⟨front, after, rfl, hfront, hstop⟩ := Text.slice?_eq_some_iff.1 h
  have hoffset : offset = Text.size (front ++ before) := by
    rw [Text.size_append, hfront]
    exact hstop
  rw [hoffset, List.append_assoc, ofOffset_size, ofOffset_size]

/-- A fault of nesting is found at a complete construct. -/
theorem State.isConstruct_of_step {s : State} {t : Token} {fault : Fault}
    (h : s.step t = .error fault)
    (hk : fault.kind ∈
      [FaultKind.mismatchedClosingTag, .unexpectedClosingTag, .invalidBranchPlacement]) :
    t.item.isConstruct = true := by
  obtain ⟨start, item⟩ := t
  cases item with
  | text value => simp only [step] at h; split at h <;> cases h
  | invalid flaw rest => cases h; cases flaw <;> simp [Fault.kind] at hk
  | _ => rfl

namespace Document

/-- **Nothing complete is revised**: when a template is made longer, its tokens up to any complete
construct stay the first ones. If it is rejected because tags do not match, so is every longer one,
for the same fault at the same place. -/
theorem complete_never_revised (source x : Text) :
    (∀ i t, (Token.ofText source)[i]? = some t → t.item.isConstruct = true →
      (Token.ofText (source ++ x)).take (i + 1) = (Token.ofText source).take (i + 1)) ∧
    ∀ r, parse source = .error r →
      r.fault.kind ∈
        [FaultKind.mismatchedClosingTag, .unexpectedClosingTag, .invalidBranchPlacement] →
      parse (source ++ x) = .error r := by
  constructor
  · intro i t hi ht
    obtain ⟨done, rest, hts, rfl⟩ : ∃ done rest,
        Token.ofText source = done ++ t :: rest ∧ done.length = i := by
      obtain ⟨hlt, hget⟩ := List.getElem?_eq_some_iff.1 hi
      refine ⟨_, (Token.ofText source).drop (i + 1), ?_, List.length_take_of_le (Nat.le_of_lt hlt)⟩
      rw [← hget, ← List.drop_eq_getElem_cons hlt, List.take_append_drop]
    obtain ⟨more, hmore⟩ := Token.ofText_append_of_isConstruct hts ht x
    simp [hmore, hts, List.take_append]
  · intro r hr hk
    rcases parse_eq_error hr with hreach | ⟨s, f, -, -, hfault, -⟩
    · obtain ⟨done, t, rest, s, hts, hdone, hstep, hoff⟩ := State.reach_eq_error hreach
      have ht := State.isConstruct_of_step hstep hk
      obtain ⟨more, hmore⟩ := Token.ofText_append_of_isConstruct hts ht x
      have hagain : State.initial.reach (Token.ofText (source ++ x)) =
          .error (r.fault, r.offset) := by
        rw [hmore, State.reach_append, hdone]
        simp only [State.reach, hstep, hoff]
      have hslice := Token.slice?_covered hts
      rw [hoff] at hslice
      refine parse_eq_error_iff_run.2 ⟨?_, ?_⟩
      · rw [Rejection.ofFault, Place.ofOffset_append hslice]
        exact (parse_eq_error_iff_run.1 hr).1
      · rw [run, State.run_eq, hagain]
    · rw [hfault] at hk
      simp [Fault.kind] at hk

/-- An element that is closed inside a block, in front of the beginning of a tag that more text
completes. -/
theorem complete_never_revised_open_tag :
    (Token.ofText "é<a>{% if x %}</a>\x7b".toList)[3]? = some ⟨15, .endTag (.fixed ['a']) []⟩ ∧
    (Token.ofText ("é<a>{% if x %}</a>\x7b".toList ++ "%endif%\x7d".toList)).take 4 =
      (Token.ofText "é<a>{% if x %}</a>\x7b".toList).take 4 ∧
    ∃ r, parse "é<a>{% if x %}</a>\x7b".toList = .error r ∧ r.offset = 15 ∧
      parse ("é<a>{% if x %}</a>\x7b".toList ++ "%endif%\x7d".toList) = .error r := by
  obtain ⟨htokens, herrors⟩ :=
    complete_never_revised "é<a>{% if x %}</a>\x7b".toList "%endif%\x7d".toList
  have ht : (Token.ofText "é<a>{% if x %}</a>\x7b".toList)[3]? =
      some ⟨15, .endTag (.fixed ['a']) []⟩ := by
    decide +kernel
  have hr : outcomeEvent (parse "é<a>{% if x %}</a>\x7b".toList) =
      .rejected .mismatchedClosingTag 15 := by
    decide +kernel
  obtain ⟨r, hparse, hk, hoff⟩ := outcomeEvent_eq_rejected_iff.1 hr
  exact ⟨ht, htokens 3 _ ht rfl, r, hparse, hoff, herrors r hparse (by simp [hk])⟩

end Document

end LiquidTemplate
