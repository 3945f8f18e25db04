import LiquidTemplate.Proofs.Nesting.Derivation
import LiquidTemplate.Proofs.Token.Contiguous

/-!
# Closing what is open

Each open construct has a lexeme that closes it (`Opener.closer`), and the closers of all that is
open, innermost first, complete a template that has no fault so far (`Document.exists_completion`).
A space goes in front of them: behind a template that ends in `{` or `<` they would be read as
something else.
-/

namespace LiquidTemplate

namespace Lexeme

theorem next?_endTag {t rest : Text} {name : TagName} (hs : Opening.startsName t = true)
    (h : TagName.read t = .ok (name, rest)) (x : Text) :
    next? ((endTag name []).chars ++ x) = some (endTag name [], x) := by
  obtain ⟨hstart, hread⟩ := TagName.read_close hs h x
  have hchars : (endTag name []).chars ++ x = Opening.endTag.chars ++ (name.chars ++ '>' :: x) := by
    simp [chars, Opening.chars]
  rw [hchars]
  exact next?_of_complete hstart (Opening.complete_endTag Text.allBlank_nil hread)

/-- The name of a start tag was read behind its `<`. -/
theorem read_of_next?_startTag {t rest : Text} {head : Head}
    (h : next? t = some (startTag head, rest)) :
    ∃ r rest', Opening.startsName r = true ∧ TagName.read r = .ok (head.name, rest') := by
  obtain ⟨o, r, rfl, hf, hc⟩ := (next?_construct_iff rfl).1 h
  cases o with
  | startTag =>
    simp only [Opening.complete] at hc
    split at hc
    · cases hc
    · next head' rest₁ hh =>
      have : head' = head := by
        split at hc
        · cases hc; rfl
        · split at hc <;> cases hc
      subst this
      unfold Head.read at hh
      split at hh
      · next hn =>
        rw [Head.name_of_readOnto hh]
        exact ⟨r, _, hf, hn⟩
      · cases hh
  | _ => simp only [Opening.complete] at hc; (repeat' split at hc) <;> cases hc

/-- Constructs that are read anywhere are read one behind the other. -/
theorem ofText_flatMap_of_next? {ls : List Lexeme}
    (h : ∀ l ∈ ls, ∀ x, next? (l.chars ++ x) = some (l, x)) : ofText (ls.flatMap chars) = ls := by
  induction ls with
  | nil => exact ofText_nil
  | cons l ls ih =>
    rw [List.flatMap_cons, ofText_of_next? (h l List.mem_cons_self _),
      ih fun m hm => h m (List.mem_cons_of_mem _ hm)]

end Lexeme

namespace Opener

/-- The lexeme that closes the construct. -/
def closer : Opener → Lexeme
  | element _ head => .endTag head.name []
  | block _ tag _ _ _ => .tag ([' '] ++ Keyword.endTag tag.name ++ [' '])

/-- The construct was opened by a lexeme of some template. -/
def Lexed : Opener → Prop
  | element _ head => ∃ t rest, Lexeme.next? t = some (.startTag head, rest)
  | block _ tag _ _ _ => Keyword.isBlockTag tag.name = true

theorem next?_closer {o : Opener} (h : o.Lexed) (x : Text) :
    Lexeme.next? (o.closer.chars ++ x) = some (o.closer, x) := by
  cases o with
  | element start head =>
    obtain ⟨t, rest, h⟩ := h
    obtain ⟨r, rest', hs, hr⟩ := Lexeme.read_of_next?_startTag h
    exact Lexeme.next?_endTag hs hr x
  | block start tag branches label branchStart =>
    have hall : ∀ name ∈ Keyword.blockTags,
        let l := Lexeme.tag ([' '] ++ Keyword.endTag name ++ [' '])
        Lexeme.next? l.chars = some (l, []) := by decide
    exact Lexeme.next?_append rfl (hall tag.name (List.contains_iff_mem.1 h)) x

theorem move_closer {o : Opener} (h : o.Lexed) (start : Nat) (siblings outer : List Node)
    (frames : List Frame) :
    ∃ n, Move ⟨start, o.closer⟩ ⟨siblings, ⟨o, outer⟩ :: frames⟩ ⟨n :: outer, frames⟩ := by
  cases o with
  | element start head => exact ⟨_, .closeElement rfl rfl⟩
  | block start tag branches label branchStart =>
    have hall : ∀ name ∈ Keyword.blockTags,
        let inner := [' '] ++ Keyword.endTag name ++ [' ']
        Keyword.roleOf (Tag.ofInner inner).name = .closes name := by
      decide
    exact ⟨_, .closeBlock rfl (hall tag.name (List.contains_iff_mem.1 h))⟩

end Opener

/-- Whatever is open was opened by one of the tokens taken. -/
theorem Nesting.Pending.lexed {ts : List Token} {s : State} (h : Pending ts s)
    (hts : ∀ t ∈ ts, ∃ text rest, Lexeme.next? text = some (t.item, rest)) :
    ∀ f ∈ s.frames, f.opener.Lexed := by
  induction h with
  | base hs => simp
  | element hp ht ho hs ih =>
    refine List.forall_mem_cons.2 ⟨?_, ih fun t h => hts t (List.mem_append_left _ h)⟩
    obtain ⟨text, rest, hn⟩ := hts _ (List.mem_append_right _ List.mem_cons_self)
    exact ⟨text, rest, ht ▸ hn⟩
  | block hp ht hr hbs hs ih =>
    refine List.forall_mem_cons.2 ⟨?_, ih fun t h => hts t (List.mem_append_left _ h)⟩
    exact Keyword.roleOf_eq_opensBlock_iff.1 hr

namespace State

/-- The lexemes that close all that is open. -/
def closers (frames : List Frame) : List Lexeme := frames.map fun f => f.opener.closer

theorem ofText_closers {frames : List Frame} (h : ∀ f ∈ frames, f.opener.Lexed) :
    Lexeme.ofText ((closers frames).flatMap Lexeme.chars) = closers frames := by
  refine Lexeme.ofText_flatMap_of_next? fun l hl => ?_
  obtain ⟨f, hf, rfl⟩ := List.mem_map.1 hl
  exact Opener.next?_closer (h f hf)

theorem startsConstruct_closers {frames : List Frame} (h : ∀ f ∈ frames, f.opener.Lexed) :
    (closers frames).flatMap Lexeme.chars = [] ∨
      Lexeme.startsConstruct ((closers frames).flatMap Lexeme.chars) = true := by
  cases frames with
  | nil => exact .inl rfl
  | cons f frames =>
    have hn := Opener.next?_closer (h f List.mem_cons_self) ((closers frames).flatMap Lexeme.chars)
    have hc : f.opener.closer.isConstruct = true := by cases f.opener <;> rfl
    exact .inr (Lexeme.startsConstruct_of_next? hc hn)

theorem reach_closers {frames : List Frame} (h : ∀ f ∈ frames, f.opener.Lexed) (start : Nat)
    (siblings : List Node) :
    ∃ nodes, State.reach ⟨siblings, frames⟩ (Located.locate Lexeme.size start (closers frames)) =
      .ok ⟨nodes, []⟩ := by
  induction frames generalizing start siblings with
  | nil => exact ⟨siblings, rfl⟩
  | cons f frames ih =>
    obtain ⟨hf, hfs⟩ := List.forall_mem_cons.1 h
    obtain ⟨n, hm⟩ := Opener.move_closer hf start siblings f.outer frames
    rw [closers, List.map_cons, Located.locate_cons, reach_cons_of_move hm]
    exact ih hfs _ _

/-- Text leaves what is open as it is. -/
theorem reach_text (s : State) (start : Nat) (value : Text) :
    ∃ siblings, s.reach [⟨start, .text value⟩] = .ok ⟨siblings, s.frames⟩ :=
  ⟨_, reach_text_cons s start value []⟩

theorem reach_padded {s s' : State} {start : Nat} {ls : List Lexeme} (w : Text)
    (h : s.reach (Located.locate Lexeme.size start ls) = .ok s') :
    ∃ siblings, s.reach (Located.locate Lexeme.size start (Lexeme.padded w ls)) =
      .ok ⟨siblings, s'.frames⟩ := by
  rcases Lexeme.padded_cases w ls with ⟨before, v, rfl, hs⟩ | hs
  · rw [hs]
    rw [Lexeme.locate_append, reach_append] at h ⊢
    cases hb : s.reach (Located.locate Lexeme.size start before) with
    | error fault => rw [hb] at h; cases h
    | ok s₁ =>
      rw [hb] at h
      obtain ⟨siblings, hv⟩ := reach_text s₁ _ v
      obtain rfl := Except.ok.inj (h.symm.trans hv)
      exact reach_text s₁ _ _
  · rw [hs, Lexeme.locate_append, reach_append, h]
    exact reach_text s' _ _

end State

/-- A template without a fault so far can be completed. -/
theorem Document.exists_completion {p : Text} {s : State}
    (h : State.initial.reach (Token.ofText p) = .ok s) : ∃ x d, parse (p ++ x) = .ok d := by
  have hvalid : ∀ l ∈ Lexeme.ofText p, l.isInvalid = false :=
    Token.forall_mem_ofText_iff.1 (State.isInvalid_eq_false_of_reach h)
  have hread : ∀ l ∈ Lexeme.ofText p, ∃ text rest, Lexeme.next? text = some (l, rest) :=
    fun l hl => (Lexeme.next?_of_mem_ofText hl).elim fun rest hn => ⟨_, rest, hn⟩
  have hlexed := (Nesting.pending_of_reach h).lexed (Token.forall_mem_ofText_iff.2 hread)
  have hclosers := State.ofText_closers hlexed
  have htokens := Lexeme.ofText_append_blanks (by decide : Text.AllBlank [' ']) (by simp) hvalid
    (State.startsConstruct_closers hlexed)
  rw [hclosers] at htokens
  obtain ⟨siblings, hp⟩ := State.reach_padded [' '] h
  obtain ⟨nodes, hc⟩ := State.reach_closers hlexed
    (Text.size ((Lexeme.padded [' '] (Lexeme.ofText p)).flatMap Lexeme.chars)) siblings
  refine ⟨[' '] ++ (State.closers s.frames).flatMap Lexeme.chars, _,
    parse_eq_ok_iff.2 ⟨nodes, ?_, rfl⟩⟩
  rw [Token.ofText, Token.ofTextAt, htokens, Lexeme.locate_append, State.reach_append, hp]
  simpa using hc

end LiquidTemplate
