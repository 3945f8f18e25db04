import LiquidTemplate.Proofs.Nesting.Move
import LiquidTemplate.Proofs.Token.Contiguous
import LiquidTemplate.Proofs.Tree.Relocation

/-!
# A parse in another place

What a parse does depends neither on where its tokens start nor on the nodes in front of them at the
top level. When the tokens are moved, so are its states and the fault it finds (`State.reach_shift`,
`State.finish_shift`); nodes in front stay in front of all that the parse adds
(`State.behind_reach`, `State.behind_finish`).
-/

namespace LiquidTemplate

/-! ## Moving tokens -/

namespace Token

theorem span_add (start n : Nat) (l : Lexeme) :
    span ⟨start + n, l⟩ = (span ⟨start, l⟩).shift n :=
  Span.ofText_add start n l.chars

/-- The tokens of a text that starts further on. -/
theorem ofTextAt_eq_map (n : Nat) (t : Text) :
    ofTextAt n t = (ofText t).map (Located.shift n) := by
  rw [ofTextAt, ofText, ofTextAt, ← Located.locate_add, Nat.zero_add]

end Token

/-! ## Moving states -/

def Opener.shift (n : Nat) : Opener → Opener
  | element start head => element (start + n) head
  | block start tag branches label branchStart =>
    block (start + n) tag (branches.map (Branch.shift n)) label (branchStart + n)

theorem Opener.closing_shift (n : Nat) (o : Opener) : (o.shift n).closing = o.closing := by
  cases o <;> rfl

theorem Opener.start_shift (n : Nat) (o : Opener) : (o.shift n).start = o.start + n := by
  cases o <;> rfl

def Frame.shift (n : Nat) (f : Frame) : Frame := ⟨f.opener.shift n, f.outer.map (Node.shift n)⟩

/-- A fault that is found `n` bytes further on. -/
def Fault.shift (n : Nat) (found : Fault × Nat) : Fault × Nat := (found.1, found.2 + n)

namespace State

/-- The same state, `n` bytes further on. -/
def shift (n : Nat) (s : State) : State :=
  ⟨s.siblings.map (Node.shift n), s.frames.map (Frame.shift n)⟩

/-- The state that a step leads to. -/
abbrev Result.state (r : Result) : Except Fault State := r.map Prod.fst

section Shift

variable (n : Nat) (s : State)

theorem startTag_shift (start : Nat) (head : Head) :
    ((s.shift n).startTag (start + n) head).state =
      (s.startTag start head).state.map (shift n) := by
  simp only [startTag, Span.ofText_add, AttributeNode.ofHead_add, ElementName.ofHead_add]
  cases head.voidName? with
  | some name => rfl
  | none =>
    cases head.selfClosing with
    | true => rfl
    | false => rfl

theorem endTag_shift (key : Key) (position : Span) :
    ((s.shift n).endTag key (position.shift n)).state =
      (s.endTag key position).state.map (shift n) := by
  obtain ⟨siblings, frames⟩ := s
  match frames with
  | [] => rfl
  | ⟨.block _ _ _ _ _, _⟩ :: _ => rfl
  | ⟨.element start head, outer⟩ :: frames =>
    simp only [endTag, shift, List.map_cons, Frame.shift, Opener.shift]
    split
    · simp [Result.state, Except.map, shift, Node.shift, Node.shiftAll_eq_map, Span.shift,
        ElementName.ofHead_add, AttributeNode.ofHead_add]
    · rfl

theorem finishBranch_shift (label : Option Tag) (start stop : Nat) :
    (s.shift n).finishBranch label (start + n) (stop + n) =
      (s.finishBranch label start stop).shift n := by
  simp [finishBranch, shift, Branch.shift, Node.shiftAll_eq_map, Span.shift]

theorem startBranch_shift (tag : Tag) (position : Span) :
    ((s.shift n).startBranch tag (position.shift n)).state =
      (s.startBranch tag position).state.map (shift n) := by
  obtain ⟨siblings, frames⟩ := s
  match frames with
  | [] => rfl
  | ⟨.element _ _, _⟩ :: _ => rfl
  | ⟨.block start block branches label branchStart, outer⟩ :: frames =>
    have hbranch := finishBranch_shift n ⟨siblings, ⟨.block start block branches label branchStart,
      outer⟩ :: frames⟩ label branchStart position.start
    simp only [startBranch, shift, List.map_cons, Frame.shift, Opener.shift, Span.shift]
      at hbranch ⊢
    split
    · simp only [Result.state, Except.map, shift, hbranch, List.map_cons, List.map_nil, Frame.shift,
        Opener.shift]
    · rfl

theorem endBlock_shift (name : Text) (tag : Tag) (position : Span) :
    ((s.shift n).endBlock name tag (position.shift n)).state =
      (s.endBlock name tag position).state.map (shift n) := by
  obtain ⟨siblings, frames⟩ := s
  match frames with
  | [] => rfl
  | ⟨.element _ _, _⟩ :: _ => rfl
  | ⟨.block start block branches label branchStart, outer⟩ :: frames =>
    have hbranch := finishBranch_shift n ⟨siblings, ⟨.block start block branches label branchStart,
      outer⟩ :: frames⟩ label branchStart position.start
    simp only [endBlock, shift, List.map_cons, Frame.shift, Opener.shift, Span.shift] at hbranch ⊢
    split
    · simp only [Result.state, Except.map, shift, hbranch, List.map_cons, Node.shift,
        Branch.shiftAll_eq_map, List.map_reverse, Span.shift]
    · rfl

theorem liquidTag_shift (tag : Tag) (position : Span) :
    ((s.shift n).liquidTag tag (position.shift n)).state =
      (s.liquidTag tag position).state.map (shift n) := by
  simp only [liquidTag]
  split
  · rfl
  · exact startBranch_shift n s tag position
  · exact endBlock_shift n s _ tag position
  · rfl

/-- A token that is moved does the same in a state that is moved. -/
theorem step_shift (t : Token) :
    ((s.shift n).step (t.shift n)).state = (s.step t).state.map (shift n) := by
  obtain ⟨start, item⟩ := t
  cases item with
  | text value =>
    simp only [step, Located.shift, Node.ofText?_add]
    cases Node.ofText? start value <;> rfl
  | drop inner => simp only [step, Located.shift, DropNode.ofInner_add]; rfl
  | tag inner =>
    simp only [step, Located.shift, Token.span_add]
    exact liquidTag_shift n s _ _
  | startTag head => exact startTag_shift n s start head
  | endTag name gap =>
    simp only [step, Located.shift, Token.span_add]
    exact endTag_shift n s _ _
  | comment body => simp only [step, Located.shift, Token.span_add]; rfl
  | doctype keyword raw => simp only [step, Located.shift, Token.span_add]; rfl
  | rawElement head body closeName closeRest =>
    simp only [step, Located.shift, Token.span_add, AttributeNode.ofHead_add]
    rfl
  | rawTag opening body closing => simp only [step, Located.shift, Token.span_add]; rfl
  | invalid flaw rest => rfl

/-- A run goes on where its first step leads. -/
theorem reach_cons (t : Token) (ts : List Token) :
    s.reach (t :: ts) = match (s.step t).state with
      | .ok s' => s'.reach ts
      | .error fault => .error (fault, t.start) := by
  cases h : s.step t with
  | ok r => simp only [reach, h, Result.state, Except.map]
  | error fault => simp only [reach, h, Result.state, Except.map]

theorem reach_shift (ts : List Token) :
    (s.shift n).reach (ts.map (Located.shift n)) =
      ((s.reach ts).map (shift n)).mapError (Fault.shift n) := by
  induction ts generalizing s with
  | nil => rfl
  | cons t ts ih =>
    rw [List.map_cons, reach_cons, step_shift, reach_cons]
    cases (s.step t).state with
    | ok s' => exact ih s'
    | error fault => rfl

theorem finish_shift :
    (s.shift n).finish = (s.finish.map (List.map (Node.shift n))).mapError (Fault.shift n) := by
  simp only [finish, shift, List.getLast?_map]
  cases s.frames.getLast? with
  | none => exact congrArg Except.ok List.map_reverse.symm
  | some f =>
    simp only [Option.map_some, Frame.shift, Opener.closing_shift, Opener.start_shift]
    rfl

end Shift

/-! ## Nodes in front -/

/-- The state with these siblings and open constructs, and with the nodes in `before`, kept in
reverse, in front of all others at the top level. -/
def behind (before siblings : List Node) : List Frame → State
  | [] => ⟨siblings ++ before, []⟩
  | f :: frames => { (behind before f.outer frames).push f.opener with siblings }

section Behind

variable (before siblings : List Node) (frames : List Frame)

theorem behind_append (n : Node) :
    (behind before siblings frames).append n = behind before (n :: siblings) frames := by
  cases frames <;> rfl

theorem behind_endTag (key : Key) (position : Span) :
    ((behind before siblings frames).endTag key position).state =
      (endTag ⟨siblings, frames⟩ key position).state.map fun s =>
        behind before s.siblings s.frames := by
  match frames with
  | [] => rfl
  | ⟨.block _ _ _ _ _, _⟩ :: _ => rfl
  | ⟨.element start head, outer⟩ :: frames =>
    simp only [endTag, behind, push]
    split
    · exact congrArg Except.ok (behind_append before outer frames _)
    · rfl

theorem behind_startBranch (tag : Tag) (position : Span) :
    ((behind before siblings frames).startBranch tag position).state =
      (startBranch ⟨siblings, frames⟩ tag position).state.map fun s =>
        behind before s.siblings s.frames := by
  match frames with
  | [] => rfl
  | ⟨.element _ _, _⟩ :: _ => rfl
  | ⟨.block start block branches label branchStart, outer⟩ :: frames =>
    simp only [startBranch, behind, push]
    split <;> rfl

theorem behind_endBlock (name : Text) (tag : Tag) (position : Span) :
    ((behind before siblings frames).endBlock name tag position).state =
      (endBlock ⟨siblings, frames⟩ name tag position).state.map fun s =>
        behind before s.siblings s.frames := by
  match frames with
  | [] => rfl
  | ⟨.element _ _, _⟩ :: _ => rfl
  | ⟨.block start block branches label branchStart, outer⟩ :: frames =>
    simp only [endBlock, behind, push]
    split
    · exact congrArg Except.ok (behind_append before outer frames _)
    · rfl

theorem behind_liquidTag (tag : Tag) (position : Span) :
    ((behind before siblings frames).liquidTag tag position).state =
      (liquidTag ⟨siblings, frames⟩ tag position).state.map fun s =>
        behind before s.siblings s.frames := by
  simp only [liquidTag]
  split
  · rfl
  · exact behind_startBranch before siblings frames tag position
  · exact behind_endBlock before siblings frames _ tag position
  · exact congrArg Except.ok (behind_append before siblings frames _)

theorem behind_startTag (start : Nat) (head : Head) :
    ((behind before siblings frames).startTag start head).state =
      (startTag ⟨siblings, frames⟩ start head).state.map fun s =>
        behind before s.siblings s.frames := by
  simp only [startTag]
  cases head.voidName? with
  | some name => exact congrArg Except.ok (behind_append before siblings frames _)
  | none =>
    cases head.selfClosing with
    | true => exact congrArg Except.ok (behind_append before siblings frames _)
    | false => rfl

/-- A token leaves the nodes in front where they are. -/
theorem behind_step (t : Token) :
    ((behind before siblings frames).step t).state =
      (step ⟨siblings, frames⟩ t).state.map fun s => behind before s.siblings s.frames := by
  obtain ⟨start, item⟩ := t
  cases item with
  | text value =>
    simp only [step]
    cases Node.ofText? start value with
    | none => rfl
    | some n => exact congrArg Except.ok (behind_append before siblings frames n)
  | tag inner => exact behind_liquidTag before siblings frames _ _
  | startTag head => exact behind_startTag before siblings frames start head
  | endTag name gap => exact behind_endTag before siblings frames _ _
  | invalid flaw rest => rfl
  | _ => exact congrArg Except.ok (behind_append before siblings frames _)

theorem behind_reach (ts : List Token) :
    (behind before siblings frames).reach ts =
      (reach ⟨siblings, frames⟩ ts).map fun s => behind before s.siblings s.frames := by
  induction ts generalizing siblings frames with
  | nil => rfl
  | cons t ts ih =>
    rw [reach_cons, behind_step, reach_cons]
    cases (step ⟨siblings, frames⟩ t).state with
    | ok s => exact ih s.siblings s.frames
    | error fault => rfl

/-- The open constructs of a state with other nodes at the top level. -/
theorem map_opener_behind :
    (behind before siblings frames).frames.map Frame.opener = frames.map Frame.opener := by
  induction frames generalizing siblings with
  | nil => rfl
  | cons f frames ih => exact congrArg (f.opener :: ·) (ih f.outer)

theorem behind_finish :
    (behind before siblings frames).finish =
      (finish ⟨siblings, frames⟩).map (before.reverse ++ ·) := by
  have hopeners := congrArg List.getLast? (map_opener_behind before siblings frames)
  rw [List.getLast?_map, List.getLast?_map] at hopeners
  cases h : frames.getLast? with
  | none =>
    obtain rfl := List.getLast?_eq_none_iff.1 h
    simp [behind, finish, Except.map]
  | some f =>
    rw [h] at hopeners
    obtain ⟨g, hg, hgo⟩ := Option.map_eq_some_iff.1 hopeners
    simp only [finish, h, hg, hgo, Except.map]

/-- A run over tokens further on, behind these nodes. -/
theorem run_behind_shift (n : Nat) (events events' : List Event) (ts : List Token) :
    (State.run ⟨before, []⟩ events (ts.map (Located.shift n))).2 =
      (((initial.run events' ts).2.map (List.map (Node.shift n))).mapError (Fault.shift n)).map
        (before.reverse ++ ·) := by
  have hbehind := behind_reach before [] [] (ts.map (Located.shift n))
  have hshift := reach_shift n initial ts
  rw [behind, List.nil_append] at hbehind
  rw [run_eq, run_eq, hbehind, show (⟨[], []⟩ : State) = initial.shift n from rfl, hshift]
  cases initial.reach ts with
  | ok s =>
    have hfinish := finish_shift n s
    change (behind before (s.shift n).siblings (s.shift n).frames).finish = _
    rw [behind_finish]
    exact congrArg (Except.map (before.reverse ++ ·)) hfinish
  | error fault => rfl

end Behind

end State

end LiquidTemplate
