import LiquidTemplate.Proofs.Reader.Loading
import LiquidTemplate.Proofs.Text.Lines

/-!
# Parsing by offsets

A parser that takes one token after the other from a scanner and loads it from the template knows no
lexemes: what is open is kept as it was loaded. It does what parsing does, and since a reading fails
where anything is out of range, nothing ever is (`parse_eq`).
-/

namespace LiquidTemplate

namespace Reader

/-- An element or block that waits for its end tag. -/
inductive Open where
  | element (start : Nat) (key : Key) (name : ElementName) (attributes : List AttributeNode)
  | block (start : Nat) (tag : Tag) (branches : List Branch) (label : Option Tag)
      (branchStart : Nat)

namespace Open

def start : Open → Nat
  | element start _ _ _ => start
  | block start _ _ _ _ => start

/-- The end tag that is waited for. -/
def closing : Open → Closing
  | element _ key _ _ => .element key
  | block _ tag _ _ _ => .block tag.name

end Open

/-- What is open, and the nodes that stand before it in its container. -/
structure OpenFrame where
  node : Open
  outer : List Node

/-- How far parsing has come. -/
structure Progress where
  siblings : List Node
  /-- What is open, innermost first. -/
  frames : List OpenFrame

namespace Progress

def append (s : Progress) (n : Node) : Progress := { s with siblings := n :: s.siblings }

def push (s : Progress) (o : Open) : Progress := ⟨[], ⟨o, s.siblings⟩ :: s.frames⟩

/-- Closes the innermost open construct, if it is an element with this key (`end_tag`). -/
def endTag (s : Progress) (key : Key) (stop : Nat) : Except Fault Progress :=
  match s.frames with
  | [] => .error (.unopened (.element key))
  | ⟨.element start key' name attributes, outer⟩ :: frames =>
    if key' = key then
      .ok ⟨.element name attributes s.siblings.reverse ⟨start, stop⟩ :: outer, frames⟩
    else .error (.mismatched (.element key') (.element key))
  | ⟨node, _⟩ :: _ => .error (.mismatched node.closing (.element key))

/-- The branch under way, complete at `stop`. -/
def finishBranch (s : Progress) (label : Option Tag) (start stop : Nat) : Branch :=
  .mk label s.siblings.reverse ⟨start, stop⟩

/-- Starts a new branch of the innermost open construct, if it is a block that may have it
(`branch`). -/
def startBranch (s : Progress) (tag : Tag) (start : Nat) : Except Fault Progress :=
  match s.frames with
  | [] => .error (.strayBranch tag.name)
  | ⟨.element _ key _ _, _⟩ :: _ => .error (.branchOfElement tag.name key)
  | ⟨.block first block branches label branchStart, outer⟩ :: frames =>
    if Keyword.isBranchOf block.name tag.name then
      let branches := s.finishBranch label branchStart start :: branches
      .ok ⟨[], ⟨.block first block branches (some tag) start, outer⟩ :: frames⟩
    else .error (.branchOfBlock tag.name block.name)

/-- Closes the innermost open construct, if it is a block of this name (`end_block`). -/
def endBlock (s : Progress) (name : Text) (tag : Tag) (position : Span) : Except Fault Progress :=
  match s.frames with
  | [] => .error (.unopened (.block name))
  | ⟨.block first block branches label branchStart, outer⟩ :: frames =>
    if block.name = name then
      let branches := s.finishBranch label branchStart position.start :: branches
      .ok ⟨.block block branches.reverse tag.trims ⟨first, position.stop⟩ :: outer, frames⟩
    else .error (.mismatched (.block block.name) (.block name))
  | ⟨node, _⟩ :: _ => .error (.mismatched node.closing (.block name))

/-- Does what a token means that covers `position` (`consume`). -/
def step (s : Progress) (position : Span) : Work → Except Fault Progress
  | .blank => .ok s
  | .leaf node => .ok (s.append node)
  | .openElement key name attributes => .ok (s.push (.element position.start key name attributes))
  | .closeElement key => s.endTag key position.stop
  | .tag tag =>
    match Keyword.roleOf tag.name with
    | .opensBlock => .ok (s.push (.block position.start tag [] none position.stop))
    | .startsBranch => s.startBranch tag position.start
    | .closes name => s.endBlock name tag position
    | .inline => .ok (s.append (.tag tag position))
  | .flaw flaw => .error (.flaw flaw)

/-- The top-level nodes at the end of a template, as `parse_document` gives them. -/
def finish (s : Progress) : Except (Fault × Nat) (List Node) :=
  match s.frames.getLast? with
  | none => .ok s.siblings.reverse
  | some frame => .error (.unclosed frame.node.closing, frame.node.start)

end Progress

section

variable (source : Text)

/-- Takes the tokens from an offset on. -/
def parseFrom (s : Progress) (i : Nat) : Read (Except (Fault × Nat) (List Node)) := do
  if i < Text.size source then
    let found ← token source i
    match s.step found.whole (← load source found) with
    | .ok s' =>
      let ⟨_⟩ ← further source i found.whole.stop
      parseFrom s' found.whole.stop
    | .error fault => return .error (fault, found.whole.start)
  else return s.finish
termination_by Text.size source - i

/-- The place of an offset (`line_column`). The text in front of it is cut out, and from that its
last line. -/
def place (offset : Nat) : Read Place := do
  let before ← slice source ⟨0, Text.size (Text.splitAtMost offset source).1⟩
  let lineStart := Text.size (before.reverse.dropWhile (· != '\n'))
  let line ← slice before ⟨lineStart, Text.size before⟩
  return ⟨before.count '\n' + 1, line.length + 1⟩

def parse : Read (Except Rejection Document) := do
  match ← parseFrom source ⟨[], []⟩ 0 with
  | .ok children => return .ok ⟨source, children⟩
  | .error (fault, offset) => return .error ⟨fault, offset, ← place source offset⟩

end

end Reader

/-! ## The same parse -/

open Reader (Progress)

/-- What is loaded for an open construct. -/
def Opener.loaded : Opener → Reader.Open
  | element start head =>
    .element start head.name.key (.ofHead start head) (AttributeNode.ofHead start head)
  | block start tag branches label branchStart => .block start tag branches label branchStart

@[simp] theorem Opener.closing_loaded (o : Opener) : o.loaded.closing = o.closing := by
  cases o <;> rfl

@[simp] theorem Opener.start_loaded (o : Opener) : o.loaded.start = o.start := by
  cases o <;> rfl

namespace State

/-- A state as it was loaded. -/
def loaded (s : State) : Progress :=
  ⟨s.siblings, s.frames.map fun f => ⟨f.opener.loaded, f.outer⟩⟩

/-- The outcome of a step as it was loaded. -/
def Result.loaded (r : Result) : Except Fault Progress := r.map fun found => found.1.loaded

variable (s : State)

theorem endTag_loaded (key : Key) (position : Span) :
    s.loaded.endTag key position.stop = (s.endTag key position).loaded := by
  obtain ⟨siblings, frames⟩ := s
  match frames with
  | [] => rfl
  | ⟨.element start head, outer⟩ :: frames =>
    simp only [endTag, Progress.endTag, loaded, List.map_cons, Opener.loaded]
    split <;> rfl
  | ⟨.block _ _ _ _ _, _⟩ :: _ => rfl

theorem startBranch_loaded (tag : Tag) (position : Span) :
    s.loaded.startBranch tag position.start = (s.startBranch tag position).loaded := by
  obtain ⟨siblings, frames⟩ := s
  match frames with
  | [] => rfl
  | ⟨.element _ _, _⟩ :: _ => rfl
  | ⟨.block start block branches label branchStart, outer⟩ :: frames =>
    simp only [startBranch, Progress.startBranch, loaded, List.map_cons, Opener.loaded]
    split <;> rfl

theorem endBlock_loaded (name : Text) (tag : Tag) (position : Span) :
    s.loaded.endBlock name tag position = (s.endBlock name tag position).loaded := by
  obtain ⟨siblings, frames⟩ := s
  match frames with
  | [] => rfl
  | ⟨.element _ _, _⟩ :: _ => rfl
  | ⟨.block start block branches label branchStart, outer⟩ :: frames =>
    simp only [endBlock, Progress.endBlock, loaded, List.map_cons, Opener.loaded]
    split <;> rfl

theorem liquidTag_loaded (tag : Tag) (position : Span) :
    s.loaded.step position (.tag tag) = (s.liquidTag tag position).loaded := by
  simp only [liquidTag, Progress.step]
  cases Keyword.roleOf tag.name with
  | opensBlock => rfl
  | startsBranch => exact s.startBranch_loaded tag position
  | closes name => exact s.endBlock_loaded name tag position
  | inline => rfl

theorem startTag_loaded (start : Nat) (head : Head) :
    s.loaded.step (.ofText start head.chars) (Token.work ⟨start, .startTag head⟩) =
      (s.startTag start head).loaded := by
  simp only [Token.work, Token.leafNode?, startTag]
  cases head.voidName? with
  | some name => rfl
  | none =>
    simp only []
    split <;> rfl

/-- What a token means is all that a step uses of it. -/
theorem step_loaded (t : Token) : s.loaded.step t.span t.work = (s.step t).loaded := by
  obtain ⟨start, item⟩ := t
  cases item with
  | text value =>
    simp only [Token.work, Token.leafNode?, step]
    cases Node.ofText? start value <;> rfl
  | tag inner => exact s.liquidTag_loaded (.ofInner inner) _
  | startTag head => exact s.startTag_loaded start head
  | endTag name gap => exact s.endTag_loaded name.key _
  | _ => rfl

theorem finish_loaded : s.loaded.finish = s.finish := by
  simp only [Progress.finish, finish, loaded, List.getLast?_map]
  cases s.frames.getLast? <;> simp

end State

namespace Reader

open Cursor (Stands)

variable {source t : Text} {i : Nat}

/-- Parsing from a boundary on ends as taking the tokens of the text there ends. -/
theorem parseFrom_eq (s : State) (h : Stands source ⟨i, t⟩) :
    parseFrom source s.loaded i =
      pure (match s.reach (Token.ofTextAt i t) with
        | .ok s' => s'.finish
        | .error fault => .error fault) := by
  induction hlen : t.length using Nat.strongRecOn generalizing t i s with
  | ind n ih =>
    rw [parseFrom]
    rcases token_cases h with
      ⟨hend, htokens⟩ | ⟨l, rest, hlt, htoken, htokens, hl, hrest, hless, _, hon⟩
    · rw [if_neg hend, htokens, s.finish_loaded]
      rfl
    · rw [if_pos hlt, htoken, pure_bind, load_eq hl, pure_bind, htokens]
      change (match s.loaded.step (Token.span ⟨i, l⟩) (Token.work ⟨i, l⟩) with
        | .ok s' =>
          further source i (Token.reading ⟨i, l⟩).whole.stop >>= fun _ =>
            parseFrom source s' (i + l.size)
        | .error fault => pure (.error (fault, i))) = _
      rw [s.step_loaded, State.reach]
      cases hstep : s.step ⟨i, l⟩ with
      | error fault => rfl
      | ok found =>
        obtain ⟨s', event⟩ := found
        change (further source i (Token.reading ⟨i, l⟩).whole.stop >>= _) = _
        rw [hon, pure_bind]
        exact ih rest.length (by omega) s' hrest rfl

/-! ## Places -/

theorem place_eq (offset : Nat) : place source offset = pure (.ofOffset source offset) := by
  have hsource := Text.splitAtMost_append offset source
  rw [place, Place.ofOffset]
  generalize Text.splitAtMost offset source = cut at hsource
  obtain ⟨before, after⟩ := cut
  let line := before.reverse.takeWhile (· != '\n')
  let lines := before.reverse.dropWhile (· != '\n')
  have hbefore : before = lines.reverse ++ line.reverse := by
    rw [← List.reverse_append, List.takeWhile_append_dropWhile, List.reverse_reverse]
  have hcut : Stands source ⟨0, before ++ after⟩ := ⟨[], hsource.symm, rfl⟩
  have hline : Stands before ⟨Text.size lines, line.reverse ++ []⟩ :=
    ⟨lines.reverse, by rw [List.append_nil, ← hbefore], Text.size_reverse lines⟩
  have hstop : Text.size before = Text.size lines + Text.size line.reverse := by
    rw [hbefore, Text.size_append, Text.size_reverse lines]
  simp only []
  rw [slice_eq hcut (Nat.zero_add _).symm, pure_bind]
  change (slice before ⟨Text.size lines, Text.size before⟩ >>= _) = _
  rw [slice_eq hline hstop, pure_bind]
  have hplace := Place.advanceAll_eq before.reverse
  rw [List.reverse_reverse] at hplace
  rw [hplace, List.length_reverse]

/-- **Nothing is out of range**: parsing by offsets never reads outside the template or between the
bytes of a character, and its outcome is that of `Document.parse`. -/
theorem parse_eq (source : Text) : parse source = pure (Document.parse source) := by
  have hstands : Stands source ⟨0, source⟩ := ⟨[], rfl, rfl⟩
  have hfrom : parseFrom source ⟨[], []⟩ 0 = pure (Document.run source).2 := by
    rw [Document.run, State.run_eq]
    exact parseFrom_eq State.initial hstands
  rw [parse, hfrom, pure_bind, Document.parse]
  cases (Document.run source).2 with
  | ok children => rfl
  | error fault =>
    obtain ⟨fault, offset⟩ := fault
    simp only []
    rw [place_eq, pure_bind]
    rfl

end Reader

end LiquidTemplate
