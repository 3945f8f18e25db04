import LiquidTemplate.Tree.Node
import LiquidTemplate.Parse.Event

/-!
# Matching start tags and end tags

One stack holds the open elements and the open blocks, so an end tag can close the innermost one
only, of whichever kind it is. The state is the part of the tree around the place that parsing has
reached: the finished nodes there, and for each open construct what it is and which nodes stand in
front of it. Lists of finished nodes and branches are kept in reverse.
-/

namespace LiquidTemplate

/-- An element or block that waits for its end tag. -/
inductive Opener where
  /-- The start tag and where it starts. -/
  | element (start : Nat) (head : Head)
  /-- The tag, where it starts, the branches that are complete, and the label and the start of the
  one that is not. -/
  | block (start : Nat) (tag : Tag) (branches : List Branch) (label : Option Tag)
      (branchStart : Nat)

namespace Opener

/-- Where the construct starts. -/
def start : Opener → Nat
  | element start _ => start
  | block start _ _ _ _ => start

/-- The end tag that is waited for. -/
def closing : Opener → Closing
  | element _ head => .element head.name.key
  | block _ tag _ _ _ => .block tag.name

end Opener

/-- An open construct, and the nodes that stand before it in its container (`Frame`). -/
structure Frame where
  opener : Opener
  outer : List Node

/-- How far parsing has come. -/
structure State where
  /-- The nodes of the innermost container. -/
  siblings : List Node
  /-- The open constructs, innermost first. -/
  frames : List Frame

namespace State

def initial : State := ⟨[], []⟩

/-- Adds a finished node to the innermost container (`append`). -/
def append (s : State) (n : Node) : State := { s with siblings := n :: s.siblings }

/-- Opens a construct. -/
def push (s : State) (o : Opener) : State := ⟨[], ⟨o, s.siblings⟩ :: s.frames⟩

/-- What a step may do: reach a new state and report an event, or find a fault. -/
abbrev Result := Except Fault (State × Option Event)

/-- A step that reports nothing. -/
def quietly (s : State) : Result := .ok (s, none)

/-! ## Elements -/

/-- Opens an element, or appends one that is complete (`start_tag`). A void element is one even
where its tag ends in `/>`. -/
def startTag (s : State) (start : Nat) (head : Head) : Result :=
  let position := Span.ofText start head.chars
  let attributes := AttributeNode.ofHead start head
  match head.voidName? with
  | some name => (s.append (.voidElement name attributes position)).quietly
  | none =>
    if head.selfClosing then
      (s.append (.selfClosingElement (.ofHead start head) attributes position)).quietly
    else .ok (s.push (.element start head), some (.openedElement head.name.key start))

/-- Closes the innermost open construct, if it is an element with this key (`end_tag`). -/
def endTag (s : State) (key : Key) (position : Span) : Result :=
  match s.frames with
  | [] => .error (.unopened (.element key))
  | ⟨.element start head, outer⟩ :: frames =>
    if head.name.key = key then
      let node := .element (.ofHead start head) (AttributeNode.ofHead start head)
        s.siblings.reverse ⟨start, position.stop⟩
      .ok (⟨node :: outer, frames⟩, some (.closedElement key position.start))
    else .error (.mismatched (.element head.name.key) (.element key))
  | ⟨opener, _⟩ :: _ => .error (.mismatched opener.closing (.element key))

/-! ## Blocks -/

/-- Completes the branch under way at `stop`. -/
def finishBranch (s : State) (label : Option Tag) (start stop : Nat) : Branch :=
  .mk label s.siblings.reverse ⟨start, stop⟩

/-- Starts a new branch of the innermost open construct, if it is a block that may have it
(`branch`). -/
def startBranch (s : State) (tag : Tag) (position : Span) : Result :=
  match s.frames with
  | [] => .error (.strayBranch tag.name)
  | ⟨.element _ head, _⟩ :: _ => .error (.branchOfElement tag.name head.name.key)
  | ⟨.block start block branches label branchStart, outer⟩ :: frames =>
    if Keyword.isBranchOf block.name tag.name then
      let branches := s.finishBranch label branchStart position.start :: branches
      .ok (⟨[], ⟨.block start block branches (some tag) position.start, outer⟩ :: frames⟩,
        some (.startedBranch tag.name block.name position.start))
    else .error (.branchOfBlock tag.name block.name)

/-- Closes the innermost open construct, if it is a block of this name (`end_block`); `tag` is the
end tag. -/
def endBlock (s : State) (name : Text) (tag : Tag) (position : Span) : Result :=
  match s.frames with
  | [] => .error (.unopened (.block name))
  | ⟨.block start block branches label branchStart, outer⟩ :: frames =>
    if block.name = name then
      let branches := s.finishBranch label branchStart position.start :: branches
      let node := .block block branches.reverse tag.trims ⟨start, position.stop⟩
      .ok (⟨node :: outer, frames⟩, some (.closedBlock name position.start))
    else .error (.mismatched (.block block.name) (.block name))
  | ⟨opener, _⟩ :: _ => .error (.mismatched opener.closing (.block name))

/-- Takes a Liquid tag, whose name says what it does (`liquid_tag`). -/
def liquidTag (s : State) (tag : Tag) (position : Span) : Result :=
  match Keyword.roleOf tag.name with
  | .opensBlock =>
    .ok (s.push (.block position.start tag [] none position.stop),
      some (.openedBlock tag.name position.start))
  | .startsBranch => s.startBranch tag position
  | .closes name => s.endBlock name tag position
  | .inline => (s.append (.tag tag position)).quietly

/-! ## Tokens -/

/-- Takes a token (`consume`). -/
def step (s : State) (t : Token) : Result :=
  match t.item with
  | .text value =>
    match Node.ofText? t.start value with
    | some node => (s.append node).quietly
    | none => s.quietly
  | .drop inner => (s.append (.drop (.ofInner t.start inner))).quietly
  | .tag inner => s.liquidTag (.ofInner inner) t.span
  | .startTag head => s.startTag t.start head
  | .endTag name _ => s.endTag name.key t.span
  | .comment body => (s.append (.comment body t.span)).quietly
  | .doctype _ raw => (s.append (.doctype (Text.trim raw) t.span)).quietly
  | .rawElement head body _ _ =>
    (s.append (.rawElement head.name.chars body (AttributeNode.ofHead t.start head) t.span)).quietly
  | .rawTag opening body closing =>
    (s.append (.rawTag (.ofInner opening) body (Tag.ofInner closing).trims t.span)).quietly
  | .invalid flaw _ => .error (.flaw flaw)

/-- The top-level nodes at the end of a template, where nothing may be open; a fault there is that
of the outermost open construct. This is the end of `parse_document`. -/
def finish (s : State) : Except (Fault × Nat) (List Node) :=
  match s.frames.getLast? with
  | none => .ok s.siblings.reverse
  | some frame => .error (.unclosed frame.opener.closing, frame.opener.start)

/-- Takes all tokens, or those up to the first fault, as the loop of `parse_document` does, and
gives the events in reverse, behind those in `events`. -/
def run (s : State) (events : List Event) : List Token →
    List Event × Except (Fault × Nat) (List Node)
  | [] => (events, s.finish)
  | t :: ts =>
    match s.step t with
    | .ok (s', some event) => s'.run (event :: events) ts
    | .ok (s', none) => s'.run events ts
    | .error fault => (events, .error (fault, t.start))

end State

end LiquidTemplate
