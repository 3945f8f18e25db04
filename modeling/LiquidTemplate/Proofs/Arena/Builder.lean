import LiquidTemplate.Proofs.Nesting.Move
import LiquidTemplate.Proofs.Arena.Layout

/-!
# Building the arena while parsing

A template's records can be made as its tokens are read: what is complete is added at once, and a
record is linked to its content when it is added. The dynamic name and the attributes of an element
are added with its start tag, a branch when the next tag of its block is read, an element or a block
at its end tag; until then their numbers wait in a frame. `Builder.build` does that. It fails where
the template has a fault, where a number has no record and where a record would get a second parent.
-/

namespace LiquidTemplate

/-- Why an arena is not built. -/
inductive Failure where
  | fault (fault : Fault)
  /-- There is no record to link. -/
  | missing (id : Nat)
  /-- The record to link has a parent. -/
  | linkedTwice (id : Nat)

namespace Record

/-- Makes `parent` the parent of the records with these numbers (`link`). -/
def link (parent : Nat) (records : List Record) : List Nat → Except Failure (List Record)
  | [] => .ok records
  | id :: ids =>
    match records[id]? with
    | none => .error (.missing id)
    | some r =>
      match r.parent with
      | some _ => .error (.linkedTwice id)
      | none => link parent (records.set id { r with parent := some parent }) ids

/-- Adds a record and links its content to it (`push`). -/
def push (records : List Record) (entry : Entry) (contents : List Slot) :
    Except Failure (List Record × Slot) := do
  let id := records.length
  let records ← link id (records ++ [⟨id, none, entry, contents⟩]) (contents.map Prod.snd)
  return (records, (entry.role, id))

mutual

/-- Adds the records of a tree, those of its content first. -/
def allocate (records : List Record) : Tree Entry → Except Failure (List Record × Slot)
  | .node entry ts => do
    let (records, contents) ← allocateAll records ts
    push records entry contents

def allocateAll (records : List Record) :
    List (Tree Entry) → Except Failure (List Record × List Slot)
  | [] => .ok (records, [])
  | t :: ts => do
    let (records, slot) ← allocate records t
    let (records, slots) ← allocateAll records ts
    return (records, slot :: slots)

end

end Record

open Record (push allocate allocateAll link)

/-- An element or block that waits for its end tag, with the content it has so far. -/
inductive OpenNode where
  | element (start : Nat) (head : Head) (held : List Slot)
  | block (start : Nat) (tag : Tag) (branches : List Slot) (label : Option Tag) (branchStart : Nat)

/-- The end tag that is waited for. -/
def OpenNode.closing : OpenNode → Closing
  | element _ head _ => .element head.name.key
  | block _ tag _ _ _ => .block tag.name

structure BuilderFrame where
  node : OpenNode
  /-- The nodes that stand before it in its container. -/
  outer : List Slot

structure Builder where
  records : List Record
  /-- The nodes of the innermost container. -/
  siblings : List Slot
  /-- What is open, innermost first. -/
  frames : List BuilderFrame

namespace Builder

/-- An arena with nothing but the document. -/
def initial (source : Text) : Builder :=
  ⟨[⟨0, none, ⟨.child, .document, .ofText 0 source⟩, []⟩], [], []⟩

/-- Adds a node that is complete. -/
def leaf (b : Builder) (n : Node) : Except Failure Builder := do
  let (records, slot) ← allocate b.records n.outline
  return { b with records, siblings := b.siblings ++ [slot] }

/-- Adds what an element holds apart from its children. -/
def openElement (b : Builder) (start : Nat) (head : Head) : Except Failure Builder := do
  let (records, name) ← allocateAll b.records (ElementName.ofHead start head).outline
  let (records, attributes) ←
    allocateAll records ((AttributeNode.ofHead start head).map AttributeNode.outline)
  return ⟨records, [], ⟨.element start head (name ++ attributes), b.siblings⟩ :: b.frames⟩

def openBlock (b : Builder) (tag : Tag) (position : Span) : Builder :=
  ⟨b.records, [], ⟨.block position.start tag [] none position.stop, b.siblings⟩ :: b.frames⟩

/-- Closes an element (`end_tag`, `element`). -/
def endTag (b : Builder) (key : Key) (stop : Nat) : Except Failure Builder :=
  match b.frames with
  | [] => .error (.fault (.unopened (.element key)))
  | ⟨.element start head held, outer⟩ :: frames =>
    if head.name.key = key then do
      let entry := ⟨.child, .element (ElementName.ofHead start head).fixed?, ⟨start, stop⟩⟩
      let (records, slot) ← push b.records entry (held ++ b.siblings)
      return ⟨records, outer ++ [slot], frames⟩
    else .error (.fault (.mismatched (.element head.name.key) (.element key)))
  | ⟨node, _⟩ :: _ => .error (.fault (.mismatched node.closing (.element key)))

/-- Adds the branch under way (`branch`). -/
def pushBranch (b : Builder) (label : Option Tag) (start stop : Nat) :
    Except Failure (List Record × Slot) :=
  push b.records ⟨.child, .branch label, ⟨start, stop⟩⟩ b.siblings

def startBranch (b : Builder) (tag : Tag) (start : Nat) : Except Failure Builder :=
  match b.frames with
  | [] => .error (.fault (.strayBranch tag.name))
  | ⟨.element _ head _, _⟩ :: _ => .error (.fault (.branchOfElement tag.name head.name.key))
  | ⟨.block first block branches label branchStart, outer⟩ :: frames =>
    if Keyword.isBranchOf block.name tag.name then do
      let (records, slot) ← b.pushBranch label branchStart start
      return ⟨records, [],
        ⟨.block first block (branches ++ [slot]) (some tag) start, outer⟩ :: frames⟩
    else .error (.fault (.branchOfBlock tag.name block.name))

/-- Closes a block (`end_block`, `block_tag`). -/
def endBlock (b : Builder) (name : Text) (tag : Tag) (position : Span) : Except Failure Builder :=
  match b.frames with
  | [] => .error (.fault (.unopened (.block name)))
  | ⟨.block first block branches label branchStart, outer⟩ :: frames =>
    if block.name = name then do
      let (records, slot) ← b.pushBranch label branchStart position.start
      let entry := ⟨.child, .block block tag.trims, ⟨first, position.stop⟩⟩
      let (records, slot) ← push records entry (branches ++ [slot])
      return ⟨records, outer ++ [slot], frames⟩
    else .error (.fault (.mismatched (.block block.name) (.block name)))
  | ⟨node, _⟩ :: _ => .error (.fault (.mismatched node.closing (.block name)))

/-- Takes a token that opens and closes nothing. -/
def inline (b : Builder) (t : Token) : Except Failure Builder :=
  match t.leafNode? with
  | some n => b.leaf n
  | none => .ok b

/-- Takes a token (`consume`). -/
def step (b : Builder) (t : Token) : Except Failure Builder :=
  match t.item with
  | .startTag head => if head.opens then b.openElement t.start head else b.inline t
  | .endTag name _ => b.endTag name.key t.stop
  | .tag inner =>
    let tag := Tag.ofInner inner
    match Keyword.roleOf tag.name with
    | .opensBlock => .ok (b.openBlock tag t.span)
    | .startsBranch => b.startBranch tag t.start
    | .closes name => b.endBlock name tag t.span
    | .inline => b.inline t
  | .invalid flaw _ => .error (.fault (.flaw flaw))
  | _ => b.inline t

/-- Gives the document its children (`finish`). -/
def finish (b : Builder) : Except Failure (List Record) :=
  match b.frames.getLast? with
  | some frame => .error (.fault (.unclosed frame.node.closing))
  | none =>
    link 0 (b.records.modify 0 fun root => { root with contents := b.siblings })
      (b.siblings.map Prod.snd)

def run (b : Builder) : List Token → Except Failure (List Record)
  | [] => b.finish
  | t :: ts => do (← b.step t).run ts

/-- The records of a template, made as its tokens are read (`parse_document`). -/
def build (source : Text) : Except Failure (List Record) :=
  (initial source).run (Token.ofText source)

end Builder

end LiquidTemplate
