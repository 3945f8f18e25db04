import LiquidTemplate.Parse.Rejection

/-!
# What parsing reports on the way

Opening and closing an element or a block and starting a branch are each reported when they happen;
the start of a parse and its outcome are reported around them. An event is written to the log as a
`Report`: a message and named fields, at the level of a parse as a whole or of what goes on in it.
-/

namespace LiquidTemplate

/-- Something that happened during a parse. `offset` is where the tag in question starts. -/
inductive Event where
  | started (bytes : Nat)
  | openedElement (key : Key) (offset : Nat)
  | closedElement (key : Key) (offset : Nat)
  | openedBlock (name : Text) (offset : Nat)
  | startedBranch (name block : Text) (offset : Nat)
  | closedBlock (name : Text) (offset : Nat)
  | accepted (nodes : Nat)
  | rejected (kind : FaultKind) (offset : Nat)
deriving DecidableEq, Repr

/-- How closely a log follows a parse. -/
inductive Level where
  /-- The parse as a whole. -/
  | debug
  /-- Every tag that opens or closes something. -/
  | trace
deriving DecidableEq, Repr

/-- What is written in a field of the log. -/
inductive FieldValue where
  | text (text : Text)
  | number (number : Nat)
deriving DecidableEq, Repr

/-- A line of the log. The fields stand in order, each behind its name. -/
structure Report where
  level : Level
  message : Text
  fields : List (Text × FieldValue)
deriving DecidableEq, Repr

namespace Event

/-- Whether the event belongs to a parse as a whole. -/
def isSummary : Event → Bool
  | started _ | accepted _ | rejected _ _ => true
  | _ => false

def level (e : Event) : Level := if e.isSummary then .debug else .trace

def message : Event → Text
  | started _ => "parsing document".toList
  | openedElement _ _ => "open element".toList
  | closedElement _ _ => "close element".toList
  | openedBlock _ _ => "open block".toList
  | startedBranch _ _ _ => "branch".toList
  | closedBlock _ _ => "close block".toList
  | accepted _ => "parsed document".toList
  | rejected _ _ => "rejected document".toList

def fields : Event → List (Text × FieldValue)
  | started bytes => [("bytes".toList, .number bytes)]
  | openedElement key offset | closedElement key offset =>
    [("name".toList, .text key.chars), ("offset".toList, .number offset)]
  | openedBlock name offset | closedBlock name offset =>
    [("name".toList, .text name), ("offset".toList, .number offset)]
  | startedBranch name block offset =>
    [("name".toList, .text name), ("block".toList, .text block), ("offset".toList, .number offset)]
  | accepted nodes => [("nodes".toList, .number nodes)]
  | rejected kind offset => [("kind".toList, .text kind.name), ("offset".toList, .number offset)]

/-- The event as it is written. -/
def report (e : Event) : Report := ⟨e.level, e.message, e.fields⟩

end Event

end LiquidTemplate
