import LiquidTemplate.Parse.Document

/-!
# The lines of a log

Each line of the log of a parse is spelled out here, and with it the name under which an element is
reported (`ElementName.shown`). Whether the lines nest is read off them alone: `Report.Nest` keeps
the names of what is open, and lets only the innermost one be closed or branch.
-/

namespace LiquidTemplate

/-- How the name of an element is written in the log: as it stands in the template, or as the markup
of its drop without blanks around it, between braces and single spaces. -/
def ElementName.shown : ElementName → Text
  | fixed name => name
  | dynamic drop => ['{', '{', ' '] ++ Text.trim drop.markup.text ++ [' ', '}', '}']

/-- Elements are reported by the name that the node of the element has. -/
theorem ElementName.shown_ofHead (start : Nat) (head : Head) :
    (ofHead start head).shown = head.name.key.chars := by
  unfold ofHead
  cases head.name with
  | fixed name => rfl
  | dynamic inner => simp [shown, DropNode.ofInner, TagName.key, Key.chars, Markup.normalized,
      Delimiter.enclose, Delimiter.opening, Delimiter.closing]

namespace Report

/-! ## Lines -/

/-- A line about something that has a name and a place. -/
def named (message name : Text) (offset : Nat) : Report :=
  ⟨.trace, message, [("name".toList, .text name), ("offset".toList, .number offset)]⟩

def openElement : Text → Nat → Report := named "open element".toList

def closeElement : Text → Nat → Report := named "close element".toList

def openBlock : Text → Nat → Report := named "open block".toList

def closeBlock : Text → Nat → Report := named "close block".toList

def branch (name block : Text) (offset : Nat) : Report :=
  ⟨.trace, "branch".toList,
    [("name".toList, .text name), ("block".toList, .text block), ("offset".toList, .number offset)]⟩

/-- The first line. -/
def parsing (bytes : Nat) : Report :=
  ⟨.debug, "parsing document".toList, [("bytes".toList, .number bytes)]⟩

/-- The last line of a template that is accepted. -/
def parsed (nodes : Nat) : Report :=
  ⟨.debug, "parsed document".toList, [("nodes".toList, .number nodes)]⟩

/-- The last line of a template that is rejected. Kinds are written as one word. -/
def rejecting (kind : FaultKind) (offset : Nat) : Report :=
  let word := match kind with
    | .unexpectedEndOfInput => "UnexpectedEndOfInput"
    | .mismatchedClosingTag => "MismatchedClosingTag"
    | .unexpectedClosingTag => "UnexpectedClosingTag"
    | .invalidBranchPlacement => "InvalidBranchPlacement"
    | .malformedDelimiter => "MalformedDelimiter"
    | .malformedHtmlTag => "MalformedHtmlTag"
  ⟨.debug, "rejected document".toList,
    [("kind".toList, .text word.toList), ("offset".toList, .number offset)]⟩

/-! ## Nesting -/

/-- Something that was opened and not closed yet, by its name in the log. -/
inductive Opened where
  | element (name : Text)
  | block (name : Text)

/-- Lines that lead from what is open before them to what is open behind them, innermost first. Only
the innermost construct is closed, under the name that it was opened with, and a branch belongs to
it and to a block that may have the branch. -/
inductive Nest : List Opened → List Report → List Opened → Prop
  | done (opened : List Opened) : Nest opened [] opened
  | openElement {opened last : List Opened} {rest : List Report} (name : Text) (offset : Nat)
      (h : Nest (.element name :: opened) rest last) :
      Nest opened (openElement name offset :: rest) last
  | closeElement {opened last : List Opened} {rest : List Report} (name : Text) (offset : Nat)
      (h : Nest opened rest last) :
      Nest (.element name :: opened) (closeElement name offset :: rest) last
  | openBlock {opened last : List Opened} {rest : List Report} (name : Text) (offset : Nat)
      (h : Nest (.block name :: opened) rest last) :
      Nest opened (openBlock name offset :: rest) last
  | branch {opened last : List Opened} {rest : List Report} {name block : Text} (offset : Nat)
      (hb : Keyword.isBranchOf block name = true) (h : Nest (.block block :: opened) rest last) :
      Nest (.block block :: opened) (branch name block offset :: rest) last
  | closeBlock {opened last : List Opened} {rest : List Report} (name : Text) (offset : Nat)
      (h : Nest opened rest last) :
      Nest (.block name :: opened) (closeBlock name offset :: rest) last

end Report

/-! ## Events -/

/-- What each event writes to the log. -/
theorem Event.report_eq (e : Event) : e.report = match e with
    | started bytes => .parsing bytes
    | openedElement key offset => .openElement key.chars offset
    | closedElement key offset => .closeElement key.chars offset
    | openedBlock name offset => .openBlock name offset
    | startedBranch name block offset => .branch name block offset
    | closedBlock name offset => .closeBlock name offset
    | accepted nodes => .parsed nodes
    | rejected kind offset => .rejecting kind offset := by
  cases e with
  | rejected kind offset => cases kind <;> rfl
  | _ => rfl

end LiquidTemplate
