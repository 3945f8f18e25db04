import LiquidTemplate.Parse.Key
import LiquidTemplate.Text.Place

/-!
# Why a template is rejected

A template is rejected at its first fault. `Fault` says what is wrong, `Rejection` also where. The
kinds group faults for programs, the messages word them for people.
-/

namespace LiquidTemplate

/-- What is wrong with a template. -/
inductive Fault where
  /-- The rest cannot be split into lexemes. -/
  | flaw (flaw : Flaw)
  /-- The template ends while something waits for its end tag. -/
  | unclosed (expected : Closing)
  /-- An end tag is not the one that is waited for. -/
  | mismatched (expected found : Closing)
  /-- An end tag stands where nothing is open. -/
  | unopened (found : Closing)
  /-- A branch tag stands where nothing is open. -/
  | strayBranch (branch : Text)
  | branchOfElement (branch : Text) (key : Key)
  | branchOfBlock (branch block : Text)
deriving DecidableEq, Repr

/-- The groups of faults (`ParseErrorKind`). -/
inductive FaultKind where
  | unexpectedEndOfInput
  | mismatchedClosingTag
  | unexpectedClosingTag
  | invalidBranchPlacement
  | malformedDelimiter
  | malformedHtmlTag
deriving DecidableEq, Repr

def FaultKind.name : FaultKind → Text
  | unexpectedEndOfInput => "UnexpectedEndOfInput".toList
  | mismatchedClosingTag => "MismatchedClosingTag".toList
  | unexpectedClosingTag => "UnexpectedClosingTag".toList
  | invalidBranchPlacement => "InvalidBranchPlacement".toList
  | malformedDelimiter => "MalformedDelimiter".toList
  | malformedHtmlTag => "MalformedHtmlTag".toList

namespace Fault

def kind : Fault → FaultKind
  | flaw (.unterminated _) => .malformedDelimiter
  | flaw (.unclosedRaw _) => .unexpectedEndOfInput
  | flaw (.head _) => .malformedHtmlTag
  | unclosed _ => .unexpectedEndOfInput
  | mismatched _ _ => .mismatchedClosingTag
  | unopened _ => .unexpectedClosingTag
  | strayBranch _ => .invalidBranchPlacement
  | branchOfElement _ _ => .invalidBranchPlacement
  | branchOfBlock _ _ => .invalidBranchPlacement

/-- A piece of the template inside a message. -/
def cite (t : Text) : Text := ['\x60'] ++ t ++ ['\x60']

def message : Fault → Text
  | flaw (.unterminated d) =>
    cite d.opening ++ " is not closed by a matching ".toList ++ cite d.closing
  | flaw (.unclosedRaw name) => cite name ++ " is never closed".toList
  | flaw (.head f) => f.message
  | unclosed expected =>
    "expected ".toList ++ expected.chars ++ " before the end of input".toList
  | mismatched expected found =>
    "expected ".toList ++ expected.chars ++ " but found ".toList ++ cite found.chars
  | unopened found => cite found.chars ++ " has no matching opening tag".toList
  | strayBranch branch => cite branch ++ " has no enclosing block".toList
  | branchOfElement branch key =>
    cite branch ++ " cannot be used directly inside ".toList ++ cite (['<'] ++ key.chars ++ ['>'])
  | branchOfBlock branch block =>
    cite branch ++ " cannot be used inside ".toList ++ cite block

end Fault

/-- A fault and where it is (`ParseError`). -/
structure Rejection where
  fault : Fault
  offset : Nat
  place : Place
deriving DecidableEq, Repr

namespace Rejection

/-- A fault at an offset of a template. -/
def ofFault (source : Text) (fault : Fault) (offset : Nat) : Rejection :=
  ⟨fault, offset, .ofOffset source offset⟩

/-- A number in decimal digits. -/
def digits (n : Nat) : Text := Nat.toDigits 10 n

/-- The message with its kind. -/
def summary (r : Rejection) : Text :=
  r.fault.message ++ " (".toList ++ r.fault.kind.name ++ [')']

/-- The rejection as a line for people (`fmt` of `ParseError`). -/
def display (r : Rejection) : Text :=
  "Parse error at line ".toList ++ digits r.place.line ++ ", column ".toList ++
    digits r.place.column ++ ": ".toList ++ r.summary

end Rejection

end LiquidTemplate
