import LiquidTemplate.Parse.Document
import LiquidTemplate.Tree.Json

/-!
# The commands of the program

A command reads one file and either checks it or prints its syntax tree. Running one is a function
from what reading the file gave to an exit code and the text for the two output streams.
-/

namespace LiquidTemplate

/-- Something to do with a file. -/
inductive Command where
  /-- Checks the structure. -/
  | check (path : Text)
  /-- Prints the syntax tree. -/
  | ast (path : Text) (pretty : Bool)
deriving DecidableEq, Repr

/-- Why a file has no text. -/
inductive ReadFailure where
  | notFound
  | unreadable (reason : Text)
deriving DecidableEq, Repr

namespace ReadFailure

/-- Reading a folder as a file. -/
def isFolder : ReadFailure := unreadable "Is a directory (os error 21)".toList

/-- The bytes are no text. -/
def notText : ReadFailure := unreadable "stream did not contain valid UTF-8".toList

def message (path : Text) : ReadFailure → Text
  | notFound => "Error: file not found: ".toList ++ path
  | unreadable reason => "Error reading ".toList ++ path ++ ": ".toList ++ reason

end ReadFailure

/-- What a run of the program leaves behind. -/
structure Outcome where
  exitCode : Nat
  output : Text
  errors : Text
deriving DecidableEq, Repr

namespace Outcome

/-- A run that printed a text. -/
def printed (t : Text) : Outcome := ⟨0, t ++ ['\n'], []⟩

/-- A run that reported success. -/
def reported (t : Text) : Outcome := ⟨0, [], t ++ ['\n']⟩

/-- A run that failed. -/
def failed (t : Text) : Outcome := ⟨1, [], t ++ ['\n']⟩

/-- A run that was asked for something it does not know. -/
def misused (t : Text) : Outcome := ⟨2, [], t ++ ['\n']⟩

end Outcome

namespace Command

def path : Command → Text
  | check path => path
  | ast path _ => path

/-- The line that reports a rejected file, in the form editors pick up (`render_error`). -/
def rejectionLine (path : Text) (r : Rejection) : Text :=
  path ++ [':'] ++ Rejection.digits r.place.line ++ [':'] ++ Rejection.digits r.place.column ++
    ": ".toList ++ r.summary

/-- What a command does with the document of its file (`cmd_check`, `cmd_ast`). -/
def finish (d : Document) : Command → Outcome
  | check path =>
    .reported ("OK: ".toList ++ path ++ " (".toList ++ Rejection.digits d.size ++
      " nodes)".toList)
  | ast path pretty =>
    match d.render? (if pretty then .indented else .compact) with
    | some t => .printed t
    | none =>
      .failed ("Error serializing ".toList ++ path ++ ": ".toList ++ Document.depthMessage)

/-- Runs a command on the content of its file. -/
def run (c : Command) (content : Except ReadFailure Text) : Outcome :=
  match content with
  | .error e => .failed (e.message c.path)
  | .ok source =>
    match Document.parse source with
    | .error r => .failed (rejectionLine c.path r)
    | .ok d => c.finish d

end Command

end LiquidTemplate
