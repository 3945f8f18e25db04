import LiquidTemplate.Parse.State
import LiquidTemplate.Tree.Size

/-!
# Parsing a template

`Document.parse` gives the document of a template, or says at which token and why it is rejected.
`Document.trace` lists what happened on the way; it always ends with the outcome. `Document.log` is
the same as it is written.
-/

namespace LiquidTemplate.Document

/-- What happened during a parse, last event first, and its outcome (`parse_document`). -/
def run (source : Text) : List Event × Except (Fault × Nat) (List Node) :=
  State.initial.run [.started (Text.size source)] (Token.ofText source)

/-- The document of a template or its rejection, from the outcome of a parse. -/
def ofOutcome (source : Text) : Except (Fault × Nat) (List Node) → Except Rejection Document
  | .ok children => .ok ⟨source, children⟩
  | .error (fault, offset) => .error (.ofFault source fault offset)

/-- Parses a template (`parse`). -/
def parse (source : Text) : Except Rejection Document := ofOutcome source (run source).2

theorem exists_of_map_parse {α : Type} {source : Text} {f : Document → α} {a : α}
    (h : (parse source).toOption.map f = some a) : ∃ d, parse source = .ok d ∧ f d = a := by
  cases hd : parse source with
  | error r => rw [hd] at h; cases h
  | ok d => rw [hd] at h; exact ⟨d, rfl, Option.some.inj h⟩

/-- The event that reports an outcome. -/
def outcomeEvent : Except Rejection Document → Event
  | .ok d => .accepted d.size
  | .error r => .rejected r.fault.kind r.offset

theorem outcomeEvent_eq_accepted_iff {outcome : Except Rejection Document} {nodes : Nat} :
    outcomeEvent outcome = .accepted nodes ↔ ∃ d, outcome = .ok d ∧ d.size = nodes := by
  cases outcome <;> simp [outcomeEvent]

theorem outcomeEvent_eq_rejected_iff {outcome : Except Rejection Document} {kind : FaultKind}
    {offset : Nat} :
    outcomeEvent outcome = .rejected kind offset ↔
      ∃ r, outcome = .error r ∧ r.fault.kind = kind ∧ r.offset = offset := by
  cases outcome <;> simp [outcomeEvent]

/-- Everything that happens when a template is parsed. -/
def trace (source : Text) : List Event :=
  let (events, outcome) := run source
  (outcomeEvent (ofOutcome source outcome) :: events).reverse

theorem trace_eq (source : Text) :
    trace source = (run source).1.reverse ++ [outcomeEvent (parse source)] := by
  simp [trace, parse]

/-- The lines of the log when a template is parsed. -/
def log (source : Text) : List Report := (trace source).map Event.report

end LiquidTemplate.Document
