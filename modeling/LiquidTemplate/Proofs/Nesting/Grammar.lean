import LiquidTemplate.Parse.Key
import LiquidTemplate.Lexeme.Basic

/-!
# The nesting language

Elements and blocks share one nesting, so the templates that are accepted are words of a grammar
over a few symbols, one for each token. A sequence is a run of items; an item is a leaf, an element
around a sequence, or a block around sequences that branches separate.
-/

namespace LiquidTemplate

/-- What a token is to the nesting of elements and blocks. -/
inductive Symbol where
  | leaf
  /-- Opens an element. -/
  | opening (key : Key)
  /-- Closes an element. -/
  | closing (key : Key)
  | block (name : Text)
  | branch (name : Text)
  | blockEnd (name : Text)
  /-- Stands in no template that is accepted. -/
  | invalid
deriving DecidableEq, Repr

/-- Whether an element stays open behind its start tag. -/
def Head.opens (h : Head) : Bool := h.voidName?.isNone && !h.selfClosing

def Lexeme.symbol : Lexeme → Symbol
  | startTag head => if head.opens then .opening head.name.key else .leaf
  | endTag name _ => .closing name.key
  | tag inner =>
    let name := (Tag.ofInner inner).name
    match Keyword.roleOf name with
    | .opensBlock => .block name
    | .startsBranch => .branch name
    | .closes block => .blockEnd block
    | .inline => .leaf
  | text _ | drop _ | comment _ | doctype _ _ | rawElement _ _ _ _ | rawTag _ _ _ => .leaf
  | invalid _ _ => .invalid

namespace Nesting

mutual

/-- A run of items. -/
inductive Sequence : List Symbol → Prop
  | empty : Sequence []
  | cons {w v : List Symbol} : Item w → Sequence v → Sequence (w ++ v)

inductive Item : List Symbol → Prop
  | leaf : Item [.leaf]
  | element {key : Key} {w : List Symbol} :
    Sequence w → Item (.opening key :: w ++ [.closing key])
  | block {name : Text} {w v : List Symbol} :
    Sequence w → Branches name v → Item (.block name :: w ++ v ++ [.blockEnd name])

/-- What follows the first, unlabelled branch of the block `name`. -/
inductive Branches : Text → List Symbol → Prop
  | none {name : Text} : Branches name []
  | more {name branch : Text} {w v : List Symbol} :
    Keyword.isBranchOf name branch = true → Sequence w → Branches name v →
      Branches name (.branch branch :: w ++ v)

end

mutual

theorem Sequence.valid : ∀ {w : List Symbol}, Sequence w → .invalid ∉ w
  | _, .empty => by simp
  | _, .cons hi hw => by simp [hi.valid, hw.valid]

theorem Item.valid : ∀ {w : List Symbol}, Item w → .invalid ∉ w
  | _, .leaf => by simp
  | _, .element hw => by simp [hw.valid]
  | _, .block hw hv => by simp [hw.valid, hv.valid]

theorem Branches.valid : ∀ {name : Text} {w : List Symbol}, Branches name w → .invalid ∉ w
  | _, _, .none => by simp
  | _, _, .more _ hw hv => by simp [hw.valid, hv.valid]

end

end Nesting

end LiquidTemplate
