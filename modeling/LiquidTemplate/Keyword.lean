import LiquidTemplate.Text.Search

/-!
# The words that have a role

HTML and Liquid each give some names a role: elements that have no content, elements and tags whose
content is kept verbatim, tags that open a block, and the branch tags that may split one. HTML names
are compared without regard to ASCII case, Liquid names exactly.
-/

namespace LiquidTemplate.Keyword

/-- In lower case, as far as ASCII goes. -/
def fold (name : Text) : Text := name.map Char.toLower

/-- HTML elements without content or end tag (`VOID_ELEMENTS`). -/
def voidElements : List Text :=
  ["area", "base", "br", "col", "embed", "hr", "img", "input", "link", "meta", "param", "source",
   "track", "wbr"].map String.toList

/-- HTML elements whose content is kept verbatim (`RAW_ELEMENTS`). -/
def rawElements : List Text := ["script", "style"].map String.toList

/-- Liquid tags whose content is kept verbatim up to their end tag (`RAW_TAGS`). -/
def rawTags : List Text :=
  ["raw", "comment", "javascript", "stylesheet", "schema"].map String.toList

/-- Liquid tags that open a block closed by an end tag (`BLOCK_TAGS`). -/
def blockTags : List Text :=
  ["if", "unless", "case", "for", "tablerow", "capture", "form", "paginate"].map String.toList

/-- Liquid tags that start a new branch of a block (`is_branch_tag`). -/
def branchTags : List Text := ["elsif", "else", "when"].map String.toList

/-- Which branch tags may split which block (`is_branch_of`). -/
def branchesOf : List (Text × List Text) :=
  [("if", ["elsif", "else"]), ("unless", ["elsif", "else"]), ("case", ["when", "else"]),
   ("for", ["else"]), ("tablerow", ["else"])].map
    fun (block, branches) => (block.toList, branches.map String.toList)

def isVoidElement (name : Text) : Bool := voidElements.contains (fold name)

def isRawElement (name : Text) : Bool := rawElements.contains (fold name)

def isRawTag (name : Text) : Bool := rawTags.contains name

def isBlockTag (name : Text) : Bool := blockTags.contains name

def isBranchTag (name : Text) : Bool := branchTags.contains name

/-- Whether the tag `branch` may split the block `block`. -/
def isBranchOf (block branch : Text) : Bool :=
  branchesOf.any fun (b, branches) => b == block && branches.contains branch

/-- The name of the tag that closes `block`. -/
def endTag (block : Text) : Text := "end".toList ++ block

/-- The block or raw tag that a tag of this name closes (`end_tag_block`). -/
def closedBy? (name : Text) : Option Text :=
  (Text.after? "end".toList name).filter fun block => isBlockTag block || isRawTag block

/-- What a Liquid tag that stands on its own does to the nesting. -/
inductive TagRole where
  | opensBlock
  | startsBranch
  /-- Closes the innermost block, which should be `block`. -/
  | closes (block : Text)
  | inline
deriving DecidableEq, Repr

/-- The role of a tag, from its name alone: the questions that `liquid_tag` asks, in its order. -/
def roleOf (name : Text) : TagRole :=
  if isBlockTag name then .opensBlock
  else if isBranchTag name then .startsBranch
  else match closedBy? name with
    | some block => .closes block
    | none => .inline

theorem closedBy?_eq_some_iff {name block : Text} :
    closedBy? name = some block ↔
      name = endTag block ∧ (isBlockTag block = true ∨ isRawTag block = true) := by
  simp [closedBy?, endTag, Option.filter_eq_some_iff, Text.after?_eq_some_iff]

/-- Every branch of a block is a branch tag. -/
theorem isBranchTag_of_isBranchOf {block branch : Text} (h : isBranchOf block branch = true) :
    isBranchTag branch = true := by
  simp [isBranchOf, branchesOf] at h
  simp [isBranchTag, branchTags]
  grind

end LiquidTemplate.Keyword
