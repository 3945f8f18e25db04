import LiquidTemplate.Lexeme.Basic

/-!
# What closes what

A tag's name is compared through its key: a written name as it stands, a drop by its trimmed markup,
and never one with the other. `Closing` is the construct that an open element or block waits for.
-/

namespace LiquidTemplate

/-- What is compared between a start tag and an end tag (`NameKey`). -/
inductive Key where
  | fixed (name : Text)
  | dynamic (markup : Text)
deriving DecidableEq, Repr

/-- How a name is shown in messages and events (`fmt` of `NameKey`). -/
def Key.chars : Key → Text
  | fixed name => name
  | dynamic markup => Delimiter.drop.enclose ([' '] ++ markup ++ [' '])

def TagName.key : TagName → Key
  | fixed name => .fixed name
  | dynamic inner => .dynamic ((Markup.ofInner inner).normalized)

/-- An end tag, of an element or of a block. -/
inductive Closing where
  | element (key : Key)
  | block (name : Text)
deriving DecidableEq, Repr

/-- How an end tag is shown in messages (`expected_close`). -/
def Closing.chars : Closing → Text
  | element key => ['<', '/'] ++ key.chars ++ ['>']
  | block name => Delimiter.tag.enclose ([' '] ++ Keyword.endTag name ++ [' '])

end LiquidTemplate
