import LiquidTemplate.Text.Search

/-!
# Delimiters and what can be wrong with a lexeme

Drops, tags and comments stand between a fixed opening and a fixed closing, and end at the first
closing behind their opening. A template in which something is left open, or in which a tag head
cannot be read, has a `Flaw` there.
-/

namespace LiquidTemplate

/-- The constructs that have an opening and a closing of their own. -/
inductive Delimiter where
  | drop
  | tag
  | comment
deriving DecidableEq, Repr

namespace Delimiter

def opening : Delimiter → Text
  | drop => ['{', '{']
  | tag => ['{', '%']
  | comment => ['<', '!', '-', '-']

def closing : Delimiter → Text
  | drop => ['}', '}']
  | tag => ['%', '}']
  | comment => ['-', '-', '>']

/-- A construct with both delimiters. -/
def enclose (d : Delimiter) (inner : Text) : Text := d.opening ++ inner ++ d.closing

theorem enclose_ne_nil (d : Delimiter) (inner : Text) : d.enclose inner ≠ [] := by
  cases d <;> simp [enclose, opening]

/-- Splits the text behind an opening into what the delimiters enclose and what follows
(`delimited_end`). -/
def finish? (d : Delimiter) (t : Text) : Option (Text × Text) := Text.splitFirst? d.closing t

theorem append_of_finish? {d : Delimiter} {t inner rest : Text}
    (h : d.finish? t = some (inner, rest)) : t = inner ++ d.closing ++ rest :=
  Text.append_of_splitFirst? h

theorem length_lt_of_finish? {d : Delimiter} {t inner rest : Text}
    (h : d.finish? t = some (inner, rest)) : rest.length < t.length := by
  rw [append_of_finish? h]
  cases d <;> simp [closing] <;> omega

end Delimiter

/-- Why a tag cannot be read. -/
inductive HeadFlaw where
  | unterminatedTag
  | liquidAsAttributeName
  | unexpectedCharacter
  | unterminatedValue
  | missingValue
  | unclosedEndTag
  | unterminatedDoctype
deriving DecidableEq, Repr

/-- How a flaw in a tag is reported. -/
def HeadFlaw.message : HeadFlaw → Text
  | unterminatedTag => "unterminated tag".toList
  | liquidAsAttributeName => "Liquid markup cannot be used as an attribute name".toList
  | unexpectedCharacter => "unexpected character in tag".toList
  | unterminatedValue => "unterminated attribute value".toList
  | missingValue => "expected an attribute value".toList
  | unclosedEndTag => "expected `>` to close the end tag".toList
  | unterminatedDoctype => "unterminated doctype".toList

/-- Why the rest of a template cannot be split into lexemes (`Invalid`). -/
inductive Flaw where
  /-- A delimiter has no closing. -/
  | unterminated (delimiter : Delimiter)
  /-- A raw element or raw tag of this name has no end. -/
  | unclosedRaw (name : Text)
  | head (flaw : HeadFlaw)
deriving DecidableEq, Repr

end LiquidTemplate
