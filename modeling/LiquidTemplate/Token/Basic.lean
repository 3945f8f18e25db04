import LiquidTemplate.Lexeme.Scan
import LiquidTemplate.Text.Located

/-!
# Tokens

A token is a lexeme with the offset it starts at, and the tokens of a template stand one behind the
other. A `Cursor` is a place in a template from which tokens are taken one at a time; since a lexeme
depends only on the text from its start on, a cursor may be put anywhere.
-/

namespace LiquidTemplate

/-- A lexeme and where it starts. -/
abbrev Token := Located Lexeme

namespace Token

/-- Where the token ends. -/
def stop (t : Token) : Nat := t.start + t.item.size

def span (t : Token) : Span := ⟨t.start, t.stop⟩

/-- The tokens of a text that starts at `start`. -/
def ofTextAt (start : Nat) (t : Text) : List Token :=
  Located.locate Lexeme.size start (Lexeme.ofText t)

/-- The tokens of a template. -/
def ofText (t : Text) : List Token := ofTextAt 0 t

end Token

/-- A place in a template: the offset, and the text from there on (`Scanner`). -/
structure Cursor where
  offset : Nat
  text : Text
deriving DecidableEq, Repr

namespace Cursor

/-- The last character boundary that is at most `offset` bytes into the template (`starting_at`). -/
def ofOffset (source : Text) (offset : Nat) : Cursor :=
  let parts := Text.splitAtMost offset source
  ⟨Text.size parts.1, parts.2⟩

/-- Takes a token (`next`). -/
def next? (c : Cursor) : Option (Token × Cursor) :=
  (Lexeme.next? c.text).map fun (l, rest) => (⟨c.offset, l⟩, ⟨c.offset + l.size, rest⟩)

/-- All tokens from here on. -/
def tokens (c : Cursor) : List Token := Token.ofTextAt c.offset c.text

/-- The end of the template. -/
def finish (c : Cursor) : Cursor := ⟨c.offset + Text.size c.text, []⟩

/-- The tokens from here on are the next one and those behind it. -/
theorem tokens_eq (c : Cursor) :
    c.tokens = match c.next? with
      | none => []
      | some (t, c') => t :: c'.tokens := by
  rw [tokens, Token.ofTextAt, Lexeme.ofText_eq]
  cases h : Lexeme.next? c.text with
  | none => simp [next?, h]
  | some r => simp [next?, h, tokens, Token.ofTextAt]

end Cursor

end LiquidTemplate
