import LiquidTemplate.Token.Parts
import LiquidTemplate.Proofs.Text.Utf8

/-!
# Scanning by offsets

A scanner may keep nothing but an offset into the template and cut the template wherever it needs
the text there. Each cut, each byte taken by its index and each span is then something that can go
wrong: an offset may lie past the end or inside a character, a span may stop before it starts, and a
span taken for a construct may be too short for two delimiters. In `Read` all of that is `none`, and
so is a loop that does not get on: each time round it must start further on in the template.
-/

namespace LiquidTemplate

/-- A reading that may find a flaw, and fails (`none`) where something is out of range. -/
abbrev Read (α : Type) := ExceptT Flaw Option α

/-- The span of a token and of its parts. -/
structure Reading where
  whole : Span
  parts : Parts
deriving DecidableEq, Repr

/-- What begins a token that is no text. -/
inductive Construct where
  | drop
  | tag
  | comment
  | doctype
  | endTag
  | startTag
deriving DecidableEq, Repr

namespace Reader

variable {α : Type}

/-- Fails without a value. -/
def need (o : Option α) : Read α := ExceptT.mk (o.map .ok)

variable (source : Text)

/-! ## Cutting the template -/

/-- The template from an offset on. -/
def rest (i : Nat) : Read Text := need ((Text.splitAt? i source).map Prod.snd)

/-- The text that a span covers (`slice`). -/
def slice (s : Span) : Read Text := need (Text.slice? source s)

/-- A span, which must not stop before it starts. -/
def span (start stop : Nat) : Read Span := need (if start ≤ stop then some ⟨start, stop⟩ else none)

/-- What is left of an offset or a size, which must not be less than what is taken away. -/
def minus (n m : Nat) : Read Nat := need (if m ≤ n then some (n - m) else none)

/-- A loop at offset `i` may go on at `next`, which must be further on in the template. -/
def further (i next : Nat) : Read (PLift (i < next ∧ next ≤ Text.size source)) :=
  need (if h : i < next ∧ next ≤ Text.size source then some ⟨h⟩ else none)

/-- Whether this ASCII character is the byte at an offset; there is none at the end. -/
def hasByte (i : Nat) (c : Char) : Bool := (Text.utf8 source)[i]? == some c.toUInt8

/-- Where a pattern first occurs, from `start` on (`find_from`). -/
def find (pattern : Text) (start : Nat) : Read (Option Nat) := do
  let t ← rest source start
  return (Text.splitFirst? pattern t).map fun found => start + Text.size found.1

/-- Where the construct ends that has its opening at `start` (`delimited_end`). -/
def delimitedEnd (d : Delimiter) (start : Nat) : Read (Option Nat) := do
  let found ← find source d.closing (start + Text.size d.opening)
  return found.map (· + Text.size d.closing)

/-- The same, where it is a flaw that there is no end. -/
def closedEnd (d : Delimiter) (start : Nat) : Read Nat := do
  match ← delimitedEnd source d start with
  | some stop => return stop
  | none => throw (.unterminated d)

/-- Where a run of characters that pass ends (`take_while`). -/
def runEnd (p : Char → Bool) (start : Nat) : Read Nat := do
  let t ← rest source start
  match t.dropWhile p with
  | [] => return Text.size source
  | _ :: _ => return start + Text.size (t.takeWhile p)

/-! ## Markup -/

/-- The markup of the construct that a span covers, and where its text stands (`extract`). -/
def extract (s : Span) : Read (Markup × Span) := do
  need (guard (4 ≤ s.length))
  let stop ← minus s.stop 2
  let inner ← slice source ⟨s.start + 2, stop⟩
  let first := (Markup.splitStart inner).1
  let start := s.start + 2 + Text.size first.chars
  let inner ← slice source ⟨start, stop⟩
  let last := (Markup.splitStop inner).2
  let stop ← minus stop (Text.size last.chars)
  let text ← slice source ⟨start, stop⟩
  return (⟨⟨first, last⟩, text⟩, ← span start stop)

/-- The markup of a construct, where the span must begin and end with its delimiters. -/
def delimited (d : Delimiter) (s : Span) : Read (Markup × Span) := do
  let t ← slice source s
  need (guard (d.opening.isPrefixOf t && d.closing.isSuffixOf t))
  extract source s

/-- Cuts the markup of a tag behind the name (`split_tag`). -/
def splitTag (markup : Text) : Read (Text × Text) := do
  let markup := Text.trimStart markup
  let length :=
    if markup.head? = some '#' then 1 else Text.size (markup.takeWhile Tag.isNameChar)
  let (name, rest) ← need (Text.splitAt? length markup)
  return (name, Text.trimStart rest)

/-- The tag that a span covers (`TagParts`). -/
def tag (s : Span) : Read Tag := do
  let (markup, _) ← delimited source .tag s
  let (name, rest) ← splitTag markup.text
  return ⟨name, rest, markup.trims⟩

/-! ## What begins where -/

def startsWith (pattern t : Text) : Bool := (Text.after? pattern t).isSome

/-- Whether a text starts with this word in any case (`starts_with_ignore_case`). -/
def startsWithWord (word t : Text) : Bool :=
  (Text.slice? t (.ofText 0 word)).any fun head => Keyword.fold head = word

/-- Whether the text `t` at an offset starts with `opening` and the name of a tag can begin behind
that. -/
def startsTag (opening t : Text) (i : Nat) : Read Bool := do
  if startsWith opening t then return Opening.startsName (← rest source (i + Text.size opening))
  else return false

/-- What begins at an offset (`construct_at`). -/
def constructAt (i : Nat) : Read (Option Construct) := do
  let t ← rest source i
  if startsWith Delimiter.drop.opening t then return some .drop
  else if startsWith Delimiter.tag.opening t then return some .tag
  else if startsWith Delimiter.comment.opening t then return some .comment
  else if startsWithWord "<!doctype".toList t then return some .doctype
  else if ← startsTag source ['<', '/'] t i then return some .endTag
  else if ← startsTag source ['<'] t i then return some .startTag
  else return none

/-! ## Parts of tags -/

/-- Makes a text piece of what stands between two offsets, if anything does. -/
def flushPiece (found : List PieceParts) (start stop : Nat) : Read (List PieceParts) := do
  if start < stop then return ⟨false, ← span start stop⟩ :: found else return found

/-- The pieces of a value from `i` on, up to a character that satisfies `stop`, and where it stands
(`scan_value_pieces`). The pieces so far are kept in reverse; the one under way starts at
`textStart`. -/
def pieces (stop : Char → Bool) (found : List PieceParts) (textStart i : Nat) :
    Read (List PieceParts × Nat) := do
  let t ← rest source i
  match t with
  | [] => return ((← flushPiece found textStart i).reverse, i)
  | '{' :: '{' :: _ =>
    let found ← flushPiece found textStart i
    let dropEnd ← closedEnd source .drop i
    let ⟨_⟩ ← further source i dropEnd
    pieces stop (⟨true, ← span i dropEnd⟩ :: found) dropEnd dropEnd
  | '{' :: '%' :: _ =>
    let tagEnd ← closedEnd source .tag i
    let ⟨_⟩ ← further source i tagEnd
    pieces stop found textStart tagEnd
  | c :: _ =>
    if stop c then return ((← flushPiece found textStart i).reverse, i)
    else
      let ⟨_⟩ ← further source i (i + c.utf8Size)
      pieces stop found textStart (i + c.utf8Size)
termination_by Text.size source - i

/-- The quote at an offset. -/
def quoteAt? (i : Nat) : Option Quote :=
  if hasByte source i '"' then some .double
  else if hasByte source i '\'' then some .single
  else none

/-- The value at an offset (`scan_attribute_value`). -/
def value (start : Nat) : Read ValueParts := do
  match quoteAt? source start with
  | some q =>
    let (found, stop) ← pieces source (· == q.char) [] (start + 1) (start + 1)
    if hasByte source stop q.char then return ⟨← span start (stop + 1), some q, found⟩
    else throw (.head .unterminatedValue)
  | none =>
    let (found, stop) ← pieces source (fun c => !Value.isUnquotedChar c) [] start start
    if stop = start then throw (.head .missingValue)
    else return ⟨← span start stop, none, found⟩

/-- The attribute whose name starts at an offset (`scan_attribute`). -/
def attr (start : Nat) : Read AttributeParts := do
  let name ← span start (← runEnd source Attribute.isNameChar start)
  let afterName ← runEnd source Text.isBlank name.stop
  if hasByte source afterName '=' then
    let value ← value source (← runEnd source Text.isBlank (afterName + 1))
    return ⟨← span start value.whole.stop, name, some value⟩
  else return ⟨name, name, none⟩

/-- The name of a tag at an offset, which must not be empty (`scan_tag_name`). -/
def tagName (i : Nat) : Read NameParts := do
  let t ← rest source i
  if startsWith Delimiter.drop.opening t then
    return ⟨true, ← span i (← closedEnd source .drop i)⟩
  else
    let stop ← runEnd source TagName.isNameChar i
    need (guard (i < stop))
    return ⟨false, ← span i stop⟩

/-- What follows in a head that started at `start`, from `i` on: the loop of `scan_tag_head`. -/
def headFrom (start : Nat) (name : NameParts) (found : List AttributeParts) (i : Nat) :
    Read HeadParts := do
  let next ← runEnd source Text.isBlank i
  let t ← rest source next
  match t with
  | [] => throw (.head .unterminatedTag)
  | '>' :: _ => return ⟨← span start (next + 1), name, found.reverse, false⟩
  | '/' :: '>' :: _ => return ⟨← span start (next + 2), name, found.reverse, true⟩
  | '{' :: '{' :: _ => throw (.head .liquidAsAttributeName)
  | '{' :: '%' :: _ => throw (.head .liquidAsAttributeName)
  | c :: _ =>
    if Attribute.isNameChar c then
      let a ← attr source next
      let ⟨_⟩ ← further source i a.whole.stop
      headFrom start name (a :: found) a.whole.stop
    else throw (.head .unexpectedCharacter)
termination_by Text.size source - i

/-- The head that starts at an offset (`scan_tag_head`). -/
def head (start : Nat) : Read HeadParts := do
  let name ← tagName source (start + 1)
  headFrom source start name [] name.whole.stop

/-! ## Verbatim bodies -/

/-- The end tag of the raw tag `name`, from an offset on: the loop of `scan_raw_tag`. -/
def rawTagClose? (name : Text) (i : Nat) : Read (Option Span) := do
  match ← find source Delimiter.tag.opening i with
  | none => return none
  | some tagStart =>
    match ← delimitedEnd source .tag tagStart with
    | none => return none
    | some tagEnd =>
      let close ← span tagStart tagEnd
      let found ← tag source close
      if Text.after? "end".toList found.name = some name then return some close
      else
        let ⟨_⟩ ← further source i tagEnd
        rawTagClose? name tagEnd
termination_by Text.size source - i

/-- Whether the `</` at an offset begins the end tag of the raw element `name`. -/
def closesElement (name : Text) (start : Nat) : Read Bool := do
  let nameEnd := start + 2 + Text.size name
  match Text.slice? source ⟨start + 2, nameEnd⟩ with
  | none => return false
  | some candidate =>
    if Keyword.fold candidate = Keyword.fold name then return Raw.endsName (← rest source nameEnd)
    else return false

/-- The end tag of the raw element `name`, from an offset on: the loop of `scan_raw_element`. -/
def rawElementClose? (name : Text) (i : Nat) : Read (Option Span) := do
  match ← find source ['<', '/'] i with
  | none => return none
  | some start =>
    let ⟨_⟩ ← further source i (start + 2)
    if ← closesElement source name start then
      match ← find source ['>'] (start + 2 + Text.size name) with
      | some stop => return some (← span start (stop + 1))
      | none => rawElementClose? name (start + 2)
    else rawElementClose? name (start + 2)
termination_by Text.size source - i

/-! ## Tokens -/

/-- Where the text that goes on at byte `i` ends (`scan_text`). -/
def textEnd (i : Nat) : Read Nat := do
  if _ : i < Text.size source then
    let b ← need (Text.utf8 source)[i]?
    if b = '{'.toUInt8 ∨ b = '<'.toUInt8 then
      match ← constructAt source i with
      | some _ => return i
      | none => textEnd (i + 1)
    else textEnd (i + 1)
  else return i
termination_by Text.size source - i

def liquidTag (start : Nat) : Read Reading := do
  let opening ← span start (← closedEnd source .tag start)
  let found ← tag source opening
  if Keyword.isRawTag found.name then
    match ← rawTagClose? source found.name opening.stop with
    | none => throw (.unclosedRaw found.name)
    | some close =>
      let body ← span opening.stop close.start
      return ⟨← span start close.stop, .rawTag opening body close⟩
  else return ⟨opening, .tag⟩

def comment (start : Nat) : Read Reading := do
  let bodyStart := start + Text.size Delimiter.comment.opening
  match ← find source Delimiter.comment.closing bodyStart with
  | none => throw (.unterminated .comment)
  | some bodyEnd =>
    let body ← span bodyStart bodyEnd
    return ⟨← span start (bodyEnd + Text.size Delimiter.comment.closing), .comment body⟩

/-- The span of what stands between two offsets, without the blanks around it. -/
def trimmed (start stop : Nat) : Read Span := do
  let raw ← slice source ⟨start, stop⟩
  let leading ← minus (Text.size raw) (Text.size (Text.trimStart raw))
  let trailing ← minus (Text.size raw) (Text.size (Text.trimEnd raw))
  if leading = Text.size raw then span stop stop
  else span (start + leading) (← minus stop trailing)

def doctype (start : Nat) : Read Reading := do
  let valueStart := start + Text.size "<!doctype".toList
  match ← find source ['>'] valueStart with
  | none => throw (.head .unterminatedDoctype)
  | some stop =>
    let value ← trimmed source valueStart stop
    return ⟨← span start (stop + 1), .doctype value⟩

def endTag (start : Nat) : Read Reading := do
  let name ← tagName source (start + 2)
  let i ← runEnd source Text.isBlank name.whole.stop
  if hasByte source i '>' then return ⟨← span start (i + 1), .endTag name⟩
  else throw (.head .unclosedEndTag)

/-- The name of a head if the body of its element is kept verbatim. -/
def rawName? (h : HeadParts) : Read (Option Text) := do
  if h.name.isDynamic then return none
  else
    let name ← slice source h.name.whole
    return if !h.selfClosing && Keyword.isRawElement name then some name else none

def startTag (start : Nat) : Read Reading := do
  let head ← head source start
  match ← rawName? source head with
  | none => return ⟨head.whole, .startTag head⟩
  | some name =>
    match ← rawElementClose? source name head.whole.stop with
    | none => throw (.unclosedRaw (Keyword.fold name))
    | some close =>
      let body ← span head.whole.stop close.start
      return ⟨← span start close.stop, .rawElement head body close⟩

/-- The token at an offset, unless there is a flaw. -/
def construct (start : Nat) : Read Reading := do
  match ← constructAt source start with
  | some .drop => return ⟨← span start (← closedEnd source .drop start), .drop⟩
  | some .tag => liquidTag source start
  | some .comment => comment source start
  | some .doctype => doctype source start
  | some .endTag => endTag source start
  | some .startTag => startTag source start
  | none => return ⟨← span start (← textEnd source (start + 1)), .text⟩

/-- The token at an offset (`scan_token`). A flaw makes the rest of the template invalid
(`invalid`). -/
def token (start : Nat) : Read Reading :=
  tryCatch (construct source start) fun flaw => do
    return ⟨← span start (Text.size source), .invalid flaw⟩

/-- All tokens from an offset on (`tokenize`). -/
def tokens (start : Nat) : Read (List Reading) := do
  if start < Text.size source then
    let t ← token source start
    let ⟨_⟩ ← further source start t.whole.stop
    return t :: (← tokens t.whole.stop)
  else return []
termination_by Text.size source - start

end Reader

end LiquidTemplate
