import LiquidTemplate.Proofs.Reader.Tokens
import LiquidTemplate.Proofs.Coverage.Entries

/-!
# Loading what a token means

A token is handed on as spans, and whoever takes it cuts the template at them: names and bodies as
they stand, text without the blanks around it, drops and tags by what their delimiters enclose. For
a token of the template all that is there, and it is what the token's own text says (`load_eq`).
-/

namespace LiquidTemplate

/-- What a token means for the tree. -/
inductive Work where
  | blank
  | leaf (node : Node)
  | openElement (key : Key) (name : ElementName) (attributes : List AttributeNode)
  | closeElement (key : Key)
  | tag (tag : Tag)
  | flaw (flaw : Flaw)

/-- What a token means, from its own text. -/
def Token.work (t : Token) : Work :=
  match t.item with
  | .tag inner => .tag (.ofInner inner)
  | .startTag head =>
    (t.leafNode?.map Work.leaf).getD
      (.openElement head.name.key (.ofHead t.start head) (AttributeNode.ofHead t.start head))
  | .endTag name _ => .closeElement name.key
  | .invalid flaw _ => .flaw flaw
  | _ => (t.leafNode?.map Work.leaf).getD .blank

namespace Reader

open Located (Within)

variable (source : Text)

/-! ## Cutting out the parts of a token -/

/-- The text node of a run of text; a blank run has none. -/
def loadText? (s : Span) : Read (Option Node) := do
  let raw ← slice source s
  let value := Text.trim raw
  if value.isEmpty then return none
  else
    let leading ← minus (Text.size raw) (Text.size (Text.trimStart raw))
    return some (.text value (.ofText (s.start + leading) value))

def loadDrop (s : Span) : Read DropNode := do
  let (markup, _) ← delimited source .drop s
  return ⟨markup, s⟩

/-- What is compared of a name. -/
def loadKey (n : NameParts) : Read Key := do
  if n.isDynamic then
    let (markup, _) ← delimited source .drop n.whole
    return .dynamic markup.normalized
  else return .fixed (← slice source n.whole)

def loadName (n : NameParts) : Read ElementName := do
  if n.isDynamic then return .dynamic (← loadDrop source n.whole)
  else return .fixed (← slice source n.whole)

def loadPiece (p : PieceParts) : Read PartNode := do
  if p.isDrop then return .drop (← loadDrop source p.whole)
  else return .text (← slice source p.whole) p.whole

def loadValue (v : ValueParts) : Read ValueNode := do
  return ⟨v.quote, ← v.pieces.mapM (loadPiece source)⟩

def loadAttribute (a : AttributeParts) : Read AttributeNode := do
  let value ← a.value.mapM (loadValue source)
  return ⟨← slice source a.name, value, a.whole⟩

def loadAttributes (h : HeadParts) : Read (List AttributeNode) :=
  h.attributes.mapM (loadAttribute source)

/-- The name of a head if its element is void. -/
def loadVoid? (h : HeadParts) : Read (Option Text) := do
  if h.name.isDynamic then return none
  else
    let name ← slice source h.name.whole
    return if Keyword.isVoidElement name then some name else none

def loadHead (h : HeadParts) : Read Work := do
  match ← loadVoid? source h with
  | some name => return .leaf (.voidElement name (← loadAttributes source h) h.whole)
  | none =>
    if h.selfClosing then
      let name ← loadName source h.name
      return .leaf (.selfClosingElement name (← loadAttributes source h) h.whole)
    else
      let key ← loadKey source h.name
      let name ← loadName source h.name
      return .openElement key name (← loadAttributes source h)

/-- What a token means, from its spans. -/
def load (r : Reading) : Read Work := do
  match r.parts with
  | .text =>
    match ← loadText? source r.whole with
    | some node => return .leaf node
    | none => return .blank
  | .drop => return .leaf (.drop (← loadDrop source r.whole))
  | .tag => return .tag (← tag source r.whole)
  | .startTag head => loadHead source head
  | .endTag name => return .closeElement (← loadKey source name)
  | .comment body => return .leaf (.comment (← slice source body) r.whole)
  | .doctype value => return .leaf (.doctype (← slice source value) r.whole)
  | .rawElement head body _ =>
    let name ← slice source head.name.whole
    let attributes ← loadAttributes source head
    return .leaf (.rawElement name (← slice source body) attributes r.whole)
  | .rawTag opening body close =>
    let first ← tag source opening
    let last ← tag source close
    return .leaf (.rawTag first (← slice source body) last.trims ⟨opening.start, close.stop⟩)
  | .invalid flaw => return .flaw flaw

variable {source}

/-! ## The parts of a token are there -/

theorem mapM_eq {α β : Type} {f : α → Read β} {g : α → β} {xs : List α}
    (h : ∀ x ∈ xs, f x = pure (g x)) : xs.mapM f = pure (xs.map g) := by
  induction xs with
  | nil => rfl
  | cons x xs ih =>
    obtain ⟨hx, hxs⟩ := List.forall_mem_cons.1 h
    rw [List.mapM_cons, hx, pure_bind, ih hxs, pure_bind, List.map_cons]

theorem loadText?_eq {start : Nat} {t : Text} (h : Within ⟨start, t⟩ ⟨0, source⟩) :
    loadText? source (.ofText start t) = pure (Node.ofText? start t) := by
  rw [loadText?, slice_of_within h, pure_bind]
  simp only [Node.ofText?]
  split
  · rfl
  · rw [minus_trimStart, pure_bind]
    rfl

theorem loadDrop_eq {start : Nat} {inner : Text}
    (h : Within ⟨start, Delimiter.drop.enclose inner⟩ ⟨0, source⟩) :
    loadDrop source (.ofText start (Delimiter.drop.enclose inner)) =
      pure (.ofInner start inner) := by
  rw [loadDrop, delimited_eq (by simp) h, pure_bind]
  rfl

section Name

variable {start : Nat} {name : TagName}

theorem loadKey_eq (h : Within ⟨start, name.chars⟩ ⟨0, source⟩) :
    loadKey source (.ofName start name) = pure name.key := by
  cases name with
  | fixed name =>
    change (slice source (.ofText start name) >>= _) = _
    rw [show slice source (.ofText start name) = pure name from slice_of_within h, pure_bind]
    rfl
  | dynamic inner =>
    change (delimited source .drop (.ofText start (Delimiter.drop.enclose inner)) >>= _) = _
    rw [delimited_eq (by simp) h, pure_bind]
    rfl

theorem loadName_eq {head : Head} (h : Within ⟨start, head.chars⟩ ⟨0, source⟩) :
    loadName source (.ofName (start + 1) head.name) = pure (.ofHead start head) := by
  have hname : Within ⟨start + 1, head.name.chars⟩ ⟨0, source⟩ := Head.within_name.trans h
  unfold ElementName.ofHead
  cases hn : head.name with
  | fixed name =>
    rw [hn] at hname
    change (slice source (.ofText (start + 1) name) >>= _) = _
    rw [show slice source (.ofText (start + 1) name) = pure name from slice_of_within hname,
      pure_bind]
  | dynamic inner =>
    rw [hn] at hname
    change (loadDrop source (.ofText (start + 1) (Delimiter.drop.enclose inner)) >>= _) = _
    rw [loadDrop_eq hname, pure_bind]

end Name

theorem loadPiece_eq {p : Located Piece} (h : Within ⟨p.start, p.item.chars⟩ ⟨0, source⟩) :
    loadPiece source (.ofPiece p) = pure (.ofPiece p) := by
  obtain ⟨start, piece⟩ := p
  cases piece with
  | text value =>
    change (slice source (.ofText start value) >>= _) = _
    rw [show slice source (.ofText start value) = pure value from slice_of_within h, pure_bind]
    rfl
  | drop inner =>
    change (loadDrop source (.ofText start (Delimiter.drop.enclose inner)) >>= _) = _
    rw [loadDrop_eq h, pure_bind]
    rfl

theorem loadValue_eq {v : Located Value} (h : Within ⟨v.start, v.item.chars⟩ ⟨0, source⟩) :
    loadValue source (.ofValue v) = pure (.ofValue v) := by
  have hpieces : (ValueParts.ofValue v).pieces.mapM (loadPiece source) =
      pure ((v.item.piecesAt v.start).map PartNode.ofPiece) := by
    rw [ValueParts.ofValue, List.mapM_map]
    exact mapM_eq fun p hp => loadPiece_eq ((Value.within_pieces hp).1.trans h)
  rw [loadValue, hpieces, pure_bind]
  rfl

theorem loadAttribute_eq {a : Located Attribute} (h : Within ⟨a.start, a.item.body⟩ ⟨0, source⟩) :
    loadAttribute source (.ofAttribute a) = pure (.ofAttribute a) := by
  have hname : slice source (AttributeParts.ofAttribute a).name = pure a.item.name :=
    slice_of_within (Attribute.within_name.trans h)
  have hvalue : (AttributeParts.ofAttribute a).value.mapM (loadValue source) =
      pure ((a.item.valueAt? a.start).map ValueNode.ofValue) := by
    simp only [AttributeParts.ofAttribute]
    cases hv : a.item.valueAt? a.start with
    | none => rfl
    | some v =>
      simp only [Option.map_some, Option.mapM_some]
      rw [loadValue_eq ((Attribute.within_value hv).trans h), map_pure]
  rw [loadAttribute, hvalue, pure_bind, hname, pure_bind]
  rfl

section Head

variable {start : Nat} {head : Head}

theorem loadAttributes_eq (h : Within ⟨start, head.chars⟩ ⟨0, source⟩) :
    loadAttributes source (.ofHead start head) = pure (AttributeNode.ofHead start head) := by
  rw [loadAttributes, HeadParts.ofHead, AttributeNode.ofHead, List.mapM_map]
  exact mapM_eq fun a ha => loadAttribute_eq ((Head.within_attributes ha).1.trans h)

theorem loadVoid?_eq (h : Within ⟨start, head.chars⟩ ⟨0, source⟩) :
    loadVoid? source (.ofHead start head) = pure head.voidName? := by
  have hname : Within ⟨start + 1, head.name.chars⟩ ⟨0, source⟩ := Head.within_name.trans h
  obtain ⟨name, attributes, gap, selfClosing⟩ := head
  cases name with
  | dynamic inner => rfl
  | fixed name =>
    change (slice source (.ofText (start + 1) name) >>= _) = _
    rw [show slice source (.ofText (start + 1) name) = pure name from slice_of_within hname,
      pure_bind]
    rfl

theorem loadHead_eq (h : Within ⟨start, head.chars⟩ ⟨0, source⟩) :
    loadHead source (.ofHead start head) = pure (Token.work ⟨start, .startTag head⟩) := by
  have hattributes := loadAttributes_eq h
  have hname : loadName source (HeadParts.ofHead start head).name = _ := loadName_eq h
  have hkey : loadKey source (HeadParts.ofHead start head).name = _ :=
    loadKey_eq (Head.within_name.trans h)
  rw [loadHead, loadVoid?_eq h, pure_bind, hattributes, hname, hkey]
  simp only [Token.work, Token.leafNode?]
  cases head.voidName? with
  | some name => rfl
  | none =>
    change (if head.selfClosing = true then _ else _) = _
    cases head.selfClosing <;> rfl

end Head

/-- Whatever is loaded of a token that stands in the template is there. -/
theorem load_eq {start : Nat} {l : Lexeme} (h : Within ⟨start, l.chars⟩ ⟨0, source⟩) :
    load source (Token.reading ⟨start, l⟩) = pure (Token.work ⟨start, l⟩) := by
  cases l with
  | text value =>
    change (loadText? source (.ofText start value) >>= _) = _
    rw [loadText?_eq (t := value) h, pure_bind]
    simp only [Token.work, Token.leafNode?]
    cases Node.ofText? start value <;> rfl
  | drop inner =>
    change (loadDrop source (.ofText start (Delimiter.drop.enclose inner)) >>= _) = _
    rw [loadDrop_eq h, pure_bind]
    rfl
  | tag inner =>
    change (tag source (.ofText start (Delimiter.tag.enclose inner)) >>= _) = _
    rw [tag_eq h, pure_bind]
    rfl
  | startTag head => exact loadHead_eq h
  | endTag name gap =>
    have hname := (Lexeme.within_endTag_name start name gap).trans h
    change (loadKey source (.ofName (start + 2) name) >>= _) = _
    rw [loadKey_eq hname, pure_bind]
    rfl
  | comment body =>
    have hbody := (Lexeme.within_comment_body start body).trans h
    change (slice source (.ofText _ body) >>= _) = _
    rw [slice_of_within hbody, pure_bind]
    rfl
  | doctype keyword raw =>
    have hvalue := (Lexeme.within_doctype_value start keyword raw).trans h
    change (slice source (.ofText _ (Text.trim raw)) >>= _) = _
    rw [slice_of_within hvalue, pure_bind]
    rfl
  | rawElement head body closeName closeRest =>
    obtain ⟨hhead, hbody, -, -⟩ := Lexeme.within_rawElement start head body closeName closeRest
    have hname : Within ⟨start + 1, head.name.chars⟩ ⟨0, source⟩ :=
      (Head.within_name.trans hhead).trans h
    change (slice source (.ofText (start + 1) head.name.chars) >>= _) = _
    rw [slice_of_within hname, pure_bind, loadAttributes_eq (hhead.trans h), pure_bind]
    rw [slice_of_within (hbody.trans h), pure_bind]
    rfl
  | rawTag opening body closing =>
    obtain ⟨hopening, hbody, hclosing, hstop⟩ := Lexeme.within_rawTag start opening body closing
    change (tag source (.ofText start (Delimiter.tag.enclose opening)) >>= _) = _
    rw [tag_eq (hopening.trans h), pure_bind]
    change (tag source ⟨start + Text.size (Delimiter.tag.enclose opening) + Text.size body,
      start + Text.size (Lexeme.rawTag opening body closing).chars⟩ >>= _) = _
    simp only [hstop]
    change (tag source (.ofText _ (Delimiter.tag.enclose closing)) >>= _) = _
    rw [tag_eq (hclosing.trans h), pure_bind]
    change (slice source
      (.ofText (start + Text.size (Delimiter.tag.enclose opening)) body) >>= _) = _
    rw [slice_of_within (hbody.trans h), pure_bind]
    rfl
  | invalid flaw rest => rfl

end Reader

end LiquidTemplate
