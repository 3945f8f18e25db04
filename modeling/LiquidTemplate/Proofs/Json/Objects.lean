import LiquidTemplate.Proofs.Tree.Relocation
import LiquidTemplate.Tree.Json

/-!
# The objects of a JSON value

Some objects of a JSON value show an entry of an outline, others a position (`Json.shown?`), and the
objects are nested (`Json.objects`). The JSON form of a node has the objects of its outline, where
each node holds, behind its contents, its position (`Tree.framed`, `Node.objects_toJson?`).
-/

namespace LiquidTemplate

/-- What an object is there for. -/
inductive Shown where
  /-- A node, whose contents are objects in it. -/
  | entry (entry : Entry)
  /-- The bytes that a node covers. -/
  | position (position : Span)

/-- The object that is written for this. -/
def Shown.IsForm : Shown → Json → Prop
  | entry e, j => ∃ fields, j = Json.ofNode e.kind.typeName fields e.position
  | position p, j => j = p.toJson

/-! ## Positions among the objects -/

namespace Tree

mutual

/-- The objects of an outline: those of the contents of a node stand in its object, which ends with
that of its position. -/
def framed : Tree Entry → Tree (Option Shown)
  | node entry ts =>
    node (some (.entry entry)) (framedAll ts ++ [leaf (some (.position entry.position))])

def framedAll : List (Tree Entry) → List (Tree (Option Shown))
  | [] => []
  | t :: ts => t.framed :: framedAll ts

end

theorem framedAll_append (ts us : List (Tree Entry)) :
    framedAll (ts ++ us) = framedAll ts ++ framedAll us := by
  induction ts with
  | nil => rfl
  | cons t ts ih => rw [List.cons_append, framedAll, framedAll, ih, List.cons_append]

mutual

theorem framed_injective : ∀ {t u : Tree Entry}, t.framed = u.framed → t = u
  | .node v ts, .node w us, h => by
    rw [framed, framed, node.injEq, Option.some.injEq, Shown.entry.injEq] at h
    obtain ⟨rfl, hcontents⟩ := h
    rw [framedAll_injective (List.append_cancel_right hcontents)]

theorem framedAll_injective : ∀ {ts us : List (Tree Entry)}, framedAll ts = framedAll us → ts = us
  | [], [], _ => rfl
  | [], _ :: _, h | _ :: _, [], h => by simp [framedAll] at h
  | t :: ts, u :: us, h => by
    rw [framedAll, framedAll, List.cons.injEq] at h
    rw [framed_injective h.1, framedAll_injective h.2]

end

end Tree

/-! ## Reading fields -/

/-- The marker that is written like this. -/
def Trim.ofText? : Text → Option Trim
  | [] => some .keep
  | ['-'] => some .trim
  | _ => none

@[simp] theorem Trim.ofText?_chars (t : Trim) : ofText? t.chars = some t := by
  cases t <;> rfl

namespace Json

/-- The text that a value is. -/
def text? : Json → Option Text
  | string t => some t
  | _ => none

@[simp] theorem text?_string (t : Text) : (string t).text? = some t := rfl

@[simp] theorem text?_trim (t : Trim) : t.toJson.text? = some t.chars := rfl

/-- The position that is written as an object. -/
def span? : Json → Option Span
  | object [("start", number start), ("end", number stop)] => some ⟨start, stop⟩
  | _ => none

/-- The type of an object that shows a node, the fields behind it and the position at the end. -/
def heading? : List (String × Json) → Option (String × List (String × Json) × Span)
  | ("type", string type) :: fields =>
    match fields.getLast? with
    | some ("position", last) => last.span?.map (String.ofList type, fields.dropLast, ·)
    | _ => none
  | _ => none

section

variable (fields : List (String × Json))

/-- The text in a field. -/
def textOf? (name : String) : Option Text := (fields.lookup name).bind text?

@[simp] theorem textOf?_cons (name key : String) (value : Json) :
    textOf? ((key, value) :: fields) name =
      if name = key then value.text? else textOf? fields name := by
  rw [textOf?, List.lookup_cons]
  split <;> simp_all [textOf?]

/-- The markers in two fields. -/
def trimsOf? (start stop : String) : Option Trims := do
  return ⟨← (textOf? fields start).bind Trim.ofText?, ← (textOf? fields stop).bind Trim.ofText?⟩

/-- The tag that has a name, markup and trim markers in fields. -/
def tagOf? : Option Tag := do
  return ⟨← textOf? fields "name", ← textOf? fields "markup",
    ← trimsOf? fields "whitespaceStart" "whitespaceEnd"⟩

/-- The trim markers of an end tag. -/
def closingOf? : Option Trims := trimsOf? fields "delimiterWhitespaceStart" "delimiterWhitespaceEnd"

/-- The quote in a field; there may be none. -/
def quoteOf? : Option Quote := (textOf? fields "quote").bind fun t => t.head?.bind Quote.ofChar?

/-- The kind of a node with these fields. A name that is not a text, and a label without one, stand
for nothing. -/
def kind? (type : String) : Option Kind :=
  match type with
  | "Document" => some .document
  | "TextNode" => return .text (← textOf? fields "value")
  | "LiquidDrop" =>
    return .drop ⟨← trimsOf? fields "whitespaceStart" "whitespaceEnd", ← textOf? fields "markup"⟩
  | "LiquidTag" =>
    if (fields.lookup "children").isSome then
      return .block (← tagOf? fields) (← closingOf? fields)
    else
      return .tag (← tagOf? fields)
  | "HtmlComment" => return .comment (← textOf? fields "body")
  | "HtmlDoctype" => return .doctype (← textOf? fields "legacyDoctypeString")
  | "LiquidRawTag" =>
    return .rawTag (← tagOf? fields) (← textOf? fields "body") (← closingOf? fields)
  | "HtmlRawNode" => return .rawElement (← textOf? fields "name") (← textOf? fields "body")
  | "HtmlVoidElement" => return .voidElement (← textOf? fields "name")
  | "HtmlSelfClosingElement" => some (.selfClosingElement (textOf? fields "name"))
  | "HtmlElement" => some (.element (textOf? fields "name"))
  | "AttributeNode" =>
    return .attr (← textOf? fields "name") (quoteOf? fields)
      (fields.lookup "hasEquals" matches some (bool true))
  | "LiquidBranch" => some (.branch (tagOf? fields))
  | _ => none

end

/-- What an object with these fields shows, if it shows something. -/
def shown? (role : Role) (fields : List (String × Json)) : Option Shown :=
  match heading? fields with
  | some (type, inner, position) =>
    (kind? inner type).map fun kind => .entry ⟨role, kind, position⟩
  | none => (span? (object fields)).map .position

theorem heading?_ofNode (type : String) (fields : List (String × Json)) (position : Span) :
    heading? (("type", string type.toList) :: (fields ++ [("position", position.toJson)])) =
      some (type, fields, position) := by
  simp [heading?, Span.toJson, span?]

theorem eq_toJson_of_span? {j : Json} {position : Span} (h : j.span? = some position) :
    j = position.toJson := by
  unfold span? at h
  split at h <;> cases h
  rfl

theorem eq_ofNode_of_heading? {fields inner : List (String × Json)} {type : String}
    {position : Span} (h : heading? fields = some (type, inner, position)) :
    object fields = ofNode type inner position := by
  unfold heading? at h
  split at h
  · split at h
    · next type fields _ last hlast =>
      obtain ⟨position, hspan, hheading⟩ := Option.map_eq_some_iff.1 h
      cases hheading
      obtain ⟨inner, rfl⟩ := List.getLast?_eq_some_iff.1 hlast
      rw [ofNode, String.toList_ofList, List.dropLast_concat, eq_toJson_of_span? hspan]
    · cases h
  · cases h

theorem typeName_of_kind? {fields : List (String × Json)} {type : String} {kind : Kind}
    (h : kind? fields type = some kind) : kind.typeName = type := by
  unfold kind? at h
  split at h <;> grind [Kind.typeName, Option.bind_eq_some_iff]

/-- An object shows nothing but what it is the form of. -/
theorem isForm_of_shown? {role : Role} {fields : List (String × Json)} {x : Shown}
    (h : shown? role fields = some x) : x.IsForm (object fields) := by
  unfold shown? at h
  split at h
  · next type inner position hheading =>
    obtain ⟨kind, hkind, rfl⟩ := Option.map_eq_some_iff.1 h
    exact ⟨inner, by rw [typeName_of_kind? hkind, eq_ofNode_of_heading? hheading]⟩
  · obtain ⟨position, hspan, rfl⟩ := Option.map_eq_some_iff.1 h
    exact eq_toJson_of_span? hspan

/-! ## Nested objects -/

/-- The role of what is in the field of this name. -/
def roleOfField : String → Role
  | "name" => .name
  | "attributes" => .attr
  | "value" => .part
  | _ => .child

mutual

/-- The objects of a value as they are nested, with what each of them shows. -/
def objects (role : Role) : Json → List (Tree (Option Shown))
  | null | bool _ | number _ | string _ => []
  | array items => objectsOfItems role items
  | object fields => [.node (shown? role fields) (objectsOfFields fields)]

def objectsOfItems (role : Role) : List Json → List (Tree (Option Shown))
  | [] => []
  | item :: items => objects role item ++ objectsOfItems role items

def objectsOfFields : List (String × Json) → List (Tree (Option Shown))
  | [] => []
  | (name, value) :: fields => objects (roleOfField name) value ++ objectsOfFields fields

end

theorem objectsOfFields_append (fields more : List (String × Json)) :
    objectsOfFields (fields ++ more) = objectsOfFields fields ++ objectsOfFields more := by
  induction fields with
  | nil => rfl
  | cons field fields ih =>
    obtain ⟨name, value⟩ := field
    rw [List.cons_append, objectsOfFields, objectsOfFields, ih, List.append_assoc]

/-- What the form of a node shows, when its kind is read off and what is nested in it is known. -/
theorem objects_ofNode {role : Role} {type : String} {fields : List (String × Json)}
    {position : Span} {kind : Kind} {ts : List (Tree Entry)} (hkind : kind? fields type = some kind)
    (hfields : objectsOfFields fields = Tree.framedAll ts) :
    objects role (ofNode type fields position) =
      [Tree.framed (.node ⟨role, kind, position⟩ ts)] := by
  have hshown : shown? role (("type", string type.toList) ::
      (fields ++ [("position", position.toJson)])) = some (.entry ⟨role, kind, position⟩) := by
    rw [shown?, heading?_ofNode]
    simp [hkind]
  -- nothing is nested in the type in front, and the position is the last object
  have hnested : objectsOfFields (("type", string type.toList) ::
      (fields ++ [("position", position.toJson)])) =
      Tree.framedAll ts ++ [.leaf (some (.position position))] := by
    rw [objectsOfFields, objectsOfFields_append, hfields]
    rfl
  rw [ofNode, objects, hshown, hnested, Tree.framed]

theorem objects_ofNode_leaf {role : Role} {type : String} {fields : List (String × Json)}
    {position : Span} {kind : Kind} (hkind : kind? fields type = some kind)
    (hfields : objectsOfFields fields = []) :
    objects role (ofNode type fields position) = [Tree.framed (.leaf ⟨role, kind, position⟩)] :=
  objects_ofNode hkind hfields

end Json

open Json
open LiquidTemplate.Tree (framed framedAll)

/-! ## Reading nodes -/

theorem DropNode.objects_toJson (d : DropNode) (role : Role) :
    objects role d.toJson = [(d.outline role).framed] := by
  refine objects_ofNode_leaf ?_ rfl
  simp [kind?, trimsOf?, Trims.fields]

theorem PartNode.objects_toJson (p : PartNode) :
    objects .part p.toJson = [p.outline.framed] := by
  cases p with
  | text value position => exact objects_ofNode_leaf rfl rfl
  | drop d => exact d.objects_toJson .part

/-- What a node holds is shown if each of it is. -/
theorem Json.objectsOfItems_below? {α : Type} {role : Role} {write : Nat → α → Option Json}
    {outline : α → Tree Entry} {xs : List α} {room : Nat} {items : List Json}
    (h : ∀ x ∈ xs, ∀ room j, write room x = some j → objects role j = [(outline x).framed])
    (hitems : below? write room xs = some items) :
    objectsOfItems role items = framedAll (xs.map outline) := by
  induction xs generalizing items with
  | nil => cases hitems; rfl
  | cons x xs ih =>
    obtain ⟨hx, hxs⟩ := List.forall_mem_cons.1 h
    cases room with
    | zero => cases hitems
    | succ room =>
      obtain ⟨j, hj, hitems⟩ := Option.bind_eq_some_iff.1 hitems
      obtain ⟨js, hjs, hitems⟩ := Option.bind_eq_some_iff.1 hitems
      cases hitems
      rw [objectsOfItems, hx room j hj, ih hxs hjs]
      rfl

theorem Quote.ofChar?_char (q : Quote) : ofChar? q.char = some q := by
  cases q <;> rfl

theorem AttributeNode.objects_toJson? {a : AttributeNode} {room : Nat} {j : Json}
    (h : a.toJson? room = some j) : objects .attr j = [a.outline.framed] := by
  obtain ⟨value, hvalue, h⟩ := Option.bind_eq_some_iff.1 h
  cases h
  have hparts : objectsOfItems .part value = framedAll (a.parts.map PartNode.outline) :=
    objectsOfItems_below? (fun p _ room j hj => Option.some.inj hj ▸ p.objects_toJson) hvalue
  refine objects_ofNode ?_ ?_
  · have hquote : quoteOf? [("name", string a.name), ("value", array value),
        ("quote", a.quoteToJson), ("hasEquals", bool a.value.isSome)] =
        a.value.bind ValueNode.quote := by
      rw [quoteToJson]
      cases a.value.bind ValueNode.quote with
      | none => rfl
      | some q => exact q.ofChar?_char
    rw [kind?, hquote]
    cases a.value <;> rfl
  · have hquote : objects .child a.quoteToJson = [] := by
      rw [quoteToJson]
      cases a.value.bind ValueNode.quote <;> rfl
    simp [objectsOfFields, objects, hquote, roleOfField, hparts, parts]

theorem AttributeNode.objects_listToJson? {as : List AttributeNode} {room : Nat} {j : Json}
    (h : listToJson? room as = some j) : objects .attr j = framedAll (as.map outline) := by
  obtain ⟨items, hitems, h⟩ := Option.bind_eq_some_iff.1 h
  cases h
  exact objectsOfItems_below? (fun a _ room j hj => a.objects_toJson? hj) hitems

namespace ElementName

variable {name : ElementName} {room : Nat} {j : Json}

theorem objects_toJson? (h : name.toJson? room = some j) :
    objects .name j = framedAll name.outline := by
  cases name with
  | fixed name => cases h; rfl
  | dynamic d =>
    cases room with
    | zero => cases h
    | succ room => cases h; exact d.objects_toJson .name

theorem text?_toJson? (h : name.toJson? room = some j) : j.text? = name.fixed? := by
  cases name with
  | fixed name => cases h; rfl
  | dynamic d =>
    cases room with
    | zero => cases h
    | succ room => cases h; rfl

end ElementName

mutual

/-- The JSON form of a node shows its outline. -/
theorem Node.objects_toJson? : ∀ {n : Node} {room : Nat} {j : Json},
    n.toJson? room = some j → objects .child j = [n.outline.framed]
  | .text _ _, _, _, h | .comment _ _, _, _, h | .doctype _ _, _, _, h => by
    cases h
    exact objects_ofNode_leaf rfl rfl
  | .drop d, _, _, h => by
    cases h
    exact d.objects_toJson .child
  | .tag tag _, _, _, h => by
    cases h
    refine objects_ofNode_leaf ?_ rfl
    simp [kind?, tagOf?, trimsOf?, Trims.fields, Trims.closingFields, List.lookup_cons]
  | .rawTag tag body closing _, _, _, h => by
    cases h
    refine objects_ofNode_leaf ?_ rfl
    simp [kind?, tagOf?, closingOf?, trimsOf?, Trims.fields, Trims.closingFields]
  | .rawElement _ _ attributes _, _, _, h | .voidElement _ attributes _, _, _, h => by
    obtain ⟨j, hj, h⟩ := Option.bind_eq_some_iff.1 h
    cases h
    refine objects_ofNode rfl ?_
    simp [objectsOfFields, objects, roleOfField, AttributeNode.objects_listToJson? hj]
  | .selfClosingElement name attributes _, room, _, h => by
    obtain ⟨i, hi, h⟩ := Option.bind_eq_some_iff.1 h
    obtain ⟨j, hj, h⟩ := Option.bind_eq_some_iff.1 h
    cases h
    refine objects_ofNode ?_ ?_
    · simp [kind?, ElementName.text?_toJson? hi]
    · simp [objectsOfFields, roleOfField, ElementName.objects_toJson? hi,
        AttributeNode.objects_listToJson? hj, Tree.framedAll_append]
  | .element name attributes children _, room, _, h => by
    obtain ⟨i, hi, h⟩ := Option.bind_eq_some_iff.1 h
    obtain ⟨j, hj, h⟩ := Option.bind_eq_some_iff.1 h
    obtain ⟨items, hitems, h⟩ := Option.bind_eq_some_iff.1 h
    cases h
    refine objects_ofNode ?_ ?_
    · simp [kind?, ElementName.text?_toJson? hi]
    · simp [objectsOfFields, objects, roleOfField, ElementName.objects_toJson? hi,
        AttributeNode.objects_listToJson? hj, Node.objects_belowToJson? hitems,
        Tree.framedAll_append]
  | .block tag branches closing _, room, _, h => by
    obtain ⟨items, hitems, h⟩ := Option.bind_eq_some_iff.1 h
    cases h
    refine objects_ofNode ?_ ?_
    · simp [kind?, tagOf?, closingOf?, trimsOf?, Trims.fields, Trims.closingFields,
        List.lookup_cons]
    · simp [objectsOfFields, objects, roleOfField, Trims.fields, Trims.closingFields, Trim.toJson,
        Branch.objects_belowToJson? hitems]

theorem Branch.objects_toJson? : ∀ {b : Branch} {room : Nat} {j : Json},
    b.toJson? room = some j → objects .child j = [b.outline.framed]
  | .mk label children _, room, _, h => by
    obtain ⟨items, hitems, h⟩ := Option.bind_eq_some_iff.1 h
    cases h
    refine objects_ofNode ?_ ?_
    · cases label with
      | none => rfl
      | some tag =>
        simp [kind?, tagOf?, trimsOf?, Trims.fields, Tag.labelName?, Tag.labelMarkup,
          Tag.labelTrims]
    · have hname : objects .name ((Tag.labelName? label).elim null string) = [] := by
        cases label <;> rfl
      simp [objectsOfFields, objects, roleOfField, hname, Trims.fields, Trim.toJson,
        Node.objects_belowToJson? hitems]

theorem Node.objects_belowToJson? : ∀ {ns : List Node} {room : Nat} {items : List Json},
    Node.belowToJson? room ns = some items →
      objectsOfItems .child items = framedAll (Node.outlineAll ns)
  | [], _, _, h => by cases h; rfl
  | _ :: _, 0, _, h => by cases h
  | n :: ns, room + 1, _, h => by
    obtain ⟨j, hj, h⟩ := Option.bind_eq_some_iff.1 h
    obtain ⟨js, hjs, h⟩ := Option.bind_eq_some_iff.1 h
    cases h
    rw [objectsOfItems, Node.objects_toJson? hj, Node.objects_belowToJson? hjs]
    rfl

theorem Branch.objects_belowToJson? : ∀ {bs : List Branch} {room : Nat} {items : List Json},
    Branch.belowToJson? room bs = some items →
      objectsOfItems .child items = framedAll (Branch.outlineAll bs)
  | [], _, _, h => by cases h; rfl
  | _ :: _, 0, _, h => by cases h
  | b :: bs, room + 1, _, h => by
    obtain ⟨j, hj, h⟩ := Option.bind_eq_some_iff.1 h
    obtain ⟨js, hjs, h⟩ := Option.bind_eq_some_iff.1 h
    cases h
    rw [objectsOfItems, Branch.objects_toJson? hj, Branch.objects_belowToJson? hjs]
    rfl

end

/-- The JSON form of a document shows its outline. -/
theorem Document.objects_toJson? {d : Document} {j : Json} (h : d.toJson? = some j) :
    objects .child j = [d.outline.framed] := by
  obtain ⟨items, hitems, h⟩ := Option.bind_eq_some_iff.1 h
  cases h
  refine objects_ofNode rfl ?_
  simp [objectsOfFields, objects, roleOfField, Node.objects_belowToJson? hitems]

end LiquidTemplate
